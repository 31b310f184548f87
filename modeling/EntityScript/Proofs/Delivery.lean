import EntityScript.Proofs.Numbering
import EntityScript.Simulation
import Mathlib.Algebra.GroupWithZero.Nat

/-! The runner's queue. Events are taken out one by one, and each is delivered or put aside before the
next, while the handlers it is delivered to send more. A delivery costs one of the deliveries left,
and between two deliveries the queue gets shorter, so the queue is empty in the end, and no event
was lost on the way or taken twice. -/

namespace EntityScript

namespace Registry

def sent (r : Registry) : Nat := (r.entities.map (·.sent)).sum

theorem sum_place {e f : Entity} {l : List Entity} (hasc : l.Pairwise (·.id < ·.id)) (hf : f ∈ l)
    (hid : f.id = e.id) :
    ((place e l).map (·.sent)).sum + f.sent = (l.map (·.sent)).sum + e.sent := by
  obtain ⟨below, above, rfl, hplace⟩ := place_of_mem hasc hf hid
  simp only [hplace, List.map_append, List.map_cons, List.sum_append, List.sum_cons]
  omega

theorem update_of_get? {r : Registry} {e : Entity} {id : EntityId} (h : r.get? id = some e)
    (change : Entity → Entity) :
    (r.update id change).entities = place { change e with id := id } r.entities := by
  rw [update, h]

/-- An event counts for one entity. -/
theorem sent_update {r : Registry} {id : EntityId} (h : (r.get? id).isSome = true) :
    (r.update id Entity.countSent).sent = r.sent + 1 := by
  obtain ⟨e, he⟩ := Option.isSome_iff_exists.1 h
  have hsum := sum_place (e := { Entity.countSent e with id }) r.ascending (List.mem_of_find?_eq_some he)
    (id_of_get? he)
  rw [sent, sent, update_of_get? he]
  simp only [Entity.countSent] at hsum ⊢
  omega

theorem ids_update {r : Registry} {id : EntityId} (h : (r.get? id).isSome = true) (change : Entity → Entity) :
    (r.update id change).entities.map (·.id) = r.entities.map (·.id) := by
  obtain ⟨e, he⟩ := Option.isSome_iff_exists.1 h
  rw [update_of_get? he]
  exact ids_place_of_present r.ascending ⟨e, List.mem_of_find?_eq_some he, id_of_get? he⟩

end Registry

/-- The world after events were sent: they stand at the end of the queue, and each counts for an entity. -/
structure World.Posts (w v : World) : Prop where
  now : v.now = w.now
  ids : v.entities.entities.map (·.id) = w.entities.entities.map (·.id)
  queue : ∃ sent, v.queue.toList = w.queue.toList ++ sent ∧ v.entities.sent = w.entities.sent + sent.length

namespace World.Posts

theorem refl (w : World) : w.Posts w := ⟨rfl, rfl, [], by simp, rfl⟩

theorem trans {w v u : World} (h₁ : w.Posts v) (h₂ : v.Posts u) : w.Posts u := by
  obtain ⟨first, hfirst, hcount⟩ := h₁.queue
  obtain ⟨second, hsecond, hcount'⟩ := h₂.queue
  refine ⟨h₂.now.trans h₁.now, h₂.ids.trans h₁.ids, first ++ second, ?_, ?_⟩
  · rw [hsecond, hfirst, List.append_assoc]
  · rw [hcount', hcount, List.length_append, Nat.add_assoc]

theorem course : Course Posts :=
  .of_sendTo refl trans fun _ _ _ _ h =>
    ⟨rfl, Registry.ids_update h _, _, Array.toList_push .., Registry.sent_update h⟩

end World.Posts

/-- A call takes no script away and brings none. -/
theorem Session.script_sendEvent (s : Session) (owner other : Option EntityId) (event params : String) :
    ((s.sendEvent owner event params).2.engine.instance? other).map Instance.script =
      (s.engine.instance? other).map Instance.script := by
  rcases s.sendEvent_cases owner event params with ⟨outcome, journal, hquiet⟩ | ⟨i, position, -, hruns⟩
  · rw [hquiet]
  · rw [hruns]
    exact s.script_finishRun owner other _

namespace Simulation

/-- One round of the loop that empties the queue: the event that was taken out, how its handler ended if
it was delivered and not put aside, and the events that the handler sent. -/
structure Round where
  event : QueuedEvent
  outcome? : Option Outcome
  sent : List QueuedEvent

def Round.delivery? (now : Nat) (r : Round) : Option Delivery :=
  r.outcome?.map fun outcome => ⟨now, r.event, outcome⟩

/-- A round, with so many deliveries left before it and after it. -/
inductive Goes (left : Nat) (sim : Simulation) : Round → Nat → Simulation → Prop
  | setAside {e : QueuedEvent} {more : List QueuedEvent} (hqueue : sim.session.world.queue.toList = e :: more)
    (hwhy : left = 0 ∨ isDeliverable sim.session e = false) :
    Goes left sim ⟨e, none, []⟩ left
      { sim with session := setQueue sim.session more, setAside := sim.setAside.push e }
  | delivered {less : Nat} {e : QueuedEvent} {more sent : List QueuedEvent} {outcome : Outcome} {t : Session}
    (hleft : left = less + 1) (hqueue : sim.session.world.queue.toList = e :: more)
    (hscript : isDeliverable sim.session e = true)
    (hdeliver : (setQueue sim.session more).deliver e = (outcome, t))
    (hsent : t.world.queue.toList = more ++ sent) :
    Goes left sim ⟨e, some outcome, sent⟩ less
      { sim with session := t, delivered := sim.delivered.push ⟨sim.session.world.now, e, outcome⟩ }

/-- Rounds, until the queue is empty. -/
inductive Rounds : Nat → Simulation → List Round → Nat → Simulation → Prop
  | done {left : Nat} {sim : Simulation} (hqueue : sim.session.world.queue.toList = []) :
    Rounds left sim [] left sim
  | goes {left less least : Nat} {sim next last : Simulation} {round : Round} {rounds : List Round}
    (h : Goes left sim round less next) (hmore : Rounds less next rounds least last) :
    Rounds left sim (round :: rounds) least last

variable {left less least : Nat} {sim next last : Simulation} {round : Round} {rounds : List Round}

theorem deliverPending_of_empty (h : sim.session.world.queue.toList = []) : deliverPending left sim = sim := by
  have hqueue : setQueue sim.session [] = sim.session := by
    rw [setQueue, ← h, Array.toArray_toList]
  unfold deliverPending
  simp [h, hqueue]

theorem deliverPending_of_goes (h : Goes left sim round less next) :
    deliverPending left sim = deliverPending less next := by
  cases h with
  | @setAside e more hqueue hwhy =>
    have hsame : ∀ f, isDeliverable (setQueue sim.session more) f = isDeliverable sim.session f := fun _ => rfl
    have hagain : ∀ queue, setQueue (setQueue sim.session more) queue = setQueue sim.session queue := fun _ => rfl
    have hmore : (setQueue sim.session more).world.queue.toList = more := rfl
    unfold deliverPending
    simp only [hqueue, hsame, hmore, hagain]
    cases hscript : isDeliverable sim.session e with
    | false => simp [hscript, show (setQueue sim.session more).world.now = sim.session.world.now from rfl]
    | true =>
      -- no delivery is left, so all that is in the queue is put aside
      obtain rfl : left = 0 := by simpa [hscript] using hwhy
      simp [hscript, ← Array.toList_inj]
  | @delivered less e more sent outcome t hleft hqueue hscript hdeliver hsent =>
    subst hleft
    conv_lhs => unfold deliverPending
    simp [hqueue, hscript, hdeliver]

theorem exists_goes {e : QueuedEvent} {more : List QueuedEvent}
    (h : sim.session.world.queue.toList = e :: more) : ∃ round less next, Goes left sim round less next := by
  by_cases hwhy : left = 0 ∨ isDeliverable sim.session e = false
  · exact ⟨_, _, _, .setAside h hwhy⟩
  · obtain ⟨hleft, hscript⟩ := not_or.1 hwhy
    obtain ⟨less, rfl⟩ := Nat.exists_eq_succ_of_ne_zero hleft
    obtain ⟨sent, hsent, -⟩ := (World.Posts.course.deliver (setQueue sim.session more) e).queue
    exact ⟨_, _, _, .delivered rfl h (by simpa using hscript) rfl hsent⟩

/-- The loop ends, for with every round there is a delivery less to come, or an event less in the queue. -/
theorem exists_rounds (left : Nat) (sim : Simulation) : ∃ rounds less last, Rounds left sim rounds less last := by
  cases hqueue : sim.session.world.queue.toList with
  | nil => exact ⟨_, _, _, .done hqueue⟩
  | cons e more =>
    obtain ⟨round, less, next, h⟩ : ∃ round less next, Goes left sim round less next := exists_goes hqueue
    have hless : less < left ∨ less = left ∧
        next.session.world.queue.toList.length < sim.session.world.queue.toList.length := by
      cases h with
      | setAside hqueue =>
        refine .inr ⟨rfl, ?_⟩
        rw [hqueue]
        exact Nat.lt_succ_self _
      | delivered hleft => exact .inl (by omega)
    obtain ⟨rounds, least, last, hmore⟩ := exists_rounds less next
    exact ⟨_, _, _, .goes h hmore⟩
termination_by (left, sim.session.world.queue.toList.length)
decreasing_by
  rcases hless with hless | ⟨rfl, hless⟩
  · exact .left _ _ hless
  · exact .right _ hless

namespace Goes

theorem now_eq (h : Goes left sim round less next) : next.session.world.now = sim.session.world.now := by
  cases h with
  | setAside => rfl
  | @delivered _ e more _ _ _ _ _ _ hdeliver =>
    have hposts := World.Posts.course.deliver (setQueue sim.session more) e
    rw [hdeliver] at hposts
    exact hposts.now

theorem isDeliverable_eq (h : Goes left sim round less next) (f : QueuedEvent) :
    isDeliverable next.session f = isDeliverable sim.session f := by
  cases h with
  | setAside => rfl
  | @delivered _ e more _ _ _ _ _ _ hdeliver =>
    have hscripts := Session.script_sendEvent { setQueue sim.session more with sender := e.sender }
      (some e.target) (some f.target) e.event e.params
    have hsome := congrArg Option.isSome hscripts
    rw [Option.isSome_map, Option.isSome_map] at hsome
    change ((Session.deliver (setQueue sim.session more) e).2.engine.instance? (some f.target)).isSome = _ at hsome
    rwa [hdeliver] at hsome

end Goes

namespace Rounds

theorem eq_deliverPending (h : Rounds left sim rounds less last) : last = deliverPending left sim := by
  induction h with
  | done hqueue => exact (deliverPending_of_empty hqueue).symm
  | goes h _ ih => exact ih.trans (deliverPending_of_goes h).symm

theorem queue_eq (h : Rounds left sim rounds less last) : last.session.world.queue.toList = [] := by
  induction h with
  | done hqueue => exact hqueue
  | goes _ _ ih => exact ih

/-- Events are taken out in the order in which they came. -/
theorem events_eq (h : Rounds left sim rounds less last) :
    rounds.map (·.event) = sim.session.world.queue.toList ++ rounds.flatMap (·.sent) := by
  induction h with
  | done hqueue => rw [hqueue]; rfl
  | goes h _ ih =>
    rw [List.map_cons, List.flatMap_cons, ih]
    cases h with
    | setAside hqueue => rw [hqueue]; rfl
    | delivered _ hqueue _ _ hsent => rw [hqueue, hsent]; simp

theorem delivered_eq (h : Rounds left sim rounds less last) :
    last.delivered.toList =
      sim.delivered.toList ++ rounds.filterMap (·.delivery? sim.session.world.now) := by
  induction h with
  | done => simp
  | goes h _ ih =>
    rw [ih, h.now_eq]
    cases h <;> simp [Round.delivery?]

theorem setAside_eq (h : Rounds left sim rounds less last) :
    last.setAside.toList = sim.setAside.toList ++ (rounds.filter (·.outcome?.isNone)).map (·.event) := by
  induction h with
  | done => simp
  | goes h _ ih =>
    rw [ih]
    cases h <;> simp

/-- Every round with a delivery costs one of those that are left. -/
theorem countP_add (h : Rounds left sim rounds less last) :
    rounds.countP (·.outcome?.isSome) + less = left := by
  induction h with
  | done => simp
  | goes h _ ih =>
    cases h with
    | setAside => exact ih
    | delivered hleft =>
      rw [List.countP_cons_of_pos rfl]
      omega

/-- An event that could be delivered is put aside only when no delivery is left. -/
theorem countP_of_setAside {earlier later : List Round}
    (h : Rounds left sim (earlier ++ round :: later) less last) (hround : round.outcome? = none)
    (hscript : isDeliverable sim.session round.event = true) :
    earlier.countP (·.outcome?.isSome) = left := by
  induction earlier generalizing left sim with
  | nil =>
    cases h with
    | goes h _ =>
      cases h with
      | setAside _ hwhy => simpa [hscript, eq_comm] using hwhy
      | delivered => cases hround
  | cons first earlier ih =>
    cases h with
    | goes h hmore =>
      have hrest := ih hmore (h.isDeliverable_eq _ ▸ hscript)
      cases h with
      | setAside => exact hrest
      | delivered hleft =>
        rw [List.countP_cons_of_pos rfl, hrest, hleft]

end Rounds

theorem queue_deliverPending (left : Nat) (sim : Simulation) :
    (deliverPending left sim).session.world.queue.size = 0 := by
  obtain ⟨rounds, less, last, h⟩ := exists_rounds left sim
  rw [← h.eq_deliverPending, ← Array.length_toList, h.queue_eq, List.length_nil]

theorem queue_finish (h : sim.session.world.queue.size = 0) : sim.finish.session.world.queue.size = 0 := by
  unfold finish
  generalize duration / interval = n
  cases n with
  | zero => exact h
  | succ n => exact queue_deliverPending _ _

def lone (config : Config) (seed : Nat) (script : Script) (name : String) : Session :=
  { engine := (Engine.new config seed).attach (loner name).1.id script
    world := { entities := (loner name).2 } }

theorem start_eq (config : Config) (seed : Nat) (script : Script) (name event : String) :
    (start config seed script name event).2 = deliverPending deliveryLimit
      { session := ((lone config seed script name).sendEvent (some (loner name).1.id) event "").2 } := by
  rw [start]
  rfl

theorem report_eq (config : Config) (seed : Nat) (path : String) (script : Script) (name event : String) :
    let report := Report.simulate config seed path script name event
    let last := (start config seed script name event).2.finish
    report.entity = (loner name).1.id ∧ report.delivered = last.delivered.toList ∧
      report.queued = last.setAside.toList := by
  rw [Report.simulate]
  rcases start config seed script name event with ⟨outcome, sim⟩
  dsimp only
  generalize sim.finish = last
  exact ⟨rfl, rfl, rfl⟩

/-- The books are in order: the lone entity counts one event for each that is in the queue, was delivered or
was put aside, and deliveries are noted in the order of their times, none of which is to come. -/
structure Balanced (id : EntityId) (sim : Simulation) : Prop where
  alone : sim.session.world.entities.entities.map (·.id) = [id]
  counted : sim.session.world.entities.sent =
    sim.delivered.size + sim.setAside.size + sim.session.world.queue.size
  ordered : sim.delivered.toList.Pairwise (·.time ≤ ·.time)
  past : ∀ d ∈ sim.delivered.toList, d.time ≤ sim.session.world.now

namespace Balanced

variable {id : EntityId}

theorem posts {t : Session} (h : Balanced id sim) (hposts : sim.session.world.Posts t.world) (fired : Nat) :
    Balanced id { sim with session := t, fired } := by
  obtain ⟨sent, hqueue, hsent⟩ := hposts.queue
  have hsize := congrArg List.length hqueue
  rw [List.length_append, Array.length_toList, Array.length_toList] at hsize
  refine ⟨hposts.ids.trans h.alone, ?_, h.ordered, fun d hd => ?_⟩
  · have hcounted := h.counted
    simp only
    omega
  · exact (h.past d hd).trans_eq hposts.now.symm

theorem goes (h : Balanced id sim) (hgoes : Goes left sim round less next) : Balanced id next := by
  have hcounted := h.counted
  cases hgoes with
  | @setAside e more hqueue =>
    have hsize := congrArg List.length hqueue
    rw [Array.length_toList, List.length_cons] at hsize
    refine ⟨h.alone, ?_, h.ordered, h.past⟩
    simp only [setQueue, Array.size_push, List.size_toArray]
    omega
  | @delivered _ e more sent outcome t _ hqueue _ hdeliver _ =>
    have hsize := congrArg List.length hqueue
    rw [Array.length_toList, List.length_cons] at hsize
    have hposts := World.Posts.course.deliver (setQueue sim.session more) e
    rw [hdeliver] at hposts
    obtain ⟨sent', hqueue', hsent'⟩ := hposts.queue
    have hsize' : t.world.queue.size = more.length + sent'.length := by
      simpa [setQueue] using congrArg List.length hqueue'
    have hcounted' : t.world.entities.sent = sim.session.world.entities.sent + sent'.length := hsent'
    refine ⟨hposts.ids.trans h.alone, ?_, ?_, ?_⟩
    · simp only [Array.size_push]
      omega
    · rw [Array.toList_push, List.pairwise_append]
      exact ⟨h.ordered, List.pairwise_singleton .., fun d hd d' hd' => by
        rw [List.mem_singleton.1 hd']
        exact h.past d hd⟩
    · intro d hd
      rw [Array.toList_push, List.mem_append, List.mem_singleton] at hd
      have hnow : t.world.now = sim.session.world.now := hposts.now
      rcases hd with hd | rfl
      · exact (h.past d hd).trans_eq hnow.symm
      · exact hnow.ge

theorem of_rounds (h : Balanced id sim) (hrounds : Rounds left sim rounds less last) : Balanced id last := by
  induction hrounds with
  | done => exact h
  | goes hgoes _ ih => exact ih (h.goes hgoes)

theorem deliverPending (h : Balanced id sim) (left : Nat) : Balanced id (deliverPending left sim) := by
  obtain ⟨rounds, less, last, hrounds⟩ := exists_rounds left sim
  exact hrounds.eq_deliverPending ▸ h.of_rounds hrounds

theorem advance (h : Balanced id sim) (ms : Nat) : Balanced id { sim with session := sim.session.advance ms } :=
  ⟨h.alone, h.counted, h.ordered, fun d hd => (h.past d hd).trans (Nat.le_add_right ..)⟩

theorem step (h : Balanced id sim) : Balanced id sim.step := by
  have hadvanced := h.advance interval
  exact (hadvanced.posts (World.Posts.course.tick _) _).deliverPending _

theorem finish (h : Balanced id sim) : Balanced id sim.finish := by
  unfold Simulation.finish
  generalize duration / interval = n
  induction n with
  | zero => exact h
  | succ n ih => exact ih.step

theorem start (config : Config) (seed : Nat) (script : Script) (name event : String) :
    Balanced (loner name).1.id (start config seed script name event).2 := by
  rw [start_eq]
  have hbegin : Balanced (loner name).1.id { session := lone config seed script name } := ⟨rfl, rfl, .nil, by simp⟩
  exact (hbegin.posts (World.Posts.course.sendEvent ..) 0).deliverPending deliveryLimit

/-- With an empty queue the entity has sent as many events as were delivered or put aside. -/
theorem exists_sent (h : Balanced id sim) (hqueue : sim.session.world.queue.size = 0) :
    ∃ e, sim.session.world.entities.entities = [e] ∧ e.id = id ∧
      sim.delivered.toList.length + sim.setAside.toList.length = e.sent := by
  obtain ⟨e, he, hid⟩ := List.map_eq_singleton_iff.1 h.alone
  refine ⟨e, he, hid, ?_⟩
  have hcounted := h.counted
  rw [hqueue, Registry.sent, he] at hcounted
  simpa using hcounted.symm

end Balanced

/-- Emptying the queue ends, however many events the handlers send meanwhile, and it ends in one way, with
an empty queue: each event that was in the queue or came there is taken out once, in the order in
which they came, and then either delivered or put aside. At most as many are delivered as there may
be, and one whose target has a script is put aside only when they are used up. So in a whole
simulation all events that the entity has sent are reported as delivered or as put aside, and the
delivered ones in the order of their times. -/
theorem deliverPending_conserves :
    (∀ sim : Simulation,
      let last := deliverPending deliveryLimit sim
      ∃ rounds left, Rounds deliveryLimit sim rounds left last ∧
        (∀ rounds' left' last', Rounds deliveryLimit sim rounds' left' last' → last' = last) ∧
        last.session.world.queue.toList = [] ∧
        rounds.map (·.event) = sim.session.world.queue.toList ++ rounds.flatMap (·.sent) ∧
        last.delivered.toList =
          sim.delivered.toList ++ rounds.filterMap (·.delivery? sim.session.world.now) ∧
        last.setAside.toList = sim.setAside.toList ++ (rounds.filter (·.outcome?.isNone)).map (·.event) ∧
        rounds.countP (·.outcome?.isSome) ≤ 256 ∧
        ∀ earlier round later, rounds = earlier ++ round :: later → round.outcome? = none →
          isDeliverable sim.session round.event = true → earlier.countP (·.outcome?.isSome) = 256) ∧
    ∀ (config : Config) (seed : Nat) (path : String) (script : Script) (name event : String),
      let report := Report.simulate config seed path script name event
      let last := (start config seed script name event).2.finish
      report.delivered = last.delivered.toList ∧ report.queued = last.setAside.toList ∧
        (∃ e, last.session.world.entities.entities = [e] ∧ e.id = report.entity ∧
          report.delivered.length + report.queued.length = e.sent) ∧
        report.delivered.Pairwise (·.time ≤ ·.time) := by
  refine ⟨fun sim => ?_, fun config seed path script name event => ?_⟩
  · obtain ⟨rounds, left, last, h⟩ := exists_rounds deliveryLimit sim
    obtain rfl := h.eq_deliverPending
    refine ⟨rounds, left, h, fun _ _ _ h' => h'.eq_deliverPending, h.queue_eq, h.events_eq, h.delivered_eq,
      h.setAside_eq, ?_, ?_⟩
    · exact (Nat.le_add_right ..).trans_eq h.countP_add
    · rintro earlier round later rfl hround hscript
      exact h.countP_of_setAside hround hscript
  · dsimp only
    obtain ⟨hentity, hdelivered, hqueued⟩ := report_eq config seed path script name event
    have hbalanced := (Balanced.start config seed script name event).finish
    have hempty : (start config seed script name event).2.finish.session.world.queue.size = 0 := by
      refine queue_finish ?_
      rw [start_eq]
      exact queue_deliverPending _ _
    refine ⟨hdelivered, hqueued, ?_, ?_⟩
    · rw [hdelivered, hqueued, hentity]
      exact hbalanced.exists_sent hempty
    · rw [hdelivered]
      exact hbalanced.ordered

def mailroom : Simulation where
  session :=
    { engine := (Engine.new {} 0).attach 1 (.ofText "clerk" "on open\naccept")
      world := { queue := #[⟨2, "hit", "", none⟩, ⟨1, "hit", "", none⟩] } }

/-- The script has no handler for the event. -/
theorem deliver_mailroom :
    (setQueue mailroom.session []).deliver ⟨1, "hit", "", none⟩ = (.success, setQueue mailroom.session []) := by
  have hfound : mailroom.session.engine.instance? (some 1) =
      some { script := .ofText "clerk" "on open\naccept", state := .fresh 256 } := rfl
  have hmaster : mailroom.session.engine.masterState? (some 1) = none := rfl
  have hallowed : (ScriptState.fresh 256).allows (Text.lowercase "hit") = true := by decide +kernel
  have hhandler : (Script.ofText "clerk" "on open\naccept").findEvent?
      ((ScriptState.fresh 256).handlerOf (Text.lowercase "hit")) = none := by decide +kernel
  simp only [Session.deliver, Session.withSender, Session.sendEvent, setQueue, hfound, hmaster, Option.getD_none,
    hallowed, hhandler]
  rfl

theorem mailroom_rounds (h : Rounds deliveryLimit mailroom rounds left last) :
    rounds = [⟨⟨2, "hit", "", none⟩, none, []⟩, ⟨⟨1, "hit", "", none⟩, some .success, []⟩] := by
  cases h with
  | goes hfirst hmore =>
    cases hfirst with
    | setAside hqueue =>
      cases hqueue
      cases hmore with
      | goes hsecond hrest =>
        cases hsecond with
        | setAside hqueue hwhy =>
          cases hqueue
          exact absurd hwhy (by decide +kernel)
        | delivered hleft hqueue hscript hdeliver hsent =>
          cases hqueue
          cases hdeliver.symm.trans deliver_mailroom
          obtain rfl : _ = [] := hsent.symm
          cases hrest with
          | done => rfl
          | goes hthird =>
            cases hthird with
            | setAside hqueue => cases hqueue
            | delivered _ hqueue => cases hqueue
      | done hqueue => cases hqueue
    | delivered hleft hqueue hscript =>
      cases hqueue
      cases hscript
  | done hqueue => cases hqueue

/-- One event is delivered and the other one put aside, although it came first. -/
theorem deliverPending_conserves_mailroom :
    let last := deliverPending deliveryLimit mailroom
    last.delivered.toList = [⟨0, ⟨1, "hit", "", none⟩, .success⟩] ∧
      last.setAside.toList = [⟨2, "hit", "", none⟩] ∧ last.session.world.queue.toList = [] := by
  obtain ⟨rounds, left, hrounds, -, hempty, -, hdelivered, hsetAside, -⟩ := deliverPending_conserves.1 mailroom
  rw [mailroom_rounds hrounds] at hdelivered hsetAside
  exact ⟨hdelivered, hsetAside, hempty⟩

end Simulation

end EntityScript
