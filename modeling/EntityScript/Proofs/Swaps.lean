import EntityScript.Proofs.Targets

/-! The order of event and target. An order to one entity may name the target before the event, and then
the word of the target is not looked up as a variable. So the two orders do the same for a literal, and
for a variable they do where the word itself names the same entity as the text that it stands for. -/

namespace EntityScript

open Reading

theorem Registry.eq_of_find?_id {r : Registry} {name name' : String} {caller : Option EntityId} {e f : Entity}
    (he : r.find? name caller = some e) (hf : r.find? name' caller = some f) (hid : e.id = f.id) : e = f := by
  have hfound : ∀ g ∈ r.entities, r.get? g.id = some g := fun g hg => mem_iff_get?.1 hg
  have hfirst := hfound e (mem_of_find? he)
  rw [hid, hfound f (mem_of_find? hf)] at hfirst
  exact (Option.some.inj hfirst).symm

/-- The names of the events of the engine stand for themselves. -/
theorem namespace_of_isSystemEvent {name : String} (h : isSystemEvent name = true) :
    Namespace.of name = .literal := by
  have hall : ∀ name ∈ systemEvents, Namespace.of name = .literal := by decide +kernel
  exact hall name (List.contains_iff_mem.1 h)

namespace Run

theorem textOf_literal {r : Run} {word : String} (h : Namespace.of word = .literal) : r.textOf word = word := by
  rw [textOf, valueOf, if_neg (by simp [h]), Value.ofOperand, h]
  rfl

end Run

namespace Order

variable {r : Run} {o : Order}

theorem flags_of_isSingle (h : o.isSingle = true) :
    o.flags.has 'r' = false ∧ o.flags.has 'z' = false ∧ o.flags.has 'g' = false := by
  simpa [isSingle, and_assoc] using h

theorem target_of_isSingle (h : o.isSingle = true) : (o.dispatch r).targets = .single (o.target r) := by
  obtain ⟨hradius, hzone, hgroup⟩ := flags_of_isSingle h
  simp [dispatch, hradius, hzone, hgroup]

variable {first second : String} {more : List String}

/-- The first two words are the event and the target, in this order or the other one. -/
theorem words_of_isSingle (h : o.isSingle = true) (hwords : o.words = first :: second :: more) :
    o.word o.eventAt = first ∧ o.word o.aimAt = second ∧ o.params = more.headD "" := by
  obtain ⟨hradius, hzone, hgroup⟩ := flags_of_isSingle h
  have hevent : o.eventAt = 0 := by rw [eventAt, hgroup]; rfl
  have haim : o.aimAt = 1 := by rw [aimAt, hevent, hzone]; rfl
  have hparams : o.paramsAt = 2 := by rw [paramsAt, haim, hradius, h]; rfl
  rw [params, hevent, haim, hparams, word, word, word, hwords]
  refine ⟨rfl, rfl, ?_⟩
  cases more <;> rfl

theorem of_eventFirst (h : o.isSingle = true) (hwords : o.words = first :: second :: more)
    (htarget : isSystemEvent (r.textOf second) = false) :
    o.event r = first ∧ o.target r = r.textOf second ∧ o.params = more.headD "" := by
  obtain ⟨hfirst, hsecond, hparams⟩ := words_of_isSingle h hwords
  have hswapped : o.isSwapped r = false := by
    rw [isSwapped, (flags_of_isSingle h).1, h, hsecond, htarget]
    rfl
  rw [event, target, hswapped, hfirst, hsecond]
  exact ⟨rfl, rfl, hparams⟩

/-- The target that stands before the event is taken for its name as it is written. -/
theorem of_targetFirst (h : o.isSingle = true) (hwords : o.words = first :: second :: more)
    (hevent : isSystemEvent second = true) :
    o.event r = second ∧ o.target r = first ∧ o.params = more.headD "" := by
  obtain ⟨hfirst, hsecond, hparams⟩ := words_of_isSingle h hwords
  have htext : r.textOf second = second := Run.textOf_literal (namespace_of_isSystemEvent hevent)
  have hswapped : o.isSwapped r = true := by
    rw [isSwapped, (flags_of_isSingle h).1, h, hsecond, htext, hevent]
    rfl
  rw [event, target, hswapped, h, hfirst, hsecond, htext]
  exact ⟨rfl, rfl, hparams⟩

end Order

structure SameEvents (a b : Outcome × Run) : Prop where
  outcome : b.1 = a.1
  queue : b.2.world.queue = a.2.world.queue
  sent : ∀ id, (b.2.world.entities.get? id).map (·.sent) = (a.2.world.entities.get? id).map (·.sent)

/-- The event has gone to the target, and to nobody if there is none. -/
def Posted (w : World) (sender : EntityId) (event params : String) (target : Option Entity)
    (done : Outcome × Run) : Prop :=
  match target with
  | none => done.1 = .failed ∧ done.2.world = w
  | some e =>
    done.1 = .success ∧
      done.2.world = World.enqueue { w with entities := w.entities.update sender Entity.countSent }
        ⟨e.id, event, params, some sender⟩

namespace Posted

variable {w : World} {sender : EntityId} {event params : String} {target target' : Option Entity}
  {a b : Outcome × Run}

theorem success_iff (h : Posted w sender event params target a) : a.1 = .success ↔ target.isSome := by
  cases target with
  | none => simp [h.1]
  | some e => simp [h.1]

/-- Events that go to different entities are not the same. -/
theorem sameEvents_iff (ha : Posted w sender event params target a) (hb : Posted w sender event params target' b)
    (hids : ∀ e ∈ target, ∀ f ∈ target', e.id = f.id → e = f) : SameEvents a b ↔ target' = target := by
  constructor
  · intro h
    have hsuccess : target'.isSome ↔ target.isSome := by rw [← hb.success_iff, ← ha.success_iff, h.outcome]
    cases htarget : target with
    | none => simpa [htarget] using hsuccess
    | some e =>
      obtain ⟨f, hf⟩ := Option.isSome_iff_exists.1 (hsuccess.2 (by rw [htarget]; rfl))
      subst htarget hf
      have hqueue := h.queue
      rw [ha.2, hb.2] at hqueue
      have hid : f.id = e.id := congrArg QueuedEvent.target (Array.push_eq_push.1 hqueue).1
      rw [hids e rfl f rfl hid.symm]
  · rintro rfl
    cases target' with
    | none => exact ⟨hb.1.trans ha.1.symm, by rw [ha.2, hb.2], fun id => by rw [ha.2, hb.2]⟩
    | some e => exact ⟨hb.1.trans ha.1.symm, by rw [ha.2, hb.2], fun id => by rw [ha.2, hb.2]⟩

end Posted

namespace Exec

variable {r s : Run} {sender : Entity}

/-- An order to one entity sends its event there, if there is such an entity. -/
theorem runSendEvent_single (hsender : r.owner.bind r.world.entities.get? = some sender)
    (hsingle : (Order.of r).isSingle = true) :
    Posted r.world sender.id ((Order.of r).event r) (Order.of r).params
      (r.world.entities.find? ((Order.of r).target r) (some sender.id)) (runSendEvent.run r) := by
  have hdone := runSendEvent_order hsender
  rw [Dispatch.send, Dispatch.receivers, Order.target_of_isSingle hsingle] at hdone
  dsimp only at hdone
  cases hfound : r.world.entities.find? ((Order.of r).target r) (some sender.id) with
  | none => rwa [hfound] at hdone
  | some e => rwa [hfound] at hdone

/-- An event of the engine, sent to one entity with the event before the target and with the target before
the event. It comes to the same if and only if the word of the target names the same entity as the text
that it stands for, as it does when it stands for itself. -/
theorem runSendEvent_swaps {event target : String} {more : List String} (hscene : SameScene r s)
    (hsender : r.owner.bind r.world.entities.get? = some sender) (hsingle : (Order.of r).isSingle = true)
    (hflags : (Order.of s).flags = (Order.of r).flags) (hr : (Order.of r).words = event :: target :: more)
    (hs : (Order.of s).words = target :: event :: more) (hevent : isSystemEvent event = true)
    (htarget : isSystemEvent (r.textOf target) = false) :
    let named (name : String) := r.world.entities.find? name (some sender.id)
    let done := runSendEvent.run r
    let swapped := runSendEvent.run s
    (done.1 = .success ↔ (named (r.textOf target)).isSome) ∧ (swapped.1 = .success ↔ (named target).isSome) ∧
      (SameEvents done swapped ↔ named target = named (r.textOf target)) ∧
      (Namespace.of target = .literal → SameEvents done swapped) := by
  have hsingle' : (Order.of s).isSingle = true := by rwa [Order.isSingle, hflags]
  have hsender' : s.owner.bind s.world.entities.get? = some sender := by rwa [hscene.owner, hscene.world]
  obtain ⟨hisEvent, hisTarget, hparams⟩ := Order.of_eventFirst hsingle hr htarget
  obtain ⟨hisEvent', hisTarget', hparams'⟩ := Order.of_targetFirst (r := s) hsingle' hs hevent
  have hdone := runSendEvent_single hsender hsingle
  have hswapped := runSendEvent_single hsender' hsingle'
  rw [hisEvent, hisTarget, hparams] at hdone
  rw [hisEvent', hisTarget', hparams', hscene.world] at hswapped
  have hsame := hdone.sameEvents_iff hswapped fun e he f hf hid => Registry.eq_of_find?_id he hf hid
  refine ⟨hdone.success_iff, hswapped.success_iff, hsame, fun hliteral => hsame.2 ?_⟩
  rw [Run.textOf_literal hliteral]

def guard : Entity := { id := 1, name := "guard", kinds := .npc }

def rat : Entity := { id := 2, name := "rat", kinds := .npc }

def herald (line : String) : Run where
  script := .ofText "herald" line
  place := { rest := line.toList }
  owner := some 1
  own := .fresh 0
  shared :=
    { globals := ⟨Dict.empty.set "$who" (.text "rat"), 1⟩, timers := .withCapacity 0, random := .ofSeed 0
      maxCallDepth := 1 }
  world := { entities := ⟨[guard, rat], 3, by decide⟩ }
  sender := none

theorem herald_scene (line line' : String) : SameScene (herald line) (herald line') :=
  ⟨rfl, rfl, rfl, rfl, rfl, rfl, rfl⟩

theorem runSendEvent_swaps_herald :
    SameEvents (runSendEvent.run (herald " -n hit rat dmg10")) (runSendEvent.run (herald " -n rat hit dmg10")) := by
  have hr : Order.of (herald " -n hit rat dmg10") = ⟨⟨['n']⟩, ["hit", "rat", "dmg10"]⟩ := by decide +kernel
  have hs : Order.of (herald " -n rat hit dmg10") = ⟨⟨['n']⟩, ["rat", "hit", "dmg10"]⟩ := by decide +kernel
  have htarget : isSystemEvent ((herald " -n hit rat dmg10").textOf "rat") = false := by
    rw [Run.textOf_literal (by decide)]
    decide
  have hsame := runSendEvent_swaps (herald_scene " -n hit rat dmg10" " -n rat hit dmg10")
    (rfl : _ = some guard) (by rw [hr]; decide) (by rw [hr, hs]) (by rw [hr]) (by rw [hs]) (by decide) htarget
  exact hsame.2.2.2 (by decide)

/-- The target is a variable that holds the name of the rat. Before the event it is not looked up, and
the event goes to nobody. -/
theorem runSendEvent_loses_herald :
    Order.of (herald " hit $who dmg10") = ⟨{}, ["hit", "$who", "dmg10"]⟩ ∧
      Order.of (herald " $who hit dmg10") = ⟨{}, ["$who", "hit", "dmg10"]⟩ ∧
      isSystemEvent "hit" = true ∧ isSystemEvent ((herald " hit $who dmg10").textOf "$who") = false ∧
      (runSendEvent.run (herald " hit $who dmg10")).1 = .success ∧
      (runSendEvent.run (herald " $who hit dmg10")).1 = .failed := by
  decide +kernel

end Exec

end EntityScript
