import EntityScript.Proofs.Stirs
import EntityScript.Proofs.Worlds

/-! A tick from its first slot to its last. Nothing that runs meanwhile moves the clock, removes an
entity or takes a script away, so who is present at its beginning is present at its end, and what one
slot is judged by is what every slot is judged by. -/

namespace EntityScript

open Relation

/-- The clock shows the same time, and the same entities are alive. -/
structure World.Abides (w v : World) : Prop where
  now : v.now = w.now
  alive : ∀ id, (v.entities.get? id).isSome = (w.entities.get? id).isSome

namespace World.Abides

theorem refl (w : World) : w.Abides w := ⟨rfl, fun _ => rfl⟩

theorem trans {w v u : World} (h₁ : w.Abides v) (h₂ : v.Abides u) : w.Abides u :=
  ⟨h₂.now.trans h₁.now, fun id => (h₂.alive id).trans (h₁.alive id)⟩

/-- Sending an event only counts for its sender and fills the queue. -/
theorem course : Course Abides :=
  .of_sendTo refl trans fun _ {sender w} _ _ =>
    ⟨rfl, fun id => Registry.isSome_get?_update w.entities sender id Entity.countSent⟩

end World.Abides

namespace Moment

def world : Moment → World
  | between s _ => s.world
  | running _ _ l _ => l.run.world

def Present (m : Moment) (owner : Option EntityId) : Prop :=
  (∀ id, owner = some id → (m.world.entities.get? id).isSome = true) ∧
    (m.engine.instance? owner).isSome = true

/-- The slots that the tick still has to look at when no run is on its way. -/
def slots : Moment → List Nat
  | between _ slots => slots
  | running _ slots _ _ => slots

/-- The same time, the same entities, and scripts for the same owners. -/
structure Abides (m next : Moment) : Prop where
  world : m.world.Abides next.world
  engine : ∀ owner, (next.engine.instance? owner).isSome = (m.engine.instance? owner).isSome

namespace Abides

variable {m next : Moment} {owner : Option EntityId}

theorem present (h : m.Abides next) (hpresent : m.Present owner) : next.Present owner :=
  ⟨fun id howner => (h.world.alive id).trans (hpresent.1 id howner), (h.engine owner).trans hpresent.2⟩

theorem afterRun {s : Session} {slots : List Nat} {l : Loop} {left : Nat} {r : Run}
    (h : l.run.world.Abides r.world) : (running s slots l left).Abides (afterRun s slots r) := by
  refine ⟨h, fun owner => ?_⟩
  have hscript := congrArg Option.isSome (s.script_finishRun r.owner owner r)
  rwa [Option.isSome_map, Option.isSome_map] at hscript

end Abides

theorem abides_of_carryOut {table : CommandTable} {l next : Loop} {word : String} {rest : List Char}
    {outcome : Outcome} (h : l.carryOut table word rest = (outcome, next)) :
    l.run.world.Abides next.run.world := by
  have heffect := World.Abides.course.effect (Loop.effect_of_carryOut h)
  exact heffect

theorem Worked.abides {m next : Moment} {incident : Option Incident} (h : Worked m incident next) :
    m.Abides next := by
  cases h with
  | looked h =>
    cases h with
    | empty | waiting => exact ⟨.refl _, fun _ => rfl⟩
    | dropped | putOff => exact ⟨.refl _, fun owner => by cases owner <;> rfl⟩
  | fired h =>
    cases h with
    | fired => exact ⟨.refl _, fun owner => by cases owner <;> rfl⟩
  | @passed s slots l next left h =>
    refine ⟨?_, fun _ => rfl⟩
    rw [world, world, Loop.run_of_passed h]
    exact .refl _
  | ended => exact .afterRun (.refl _)
  | carried _ hcarry => exact ⟨abides_of_carryOut hcarry, fun _ => rfl⟩
  | stopped _ hcarry => exact .afterRun (abides_of_carryOut hcarry)

end Moment

namespace Session.Polls

variable {s t : Session} {slot i : Nat} {timer? : Option Timer} {u : Timer}

theorem get?_other (h : s.Polls slot timer? t) (hi : i ≠ slot) : t.timers.get? i = s.timers.get? i := by
  cases h with
  | empty | waiting => rfl
  | dropped => exact TimerPool.get?_free.trans (if_neg hi)
  | putOff hslot => exact (TimerPool.get?_put (TimerPool.lt_capacity_of_get? hslot)).trans (if_neg hi)
  | fired hslot => exact (TimerPool.get?_afterRun hslot).trans (if_neg hi)

/-- What is left in the slot belongs to someone who is present. -/
theorem present (h : s.Polls slot timer? t) (hu : t.timers.get? slot = some u) : s.Present u.owner := by
  cases h with
  | empty hslot =>
    rw [hslot] at hu
    cases hu
  | dropped =>
    have hfree := TimerPool.get?_free.symm.trans hu
    rw [if_pos rfl] at hfree
    cases hfree
  | waiting hslot hpresent =>
    cases hslot.symm.trans hu
    exact hpresent
  | putOff hslot hpresent =>
    have hput := (TimerPool.get?_put (TimerPool.lt_capacity_of_get? hslot)).symm.trans hu
    rw [if_pos rfl] at hput
    cases hput
    exact hpresent
  | fired hslot hpresent =>
    have hrearmed := (TimerPool.get?_afterRun hslot).symm.trans hu
    rw [if_pos rfl] at hrearmed
    rw [(Timer.rearm_alike hrearmed).owner]
    exact hpresent

/-- A look at a slot changes no timer that is not due and whose owner is present. -/
theorem get?_kept (h : s.Polls slot timer? t) (hi : s.timers.get? i = some u) (hpresent : s.Present u.owner)
    (hdue : u.isDue s.world.now = false) : t.timers.get? i = some u := by
  by_cases hslot : i = slot
  · subst hslot
    cases h with
    | empty | waiting => exact hi
    | dropped hheld hgone =>
      cases hheld.symm.trans hi
      exact absurd hpresent hgone
    | putOff hheld _ hnow | fired hheld _ hnow =>
      cases hheld.symm.trans hi
      rw [hdue] at hnow
      cases hnow
  · rw [h.get?_other hslot, hi]

end Session.Polls

namespace Moment

def Serving : Moment → Prop
  | between _ _ => True
  | running s slots l left => (running s slots l left).Present l.run.owner

/-- The timers in the slots that the tick has done with belong to owners who are present. -/
structure Tidy (m : Moment) : Prop where
  timers : ∀ i t, m.timers.get? i = some t → i ∉ m.slots → m.Present t.owner
  serving : m.Serving

theorem present_of_polls {s t : Session} {slot : Nat} {slots : List Nat} {timer? : Option Timer}
    (h : s.Polls slot timer? t) (hm : (between s (slot :: slots)).Tidy) {i : Nat} {u : Timer}
    (hi : t.timers.get? i = some u) (hdone : i ∉ slots) : s.Present u.owner := by
  by_cases hslot : i = slot
  · subst hslot
    exact h.present hi
  · rw [h.get?_other hslot] at hi
    exact hm.timers i u hi (List.not_mem_cons_of_ne_of_not_mem hslot hdone)

/-- A command sets timers only for the owner of its run, who is present. -/
theorem present_of_carryOut {s : Session} {slots : List Nat} {l next : Loop} {left : Nat} {word : String}
    {rest : List Char} {outcome : Outcome} (h : l.carryOut s.engine.commands word rest = (outcome, next))
    (hm : (running s slots l left).Tidy) {i : Nat} {u : Timer} (hi : next.run.timers.get? i = some u)
    (hdone : i ∉ slots) : (running s slots l left).Present u.owner := by
  rcases (stir_of_carryOut h).origin hi with ⟨t, ht, halike⟩ | ⟨r, q, horder, -, hplaced⟩
  · rw [halike.owner]
    exact hm.timers i t ht hdone
  · rw [Option.map_eq_some_iff] at horder
    obtain ⟨o, horder, ho⟩ := horder
    cases ho
    have howner := (Exec.timerDeed_place (TimerDeed.of_placed hplaced).1).2.1
    rw [(Exec.of_order horder).2] at howner
    rw [howner]
    exact hm.serving

theorem Worked.tidy {m next : Moment} {incident : Option Incident} (h : Worked m incident next)
    (hm : m.Tidy) : next.Tidy := by
  have habides := h.abides
  cases h with
  | looked h => exact ⟨fun i u hi hdone => habides.present (present_of_polls h hm hi hdone), trivial⟩
  | fired h hfound =>
    refine ⟨fun i u hi hdone => habides.present (present_of_polls h hm hi hdone), ?_⟩
    cases h with
    | fired _ hpresent => exact habides.present hpresent
  | @passed s slots l next left h =>
    have hrun := Loop.run_of_passed h
    constructor
    · intro i u hi hdone
      rw [timers, hrun] at hi
      exact habides.present (hm.timers i u hi hdone)
    · rw [Serving, hrun]
      exact habides.present hm.serving
  | ended =>
    refine ⟨fun i u hi hdone => ?_, trivial⟩
    rw [timers_afterRun] at hi
    exact habides.present (hm.timers i u hi hdone)
  | carried _ hcarry =>
    refine ⟨fun i u hi hdone => habides.present (present_of_carryOut hcarry hm hi hdone), ?_⟩
    rw [Serving, (Loop.effect_of_carryOut hcarry).keeps.owner]
    exact habides.present hm.serving
  | stopped _ hcarry =>
    refine ⟨fun i u hi hdone => ?_, trivial⟩
    rw [timers_afterRun] at hi
    exact habides.present (present_of_carryOut hcarry hm hi hdone)

/-- Timers come due in the order of the slots that the tick looks at, each slot at most once. -/
theorem Trail.firings_sublist {m last : Moment} {log : List Incident} (h : Trail Work m log last) :
    ((firings log).map Prod.fst).Sublist m.slots := by
  induction h with
  | nil => exact List.nil_sublist _
  | @cons m next last incident log hstep _ ih =>
    have hordered : ∀ order, ((firings ((Option.map Incident.ordered order).toList ++ log)).map
        Prod.fst).Sublist next.slots := by
      intro order
      rw [firings_append, firings_ordered]
      exact ih
    cases hstep.worked with
    | looked => exact ih.cons _
    | fired => exact ih.cons_cons _
    | passed | ended => exact ih
    | carried | stopped => exact hordered _

theorem get?_kept_of_carryOut {table : CommandTable} {l next : Loop} {word : String} {rest : List Char}
    {outcome : Outcome} (h : l.carryOut table word rest = (outcome, next)) {i : Nat} {t : Timer}
    (hi : l.run.timers.get? i = some t)
    (hkept : ∀ r, (Exec.order? table word (l.run.readTo rest)).map Incident.ordered = some (.ordered r) →
      (Exec.timerDeed r).removes t = false) :
    next.run.timers.get? i = some t := by
  rw [timers_of_carryOut h]
  cases horder : Exec.order? table word (l.run.readTo rest) with
  | none => exact hi
  | some o => exact TimerDeed.get?_apply_of_kept hi (hkept o (by rw [horder]; rfl))

/-- A step changes no timer that is not due, whose owner is present and that no command takes away. -/
theorem Worked.get?_kept {m next : Moment} {incident : Option Incident} (h : Worked m incident next)
    {i : Nat} {t : Timer} (hi : m.timers.get? i = some t) (hpresent : m.Present t.owner)
    (hdue : t.isDue m.world.now = false)
    (hkept : ∀ r, incident = some (.ordered r) → (Exec.timerDeed r).removes t = false) :
    next.timers.get? i = some t := by
  cases h with
  | looked h | fired h => exact h.get?_kept hi hpresent hdue
  | passed h =>
    rw [timers, Loop.run_of_passed h]
    exact hi
  | ended =>
    rw [timers_afterRun]
    exact hi
  | carried _ hcarry => exact get?_kept_of_carryOut hcarry hi hkept
  | stopped _ hcarry =>
    rw [timers_afterRun]
    exact get?_kept_of_carryOut hcarry hi hkept

theorem Trail.get?_kept {m last : Moment} {log : List Incident} (h : Trail Work m log last) {i : Nat}
    {t : Timer} (hi : m.timers.get? i = some t) (hpresent : m.Present t.owner)
    (hdue : t.isDue m.world.now = false)
    (hkept : ∀ r, .ordered r ∈ log → (Exec.timerDeed r).removes t = false) :
    last.timers.get? i = some t := by
  induction h with
  | nil => exact hi
  | cons hstep _ ih =>
    have habides := hstep.worked.abides
    refine ih (hstep.worked.get?_kept hi hpresent hdue fun r hr => hkept r ?_) (habides.present hpresent) ?_
      fun r hr => hkept r (List.mem_append_right _ hr)
    · rw [hr]
      exact List.mem_cons_self
    · rw [habides.world.now, hdue]

/-- The statement of a timer that came due begins as a run of its own, from where the timer says. -/
theorem Work.begins {m next : Moment} {slot : Nat} {t : Timer} (h : Work m (some (.fired slot t)) next) :
    ∃ s slots i, s.engine.instance? t.owner = some i ∧
      next = running s slots (.begin (s.startRun t.owner i.state t.script t.resumeAt []) .line)
        s.engine.config.maxSteps := by
  generalize hincident : some (Incident.fired slot t) = incident at h
  cases h.worked with
  | @fired s s' slot' slots timer i h hfound =>
    cases hincident
    exact ⟨s', slots, i, hfound, rfl⟩
  | looked | passed | ended => cases hincident
  | carried | stopped =>
    rw [eq_comm, Option.map_eq_some_iff] at hincident
    obtain ⟨o, -, ho⟩ := hincident
    cases ho

end Moment

open Moment in
/-- A tick is a trail of steps. On it timers come due in ascending order of their slots, and each begins
the run of its statement; the tick answers how many they are. In the end each timer that is left belongs
to an owner who is present. A timer that was not due, whose owner was present, and that no command
took away is as it was. -/
theorem Session.tick_orderly (s : Session) :
    ∃ log, Trail Work (between s (List.range s.timers.capacity)) log (between s.tick.2 []) ∧
      s.tick.1 = (firings log).length ∧ s.tick.1 ≤ s.timers.capacity ∧
      ((firings log).map Prod.fst).Pairwise (· < ·) ∧
      (∀ before slot t after, log = before ++ .fired slot t :: after →
        ∃ s' slots i, s'.engine.instance? t.owner = some i ∧
          let begun := running s' slots (.begin (s'.startRun t.owner i.state t.script t.resumeAt []) .line)
            s'.engine.config.maxSteps
          Trail Work (between s (List.range s.timers.capacity)) (before ++ [.fired slot t]) begun ∧
            Trail Work begun after (between s.tick.2 [])) ∧
      (∀ slot t, s.tick.2.timers.get? slot = some t → s.tick.2.Present t.owner) ∧
      ∀ slot t, s.timers.get? slot = some t → t.isDue s.world.now = false → s.Present t.owner →
        (∀ r, .ordered r ∈ log → (Exec.timerDeed r).removes t = false) →
        s.tick.2.timers.get? slot = some t := by
  obtain ⟨log, htrail, hcount⟩ := ticks s
  have hslots : ((firings log).map Prod.fst).Sublist (List.range s.timers.capacity) :=
    htrail.firings_sublist
  have htidy : (between s (List.range s.timers.capacity)).Tidy := by
    refine ⟨fun i t hi hdone => ?_, trivial⟩
    exact absurd (List.mem_range.2 (TimerPool.lt_capacity_of_get? hi)) hdone
  have hlast : (between s.tick.2 []).Tidy :=
    htrail.keeps (fun _ _ _ hstep => hstep.worked.tidy) htidy
  refine ⟨log, htrail, hcount, ?_, List.pairwise_lt_range.sublist hslots, ?_, ?_, ?_⟩
  · have hlength := hslots.length_le
    rw [List.length_map, List.length_range] at hlength
    rw [hcount]
    exact hlength
  · intro before slot t after hlog
    obtain ⟨m, next, hbefore, hfired, hafter⟩ := htrail.split hlog
    obtain ⟨s', slots, i, hfound, rfl⟩ := hfired.begins
    exact ⟨s', slots, i, hfound, hbefore.trans (.known hfired (.nil _)), hafter⟩
  · exact fun slot t hslot => hlast.timers slot t hslot List.not_mem_nil
  · exact fun slot t hslot hdue hpresent hkept => htrail.get?_kept hslot hpresent hdue hkept

end EntityScript
