import EntityScript.Proofs.Stirs

/-! Timers that are cancelled. A cancel empties the slots of all timers it is about and touches no
other slot, so none of them is left to come due, not even in the tick that is under way. What comes
due later under their name and owner has been set later. -/

namespace EntityScript

inductive Incident.Cancels : Incident → (Timer → Prop) → Prop
  | off {r : Run} (h : (Exec.timerVerb r).1 = "off") :
    Cancels (.ordered r) fun t => t.hasKey (Exec.timerName r) r.owner = true
  | killLocal {r : Run} (h : (Exec.timerVerb r).1 = "kill_local") :
    Cancels (.ordered r) fun t => t.owner = r.owner
  | detached (id : EntityId) : Cancels (.detached id) fun t => t.owner = some id

theorem TimerPool.get?_clearWhere_iff {p : TimerPool} {unwanted : Timer → Bool} {i : Nat} {t : Timer} :
    (p.clearWhere unwanted).2.get? i = some t ↔ p.get? i = some t ∧ ¬unwanted t = true := by
  rw [get?_clearWhere, Option.filter_eq_some_iff, Bool.not_eq_true', Bool.not_eq_true]

namespace Incident.Cancels

variable {incident : Incident} {cancelled : Timer → Prop} {t u : Timer} {p q : TimerPool} {i : Nat}

/-- Whether a timer is cancelled is a matter of its name and owner. -/
theorem alike (h : incident.Cancels cancelled) (halike : t.Alike u) : cancelled u ↔ cancelled t := by
  cases h with
  | off => exact Eq.to_iff (congrArg (· = true) (halike.hasKey _ _))
  | killLocal | detached => exact Eq.to_iff (congrArg (· = _) halike.owner)

/-- A cancel takes away the timers that are cancelled, and leaves the others where they are. -/
theorem get?_iff (h : incident.Cancels cancelled) (hstir : Stir p (some incident) q) :
    q.get? i = some t ↔ p.get? i = some t ∧ ¬cancelled t := by
  cases h with
  | off hverb =>
    cases hstir
    rw [Exec.timerDeed_of_off hverb, TimerDeed.apply_of_none rfl]
    exact TimerPool.get?_clearWhere_iff
  | killLocal hverb =>
    cases hstir
    rw [Exec.timerDeed_of_killLocal hverb, TimerDeed.apply_of_none rfl, TimerDeed.cleared,
      TimerPool.get?_clearWhere_iff, TimerDeed.removes, beq_iff_eq]
  | detached id =>
    cases hstir
    rw [TimerPool.clearOwner, TimerPool.get?_clearWhere_iff, beq_iff_eq]

end Incident.Cancels

namespace Moment

/-- In every history, a cancel frees the slots of the timers that are cancelled, and changes no other
slot. If a timer of their kind comes due in any later visit of a slot, a timer command of its owner
has set it after the cancel and before that visit. -/
theorem cancelled_stay_silent {m next last : Moment} {cancel : Incident} {cancelled : Timer → Prop}
    {log : List Incident} (hcancels : cancel.Cancels cancelled) (hstep : Step m (some cancel) next)
    (hpath : Path next log last) :
    (∀ i t, next.timers.get? i = some t ↔ m.timers.get? i = some t ∧ ¬cancelled t) ∧
      ∀ before after slot t, log = before ++ .fired slot t :: after → cancelled t →
        ∃ r u q, .ordered r ∈ before ∧ (Exec.timerDeed r).placed? r.timers = some (slot, u, q) ∧
          r.owner = t.owner ∧ u.Alike t := by
  have hcleared : ∀ i t, next.timers.get? i = some t ↔ m.timers.get? i = some t ∧ ¬cancelled t :=
    fun i t => hcancels.get?_iff hstep.stirs
  refine ⟨hcleared, fun before after slot t hlog hcancelled => ?_⟩
  obtain ⟨visited, fired, hbefore, hfired, -⟩ := hpath.split hlog
  rcases Path.origin hbefore hfired.stirs.held with ⟨u, hu, halike⟩ | ⟨r, u, q, hr, hplaced, halike⟩
  · -- it cannot have been there since the cancel
    have hkept : ¬cancelled u := ((hcleared slot u).1 hu).2
    exact absurd ((hcancels.alike halike).1 hcancelled) hkept
  · have howner : u.owner = r.owner := (Exec.timerDeed_place (TimerDeed.of_placed hplaced).1).2.1
    exact ⟨r, u, q, hr, hplaced, (halike.owner.trans howner).symm, halike⟩

end Moment

def alarm (id : EntityId) : Timer where
  name := "alarm"
  script := Script.ofText "alarm" "nop"
  owner := some id
  times := 0
  period := 0
  resumeAt := 0
  started := 0
  idleOnly := false

def alarms : Session where
  engine :=
    { config := {}
      commands := {}
      shared :=
        { globals := .withCapacity 0
          timers := ⟨#[some (alarm 1), some (alarm 2)], 2⟩
          random := .ofSeed 0
          maxCallDepth := 0 }
      instances := ((Dict.empty.set 1 ⟨Script.ofText "alarm" "nop", .fresh 0, none⟩).set 2
        ⟨Script.ofText "alarm" "nop", .fresh 0, none⟩) }
  world :=
    { entities := ((Registry.empty.spawn fun id => { id, name := "a", kinds := .npc }).2.spawn
        fun id => { id, name := "b", kinds := .npc }).2 }

def alarmsLeft : Session := alarms.after (.detach 1)

theorem alarmsLeft_first : alarmsLeft.pollSlot 0 = (none, alarmsLeft) := by
  have hslot : alarmsLeft.timers.get? 0 = none := Option.isNone_iff_eq_none.1 (by decide +kernel)
  rw [Session.pollSlot, hslot]

theorem alarmsLeft_second : (alarmsLeft.pollSlot 1).1 = some (alarm 2) := by
  have hslot : alarmsLeft.timers.get? 1 = some (alarm 2) :=
    TimerPool.get?_clearWhere_iff.2 ⟨rfl, by decide⟩
  have hpresent : alarmsLeft.objection? (alarm 2) = none := by decide
  rw [Session.pollSlot, hslot]
  dsimp only
  rw [hpresent]
  dsimp only
  rw [TimerPool.poll_due hslot (by decide) (by decide)]

/-- After the first entity is detached, a tick finds the alarm of the second one only. -/
theorem cancelled_stay_silent_alarms :
    Moment.Path (.between alarmsLeft []) [.fired 1 (alarm 2)]
        (Moment.onFiring (alarmsLeft.pollSlot 1).2 [] (alarm 2)) ∧
      (Moment.between alarmsLeft []).timers.get? 0 = none ∧
      (Moment.between alarmsLeft []).timers.get? 1 = some (alarm 2) := by
  have hempty : Moment.Work (.between alarmsLeft [0, 1]) none (.between alarmsLeft [1]) := by
    rw [Moment.Work, Moment.work, alarmsLeft_first]
  have hfired : Moment.Work (.between alarmsLeft [1]) (some (.fired 1 (alarm 2)))
      (Moment.onFiring (alarmsLeft.pollSlot 1).2 [] (alarm 2)) := by
    rw [Moment.Work, Moment.work, ← Prod.eta (alarmsLeft.pollSlot 1), alarmsLeft_second]
  have hslots : List.range alarmsLeft.timers.capacity = [0, 1] := by decide +kernel
  have hticked : Moment.Step (.between alarmsLeft []) none (.between alarmsLeft [0, 1]) := by
    rw [← hslots]
    exact .ticked alarmsLeft
  have hpath : Moment.Path (.between alarmsLeft []) [.fired 1 (alarm 2)]
      (Moment.onFiring (alarmsLeft.pollSlot 1).2 [] (alarm 2)) :=
    .quiet hticked (.quiet (.worked hempty) (.known (.worked hfired) (.nil _)))
  obtain ⟨hcleared, -⟩ := Moment.cancelled_stay_silent (.detached 1) (.detached alarms 1) hpath
  refine ⟨hpath, ?_, (hcleared 1 (alarm 2)).2 ⟨rfl, ?_⟩⟩
  · cases hslot : (Moment.between (alarms.after (.detach 1)) []).timers.get? 0 with
    | none => exact hslot
    | some t =>
      obtain ⟨hheld, hother⟩ := (hcleared 0 t).1 hslot
      cases hheld
      exact absurd rfl hother
  · intro howner
    exact absurd (Option.some.inj howner) (by decide)

end EntityScript
