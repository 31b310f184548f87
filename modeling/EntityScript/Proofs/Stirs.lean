import EntityScript.Proofs.Moments

/-! What the steps of a history do to the pool of timers, slot by slot. A timer stays in its slot, and
in all but its count and its clock it is the one that was put there: so for each timer that is there
or comes due, `Path.origin` finds the command that set it. -/

namespace EntityScript

/-- What a step may do to the pool. -/
inductive Stir : TimerPool → Option Incident → TimerPool → Prop
  | nothing (p : TimerPool) : Stir p none p
  | ordered (r : Run) : Stir r.timers (some (.ordered r)) ((Exec.timerDeed r).apply r.timers)
  | detached (p : TimerPool) (id : EntityId) : Stir p (some (.detached id)) (p.clearOwner (some id)).2
  | dropped (p : TimerPool) (slot : Nat) : Stir p none (p.free slot)
  | putOff {p : TimerPool} {slot : Nat} {t : Timer} (h : p.get? slot = some t) (now : Nat) :
    Stir p none (p.put slot (some { t with started := now }) p.active)
  | fired {p : TimerPool} {slot : Nat} {t : Timer} (h : p.get? slot = some t) (now : Nat) :
    Stir p (some (.fired slot t)) (p.afterRun slot t now)

namespace Stir

variable {p q : TimerPool} {incident : Option Incident} {i : Nat} {t u : Timer}

theorem capacity (h : Stir p incident q) : q.capacity = p.capacity := by
  cases h with
  | nothing => rfl
  | ordered r => exact TimerDeed.capacity_apply
  | detached id => exact TimerPool.capacity_clearWhere _
  | dropped slot => exact TimerPool.capacity_free
  | putOff => exact TimerPool.capacity_put _ _
  | fired => exact TimerPool.capacity_afterRun

theorem counted (h : Stir p incident q) (hp : p.Counted) : q.Counted := by
  cases h with
  | nothing => exact hp
  | ordered r => exact TimerDeed.counted_apply hp
  | detached id => exact TimerPool.counted_clearWhere _ hp
  | dropped slot => exact TimerPool.counted_free hp
  | putOff h now => exact TimerPool.counted_rewrite h hp _
  | fired h now => exact TimerPool.counted_afterRun h hp

/-- A timer in a slot was there before the step, or the step has put it there. -/
theorem origin (h : Stir p incident q) (hi : q.get? i = some u) :
    (∃ t, p.get? i = some t ∧ t.Alike u) ∨
      ∃ r q', incident = some (.ordered r) ∧ r.timers = p ∧
        (Exec.timerDeed r).placed? p = some (i, u, q') := by
  cases h with
  | nothing => exact .inl ⟨u, hi, .refl u⟩
  | ordered r =>
    rcases TimerDeed.of_get?_apply hi with ⟨hkept, -⟩ | ⟨q', hplaced⟩
    · exact .inl ⟨u, hkept, .refl u⟩
    · exact .inr ⟨r, q', rfl, rfl, hplaced⟩
  | detached id => exact .inl ⟨u, (TimerPool.get?_of_clearWhere _ hi).1, .refl u⟩
  | dropped slot =>
    rw [TimerPool.get?_free] at hi
    split at hi
    · cases hi
    · exact .inl ⟨u, hi, .refl u⟩
  | putOff hheld now =>
    rw [TimerPool.get?_put (TimerPool.lt_capacity_of_get? hheld)] at hi
    split at hi
    · rename_i hslot
      cases hi
      exact .inl ⟨_, hslot ▸ hheld, rfl⟩
    · exact .inl ⟨u, hi, .refl u⟩
  | fired hheld now =>
    rw [TimerPool.get?_afterRun hheld] at hi
    split at hi
    · rename_i hslot
      exact .inl ⟨_, hslot ▸ hheld, Timer.rearm_alike hi⟩
    · exact .inl ⟨u, hi, .refl u⟩

/-- A timer comes due in its slot, where it was. -/
theorem held {slot : Nat} (h : Stir p (some (.fired slot t)) q) : p.get? slot = some t := by
  cases h with
  | fired hheld => exact hheld

end Stir

theorem Session.timers_finishRun (s : Session) (owner : Option EntityId) (r : Run) :
    (s.finishRun owner r).timers = r.timers :=
  congrArg Shared.timers (s.engine_finishRun owner r).2.2

namespace Moment

/-- The pool as it is now. A run has it while it is on its way. -/
def timers : Moment → TimerPool
  | between s _ => s.timers
  | running _ _ l _ => l.run.timers

theorem timers_afterRun (s : Session) (slots : List Nat) (r : Run) : (afterRun s slots r).timers = r.timers :=
  s.timers_finishRun r.owner r

section

variable {table : CommandTable} {l next : Loop} {word : String} {rest : List Char} {outcome : Outcome}
  (h : l.carryOut table word rest = (outcome, next))
include h

theorem timers_of_carryOut :
    next.run.timers =
      match Exec.order? table word (l.run.readTo rest) with
      | some o => (Exec.timerDeed o).apply l.run.timers
      | none => l.run.timers := by
  have hword : ((Exec.runWord table word).run (l.run.readTo rest)).2 = next.run :=
    congrArg (·.2.run) h
  have htimers := Exec.runWord_timers table word (l.run.readTo rest)
  rw [hword] at htimers
  rw [htimers]
  cases horder : Exec.order? table word (l.run.readTo rest) with
  | none => rfl
  | some o =>
    obtain ⟨-, rfl⟩ := Exec.of_order horder
    rfl

theorem stir_of_carryOut :
    Stir l.run.timers ((Exec.order? table word (l.run.readTo rest)).map .ordered) next.run.timers := by
  rw [timers_of_carryOut h]
  cases horder : Exec.order? table word (l.run.readTo rest) with
  | none => exact .nothing _
  | some o =>
    have htimers : o.timers = l.run.timers := by
      rw [(Exec.of_order horder).2]
      rfl
    dsimp only
    rw [← htimers]
    exact .ordered o

end

theorem Worked.stirs {m next : Moment} {incident : Option Incident} (h : Worked m incident next) :
    Stir m.timers incident next.timers := by
  cases h with
  | @looked s t slot slots h =>
    cases h with
    | empty | waiting => exact .nothing _
    | dropped => exact .dropped s.timers slot
    | putOff hslot => exact .putOff hslot _
  | fired h =>
    cases h with
    | fired hslot => exact .fired hslot _
  | @passed s slots l next left h =>
    have hrun : next.run.timers = l.run.timers := by
      rw [Loop.run_of_passed h]
      rfl
    rw [timers, timers, hrun]
    exact .nothing _
  | ended =>
    rw [timers_afterRun]
    exact .nothing _
  | carried _ hcarry => exact stir_of_carryOut hcarry
  | stopped _ hcarry =>
    rw [timers_afterRun]
    exact stir_of_carryOut hcarry

theorem Step.stirs {m next : Moment} {incident : Option Incident} (h : Step m incident next) :
    Stir m.timers incident next.timers := by
  cases h with
  | @aside s t h =>
    have htimers : t.timers = s.timers := by
      rw [Session.timers, h]
      rfl
    rw [timers, timers, htimers]
    exact .nothing _
  | attached | globalSet | sent | ticked => exact .nothing _
  | detached s id => exact .detached _ id
  | linked s id master =>
    have htimers : (s.after (.setMaster id master)).timers = s.timers := by
      rw [Session.after, Session.timers]
      unfold Engine.setMaster
      split_ifs <;> rfl
    rw [timers, timers, htimers]
    exact .nothing _
  | worked h => exact h.worked.stirs

/-- A timer that is in a slot was there in the beginning, or a command has put it there since. -/
theorem Path.origin {m last : Moment} {log : List Incident} (h : Path m log last) {i : Nat} {u : Timer}
    (hi : last.timers.get? i = some u) :
    (∃ t, m.timers.get? i = some t ∧ t.Alike u) ∨
      ∃ r t q, .ordered r ∈ log ∧ (Exec.timerDeed r).placed? r.timers = some (i, t, q) ∧ t.Alike u := by
  induction h with
  | nil => exact .inl ⟨u, hi, .refl u⟩
  | @cons m next last incident log hstep _ ih =>
    rcases ih hi with ⟨t, ht, halike⟩ | ⟨r, t, q, hr, hplaced, halike⟩
    · rcases hstep.stirs.origin ht with ⟨t', ht', halike'⟩ | ⟨r, q, hr, hpool, hplaced⟩
      · exact .inl ⟨t', ht', halike'.trans halike⟩
      · rw [hr]
        exact .inr ⟨r, t, q, List.mem_cons_self, hpool ▸ hplaced, halike⟩
    · exact .inr ⟨r, t, q, List.mem_append_right _ hr, hplaced, halike⟩

end Moment

end EntityScript
