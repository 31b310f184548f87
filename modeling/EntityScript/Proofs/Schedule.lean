import EntityScript.Proofs.Slots
import Mathlib.Data.List.Chain

/-! When a timer runs, and how often. A slot is looked at now and then, and between the looks the other slots
may change in any way. `Timer.Waits` says what has become of a timer after some runs; one look at it makes it
run or puts it off, and `Paced` carries this through all the looks. The times of the looks need not ascend:
that a period has passed is enough. -/

namespace EntityScript

namespace Timer

variable {t u : Timer} {n last now : Nat} {ownerIdle : Bool}

theorem isDue_iff (hsize : t.started + t.period < UInt64.size) : t.isDue now = true ↔ t.started + t.period ≤ now := by
  have hmin : min lastMoment (t.started + t.period) = t.started + t.period := by
    unfold lastMoment
    omega
  rw [isDue, hmin, decide_eq_true_eq]

/-- The last run leaves nothing, and every other one begins a new period. -/
theorem rearm_eq : t.rearm now = if t.times = 1 then none else some { t with times := t.times - 1, started := now } := by
  unfold rearm
  rcases htimes : t.times with _ | _ | n <;> simp

/-- What becomes of a timer `t` after `n` runs, the last of which was at `last`. -/
structure Waits (t u : Timer) (n last : Nat) : Prop where
  alike : t.Alike u
  times : u.times = t.times - n
  left : 0 < t.times → n < t.times
  began : last ≤ u.started
  /-- Only what waits for an idle owner is ever put off. -/
  prompt : t.idleOnly = false → u.started = last
  early : u.started + t.period < UInt64.size

namespace Waits

theorem refl (hsize : t.started + t.period < UInt64.size) : t.Waits t 0 t.started where
  alike := .refl t
  times := rfl
  left := id
  began := Nat.le_refl _
  prompt _ := rfl
  early := hsize

theorem isDue_iff (h : t.Waits u n last) : u.isDue now = true ↔ u.started + t.period ≤ now := by
  rw [← h.alike.period]
  apply Timer.isDue_iff
  rw [h.alike.period]
  exact h.early

theorem passed_of_runs (h : t.Waits u n last) (hruns : u.runs now ownerIdle = true) : last + t.period ≤ now := by
  simp only [runs, Bool.and_eq_true, h.isDue_iff] at hruns
  have hbegan := h.began
  omega

/-- It does run once the period has passed, unless it waits for its owner. -/
theorem runs_of_passed (h : t.Waits u n last) (hidle : t.idleOnly = false) (hpassed : last + t.period ≤ now) :
    u.runs now ownerIdle = true := by
  have hdue : u.isDue now = true := by
    rw [h.isDue_iff, h.prompt hidle]
    exact hpassed
  simp [runs, hdue, h.alike.idleOnly, hidle]

/-- One more run, and it was not the last. -/
theorem again (h : t.Waits u n last) (hearly : now + t.period < UInt64.size) {v : Timer} (hrearm : u.rearm now = some v) :
    t.Waits v (n + 1) now := by
  rw [rearm_eq] at hrearm
  split at hrearm
  · cases hrearm
  · rename_i hone
    cases hrearm
    -- without end there is nothing to count, and otherwise this was not the last run because of `hone`
    have htimes := h.times
    refine ⟨h.alike.trans rfl, ?_, fun hpos => ?_, Nat.le_refl _, fun _ => rfl, hearly⟩
    · simp only
      omega
    · have hleft := h.left hpos
      omega

/-- The last of its runs. -/
theorem ended (h : t.Waits u n last) (hrearm : u.rearm now = none) : 0 < t.times ∧ n + 1 = t.times := by
  rw [rearm_eq] at hrearm
  split at hrearm
  · have htimes := h.times
    omega
  · cases hrearm

/-- It does not run, and goes on waiting. -/
theorem postponed (h : t.Waits u n last) (hearly : now + t.period < UInt64.size)
    (hruns : u.runs now ownerIdle = false) : ∃ v, u.looked now ownerIdle = some v ∧ t.Waits v n last := by
  rw [looked, hruns, if_neg Bool.false_ne_true]
  split
  · rename_i hdue
    have hbusy : u.idleOnly = true := by
      simp [runs, hdue] at hruns
      exact hruns.1
    have hbegan := h.began
    have hpassed := h.isDue_iff.1 hdue
    refine ⟨_, rfl, h.alike.trans rfl, h.times, h.left, ?_, fun hidle => ?_, hearly⟩
    · simp only
      omega
    · rw [← h.alike.idleOnly, hbusy] at hidle
      cases hidle
  · exact ⟨u, rfl, h⟩

end Waits

end Timer

/-- A look at a slot: when it was, whether the owner was idle then, and the timer that ran. -/
structure Look where
  now : Nat
  ownerIdle : Bool
  ran : Option Timer

namespace Look

def firedAt (looks : List Look) : List Nat := (looks.filter (·.ran.isSome)).map (·.now)

theorem firedAt_concat (looks : List Look) (look : Look) :
    firedAt (looks ++ [look]) = firedAt looks ++ if look.ran.isSome then [look.now] else [] := by
  unfold firedAt
  rcases hran : look.ran with _ | u <;> simp [hran]

end Look

open Look (firedAt firedAt_concat)

/-- The looks so far, and what the slot holds by now, as they are to be for the timer `t` that it held first. -/
structure Paced (t : Timer) (looks : List Look) (held : Option Timer) : Prop where
  apart : (t.started :: firedAt looks).IsChain (· + t.period ≤ ·)
  ran : ∀ look ∈ looks, ∀ u, look.ran = some u → t.Alike u
  gone : held = none → 0 < t.times ∧ (firedAt looks).length = t.times
  waits : ∀ u, held = some u → t.Waits u (firedAt looks).length ((firedAt looks).getLastD t.started)

namespace Paced

variable {t u : Timer} {looks : List Look} {held : Option Timer} {now : Nat} {ownerIdle : Bool}

theorem start (hsize : t.started + t.period < UInt64.size) : Paced t [] (some t) where
  apart := .singleton _
  ran look hlook := by simp at hlook
  gone hnone := by cases hnone
  waits u hu := by
    cases hu
    exact .refl hsize

/-- A look at which nothing runs leaves everything to what the slot holds afterwards. -/
theorem quiet (h : Paced t looks held) {held' : Option Timer} (hgone : held' = none → held = none)
    (hwaits : ∀ u, held' = some u → t.Waits u (firedAt looks).length ((firedAt looks).getLastD t.started)) :
    Paced t (looks ++ [⟨now, ownerIdle, none⟩]) held' := by
  have hfired : firedAt (looks ++ [⟨now, ownerIdle, none⟩]) = firedAt looks := by
    simp [firedAt_concat]
  refine ⟨?_, fun look hlook u hran => ?_, ?_, ?_⟩
  · rw [hfired]
    exact h.apart
  · rcases List.mem_append.1 hlook with hlook | hlook
    · exact h.ran look hlook u hran
    · rw [List.mem_singleton.1 hlook] at hran
      cases hran
  · rw [hfired]
    intro hnone
    exact h.gone (hgone hnone)
  · rw [hfired]
    exact hwaits

/-- The timer runs when it is looked at. -/
theorem runs (h : Paced t looks (some u)) (hearly : now + t.period < UInt64.size)
    (hruns : u.runs now ownerIdle = true) :
    Paced t (looks ++ [⟨now, ownerIdle, some u⟩]) (u.rearm now) := by
  have hwaits := h.waits u rfl
  have hfired : firedAt (looks ++ [⟨now, ownerIdle, some u⟩]) = firedAt looks ++ [now] := by
    simp [firedAt_concat]
  refine ⟨?_, fun look hlook v hran => ?_, fun hnone => ?_, fun v hv => ?_⟩
  · rw [hfired, ← List.cons_append, List.isChain_append]
    refine ⟨h.apart, .singleton _, fun a ha b hb => ?_⟩
    have hlast := hwaits.passed_of_runs hruns
    rw [List.getLast?_cons, Option.mem_some_iff, ← List.getLastD_eq_getLast?] at ha
    simp only [List.head?_cons, Option.mem_some_iff] at hb
    rw [← ha, ← hb]
    exact hlast
  · rcases List.mem_append.1 hlook with hlook | hlook
    · exact h.ran look hlook v hran
    · rw [List.mem_singleton.1 hlook] at hran
      cases hran
      exact hwaits.alike
  · rw [hfired, List.length_append]
    exact hwaits.ended hnone
  · rw [hfired, List.length_append, List.getLastD_concat]
    exact hwaits.again hearly hv

/-- One look at the slot. -/
theorem look (h : Paced t looks held) (hearly : now + t.period < UInt64.size) :
    Paced t (looks ++ [⟨now, ownerIdle, held.filter (·.runs now ownerIdle)⟩]) (held.bind (·.looked now ownerIdle)) := by
  rcases held with _ | u
  · exact h.quiet id fun u hu => nomatch hu
  · rcases hruns : u.runs now ownerIdle with _ | _
    · obtain ⟨v, hlooked, hv⟩ := (h.waits u rfl).postponed hearly hruns
      simp only [Option.filter, hruns, Option.bind_some, hlooked]
      refine h.quiet (fun hnone => nomatch hnone) fun w hw => ?_
      cases hw
      exact hv
    · simp only [Option.filter, hruns, Option.bind_some, Timer.looked, if_true]
      exact h.runs hearly hruns

end Paced

/-- What becomes of a pool while one slot of it is looked at. -/
inductive Watched (slot : Nat) (p : TimerPool) : List Look → TimerPool → Prop
  | nil : Watched slot p [] p
  | look {q : TimerPool} {looks : List Look} (h : Watched slot p looks q) (now : Nat) (ownerIdle : Bool) :
    Watched slot p (looks ++ [⟨now, ownerIdle, (q.poll slot now ownerIdle).1⟩]) (q.poll slot now ownerIdle).2
  /-- Whatever else is done to the pool leaves the slot alone. -/
  | aside {q q' : TimerPool} {looks : List Look} (h : Watched slot p looks q)
    (hslot : q'.get? slot = q.get? slot) : Watched slot p looks q'

namespace Watched

variable {slot : Nat} {p q : TimerPool} {looks : List Look} {t : Timer}

theorem paced (h : Watched slot p looks q) (ht : p.get? slot = some t)
    (hstart : t.started + t.period < UInt64.size) (hlooks : ∀ look ∈ looks, look.now + t.period < UInt64.size) :
    Paced t looks (q.get? slot) := by
  induction h with
  | nil =>
    rw [ht]
    exact .start hstart
  | look h now ownerIdle ih =>
    rw [TimerPool.poll_ran, TimerPool.get?_poll, if_pos rfl]
    refine Paced.look (ih fun look hlook => ?_) ?_
    · exact hlooks look (List.mem_append_left _ hlook)
    · exact hlooks _ (List.mem_append_right _ (List.mem_singleton.2 rfl))
  | aside h hslot ih =>
    rw [hslot]
    exact ih hlooks

/-- A timer runs only when its period has passed since its last run, or since it was set, and then it does run,
unless it waits for its owner to be idle. It runs as often as it was set to, each run taking one off what is
left, and it leaves its slot with the last one; a timer without end stays. -/
theorem on_schedule (h : Watched slot p looks q) (ht : p.get? slot = some t)
    (hstart : t.started + t.period < UInt64.size) (hlooks : ∀ look ∈ looks, look.now + t.period < UInt64.size) :
    (t.started :: firedAt looks).IsChain (· + t.period ≤ ·) ∧
      (∀ look ∈ looks, ∀ u, look.ran = some u → t.Alike u) ∧
      (0 < t.times → (firedAt looks).length ≤ t.times) ∧
      (q.get? slot = none ↔ 0 < t.times ∧ (firedAt looks).length = t.times) ∧
      (∀ u, q.get? slot = some u → t.Alike u ∧ u.times = t.times - (firedAt looks).length) ∧
      (t.idleOnly = false → (q.get? slot).isSome = true →
        ∀ now ownerIdle, (firedAt looks).getLastD t.started + t.period ≤ now →
          (q.poll slot now ownerIdle).1.isSome = true) := by
  have hpaced := h.paced ht hstart hlooks
  refine ⟨hpaced.apart, hpaced.ran, fun hpos => ?_, ⟨hpaced.gone, fun hdone => ?_⟩, fun u hu => ?_,
    fun hidle hsome now ownerIdle hpassed => ?_⟩
  · rcases hheld : q.get? slot with _ | u
    · exact (hpaced.gone hheld).2.le
    · exact ((hpaced.waits u hheld).left hpos).le
  · rcases hheld : q.get? slot with _ | u
    · rfl
    · -- a timer that is still there has a run left
      have hleft := (hpaced.waits u hheld).left hdone.1
      omega
  · have hwaits := hpaced.waits u hu
    exact ⟨hwaits.alike, hwaits.times⟩
  · obtain ⟨u, hu⟩ := Option.isSome_iff_exists.1 hsome
    have hruns : u.runs now ownerIdle = true := (hpaced.waits u hu).runs_of_passed hidle hpassed
    rw [TimerPool.poll_ran, hu]
    simp [Option.filter, hruns]

def chime : Timer where
  name := "chime"
  script := .ofText "belfry" "nop"
  owner := none
  times := 2
  period := 100
  resumeAt := 0
  started := 0
  idleOnly := false

def belfry : TimerPool := ⟨#[some { chime with name := "bell" }, some chime], 2⟩

/-- The bell is taken away between the strokes. -/
theorem on_schedule_chime :
    ∃ looks q, Watched 1 belfry looks q ∧ belfry.get? 1 = some chime ∧
      chime.started + chime.period < UInt64.size ∧ (∀ look ∈ looks, look.now + chime.period < UInt64.size) ∧
      firedAt looks = [120, 230] ∧ q.get? 1 = none := by
  have hheard : Watched 1 belfry _ _ := (Watched.nil.look 50 true).look 120 true
  have hfreed : Watched 1 belfry _ (TimerPool.free _ 0) :=
    hheard.aside (TimerPool.get?_free.trans (if_neg (by decide)))
  have hdone := hfreed.look 230 true
  have hslot : belfry.get? 1 = some chime := rfl
  generalize hlooks : _ ++ [_] = looks at hdone
  have hearly : ∀ look ∈ looks, look.now + chime.period < UInt64.size := by
    simp [← hlooks, chime, UInt64.size]
  have hfired : firedAt looks = [120, 230] := by
    rw [← hlooks]
    decide +kernel
  obtain ⟨-, -, -, hgone, -⟩ := on_schedule hdone hslot (by decide) hearly
  refine ⟨looks, _, hdone, hslot, by decide, hearly, hfired, hgone.2 ⟨by decide, ?_⟩⟩
  rw [hfired]
  rfl

end Watched

end EntityScript
