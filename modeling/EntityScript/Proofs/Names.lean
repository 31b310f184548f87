import EntityScript.Proofs.Pool
import Mathlib.Data.List.Nodup
import Mathlib.Data.List.Perm.Subperm
import Mathlib.Order.Bounds.Basic

/-! Names for timers without a name. The search for a free one tries the numbered names one after another and
has no bound of its own. Two numbers never make the same name, so that a pool takes at most as many of them as
it has timers, and the search ends at the first name that it does not take. -/

namespace EntityScript

namespace TimerPool

variable {p : TimerPool} {t : Timer} {k n : Nat}

theorem mem_timers_iff : t ∈ p.timers ↔ ∃ slot, p.get? slot = some t := by
  simp [timers, List.mem_filterMap, ← mem_slots_iff]

theorem length_timers : p.timers.length = p.slots.countP (·.isSome) := by
  rw [timers, List.length_filterMap_eq_countP, ← Array.countP_toList]
  rfl

theorem isTaken_eq_false_iff {name : String} :
    p.isTaken name = false ↔ ∀ slot t, p.get? slot = some t → t.name ≠ name := by
  rw [← Bool.not_eq_true, isTaken_iff]
  simp only [mem_timers_iff, not_exists, not_and, forall_exists_index, ne_eq]
  exact forall_comm

/-- The numbers from `k` on whose names no timer has. -/
def freeFrom (p : TimerPool) (k : Nat) : Set Nat :=
  {n | k ≤ n ∧ ∀ slot t, p.get? slot = some t → t.name ≠ numberedName n}

theorem freeFrom_of_taken (h : p.isTaken (numberedName k) = true) : p.freeFrom k = p.freeFrom (k + 1) := by
  ext n
  refine and_congr_left fun hfree => ⟨fun hle => Nat.lt_of_le_of_ne hle ?_, Nat.le_of_succ_le⟩
  rintro rfl
  rw [isTaken_eq_false_iff.2 hfree] at h
  cases h

/-- The search goes on to the first number whose name is free. -/
theorem isLeast_firstFree (p : TimerPool) (k : Nat) : IsLeast (p.freeFrom k) (p.firstFree k) := by
  fun_induction p.firstFree k with
  | case1 k htaken ih =>
    rw [freeFrom_of_taken htaken]
    exact ih
  | case2 k hfree =>
    refine ⟨⟨Nat.le_refl k, ?_⟩, fun n hn => hn.1⟩
    exact isTaken_eq_false_iff.1 (Bool.not_eq_true _ ▸ hfree)

/-- The timers are too few to take all of the first `active + 1` names. -/
theorem exists_free_name (h : p.Counted) : ∃ n ≤ p.active, p.isTaken (numberedName n) = false := by
  by_contra hnone
  push Not at hnone
  have hsubset : (List.range (p.active + 1)).map numberedName ⊆ p.timers.map (·.name) := by
    intro name hmem
    obtain ⟨n, hn, rfl⟩ := List.mem_map.1 hmem
    have htaken := hnone n (Nat.lt_succ_iff.1 (List.mem_range.1 hn))
    exact List.mem_map.2 (isTaken_iff.1 (Bool.ne_false_iff.1 htaken))
  have hnodup : ((List.range (p.active + 1)).map numberedName).Nodup :=
    List.nodup_range.map fun _ _ => numberedName_injective
  have hle := (hnodup.subperm hsubset).length_le
  rw [List.length_map, List.length_map, List.length_range, length_timers, ← h] at hle
  omega

theorem firstFree_le_active (h : p.Counted) : p.firstFree 0 ≤ p.active := by
  obtain ⟨n, hn, hfree⟩ := exists_free_name h
  exact ((isLeast_firstFree p 0).2 ⟨Nat.zero_le n, isTaken_eq_false_iff.1 hfree⟩).trans hn

/-- No timer has the name that a timer without a name is given. -/
theorem name_ne_freshName {slot : Nat} (hget : p.get? slot = some t) : t.name ≠ p.freshName :=
  (isLeast_firstFree p 0).1.2 slot t hget

/-- The search for a name stops at one of the first `active + 1` candidates. It gives the numbered name with the
least number that no timer has, whoever the timers belong to and whatever they are called. -/
theorem freshName_found (h : p.Counted) :
    ∃ n < p.active + 1, p.firstFree 0 = n ∧ p.freshName = numberedName n ∧
      IsLeast {n | ∀ slot t, p.get? slot = some t → t.name ≠ numberedName n} n := by
  have hleast := isLeast_firstFree p 0
  refine ⟨p.firstFree 0, Nat.lt_succ_of_le (firstFree_le_active h), rfl, rfl, hleast.1.2, fun n hn => ?_⟩
  exact hleast.2 ⟨Nat.zero_le n, hn⟩

def tag (name : String) (owner : Option EntityId) : Timer where
  name := name
  script := .ofText "tag" "nop"
  owner := owner
  times := 0
  period := 0
  resumeAt := 0
  started := 0
  idleOnly := false

def cloakroom : TimerPool where
  slots := #[some (tag "timer_1" none), some (tag "timer_0" (some 1)), none, some (tag "timer_02" (some 1)),
    some (tag "timer_0" (some 2)), some (tag "timer_3" (some 1))]
  active := 5

theorem freshName_found_cloakroom : cloakroom.Counted ∧ cloakroom.freshName = "timer_2" := by
  have hcounted : cloakroom.Counted := by
    unfold Counted
    decide
  obtain ⟨n, -, hsearch, hname, -⟩ := freshName_found hcounted
  -- timers 0 and 1 are there, and 2 is not
  rw [firstFree, if_pos (by decide +kernel), firstFree, if_pos (by decide +kernel), firstFree,
    if_neg (by decide +kernel)] at hsearch
  cases hsearch
  exact ⟨hcounted, hname⟩

end TimerPool

end EntityScript
