import EntityScript.Proofs.Pool
import EntityScript.Session

/-! More room. `widen` gives what the limits hold more room and leaves all that is in it: a pool gets free
slots behind those it has, and tables and the stack of calls may grow further. Reading does not see the
difference, and an operation that succeeds does the same with more room. So only what reports that a limit
is reached can tell; the journals without such reports are `Unlimited`. -/

namespace EntityScript

structure Room where
  timers : Nat
  globals : Nat
  locals : Nat
  calls : Nat
  steps : Nat

def Failure.OfLimit : Failure → Prop
  | tableFull .. | noFreeTimer _ | callsTooDeep _ | outOfSteps _ => True
  | _ => False

def Diagnostic.OfLimit : Diagnostic → Prop
  | failed failure => failure.OfLimit
  | _ => False

def Note.OfLimit : Note → Prop
  | refused failure => failure.OfLimit
  | _ => False

namespace Journal

structure Unlimited (j : Journal) : Prop where
  diagnostics : ∀ d ∈ j.diagnostics, ¬d.OfLimit
  notes : ∀ n ∈ j.notes, ¬n.OfLimit

theorem Unlimited.of_empty {j : Journal} (hdiagnostics : j.diagnostics = #[]) (hnotes : j.notes = #[]) :
    j.Unlimited where
  diagnostics d h := absurd (hdiagnostics ▸ h) (Array.not_mem_empty d)
  notes n h := absurd (hnotes ▸ h) (Array.not_mem_empty n)

theorem unlimited_report {j : Journal} {d : Diagnostic} :
    Unlimited { j with diagnostics := j.diagnostics.push d } ↔ j.Unlimited ∧ ¬d.OfLimit := by
  constructor
  · intro h
    exact ⟨⟨fun e he => h.diagnostics e (Array.mem_push_of_mem d he), h.notes⟩,
      h.diagnostics d Array.mem_push_self⟩
  · rintro ⟨h, hd⟩
    refine ⟨fun e he => ?_, h.notes⟩
    rcases Array.mem_push.1 he with he | rfl
    · exact h.diagnostics e he
    · exact hd

theorem unlimited_note {j : Journal} {n : Note} :
    Unlimited { j with notes := j.notes.push n } ↔ j.Unlimited ∧ ¬n.OfLimit := by
  constructor
  · intro h
    exact ⟨⟨h.diagnostics, fun e he => h.notes e (Array.mem_push_of_mem n he)⟩, h.notes n Array.mem_push_self⟩
  · rintro ⟨h, hn⟩
    refine ⟨h.diagnostics, fun e he => ?_⟩
    rcases Array.mem_push.1 he with he | rfl
    · exact h.notes e he
    · exact hn

theorem unlimited_append {a b : Journal} : (a.append b).Unlimited ↔ a.Unlimited ∧ b.Unlimited := by
  constructor
  · intro h
    have ha : a.Unlimited := ⟨fun d hd => h.diagnostics d (Array.mem_append_left _ hd),
      fun n hn => h.notes n (Array.mem_append_left _ hn)⟩
    have hb : b.Unlimited := ⟨fun d hd => h.diagnostics d (Array.mem_append_right _ hd),
      fun n hn => h.notes n (Array.mem_append_right _ hn)⟩
    exact ⟨ha, hb⟩
  · rintro ⟨ha, hb⟩
    exact ⟨fun d hd => (Array.mem_append.1 hd).elim (ha.diagnostics d) (hb.diagnostics d),
      fun n hn => (Array.mem_append.1 hn).elim (ha.notes n) (hb.notes n)⟩

end Journal

namespace VariableTable

def widen (n : Nat) (t : VariableTable) : VariableTable := { t with capacity := t.capacity + n }

/-- A table with more room refuses a value for the same reason, unless it was full. -/
theorem assign_widen (n : Nat) (t : VariableTable) (name : String) (value : Value)
    (h : ∀ failure, t.assign name value = .error failure → ¬failure.OfLimit) :
    (t.widen n).assign name value = (t.assign name value).map (widen n) := by
  unfold assign at h ⊢
  cases hstored : Variable.ofValue? (Namespace.of name) value with
  | none => rfl
  | some stored =>
    rw [hstored] at h
    dsimp only at h ⊢
    by_cases hfull : (!t.vars.contains name && decide (t.capacity ≤ t.size)) = true
    · rw [if_pos hfull] at h
      exact absurd trivial (h _ rfl)
    · have hroom : ¬(!t.vars.contains name && decide (t.capacity + n ≤ t.size)) = true := by
        simp only [Bool.and_eq_true, Bool.not_eq_true', decide_eq_true_eq, not_and] at hfull ⊢
        exact fun hnew => fun hle => hfull hnew (by omega)
      rw [if_neg hfull]
      exact if_neg hroom

end VariableTable

namespace TimerPool

/-- The pool with more slots behind its own. -/
def widen (n : Nat) (p : TimerPool) : TimerPool := { p with slots := p.slots ++ Array.replicate n none }

variable (n : Nat) {p q : TimerPool} {t : Timer} {slot : Nat}

theorem capacity_widen : (p.widen n).capacity = p.capacity + n := by
  simp [widen, capacity]

theorem widen_withCapacity (capacity : Nat) : (withCapacity capacity).widen n = withCapacity (capacity + n) := by
  simp [widen, withCapacity]

theorem get?_widen (i : Nat) : (p.widen n).get? i = p.get? i := by
  rw [get?, widen, Array.getElem?_append, get?]
  split
  · rfl
  · rename_i hi
    rw [Array.getElem?_replicate, Array.getElem?_eq_none (Nat.not_lt.1 hi)]
    split <;> rfl

theorem put_widen (h : slot < p.capacity) (content : Option Timer) (active : Nat) :
    (p.widen n).put slot content active = (p.put slot content active).widen n := by
  rw [put, widen, Array.set!_eq_setIfInBounds, Array.setIfInBounds_append_left h]
  rfl

theorem free_widen (slot : Nat) : (p.widen n).free slot = (p.free slot).widen n := by
  cases h : p.get? slot with
  | none =>
    have hwide := (get?_widen n slot).trans h
    rw [free, free, h, hwide]
  | some t =>
    have hwide := (get?_widen n slot).trans h
    rw [free_eq h, free_eq hwide]
    exact put_widen n (lt_capacity_of_get? h) none _

theorem clearWhere_widen (unwanted : Timer → Bool) :
    ((p.widen n).clearWhere unwanted).2 = (p.clearWhere unwanted).2.widen n := by
  simp [clearWhere, widen, Array.countP_replicate]

/-- A new timer goes into the same slot. -/
theorem allocate_widen (h : p.allocate t = .ok (slot, q)) : (p.widen n).allocate t = .ok (slot, q.widen n) := by
  obtain ⟨hlt, -, -⟩ := allocate_eq h
  obtain ⟨hfree, rfl⟩ := allocate_eq_ok_iff.1 h
  refine allocate_eq_ok_iff.2 ⟨?_, (put_widen n hlt (some t) _).symm⟩
  rw [widen, Array.findIdx?_append, hfree, Option.some_or]

theorem isTaken_widen (name : String) : (p.widen n).isTaken name = p.isTaken name := by
  rw [isTaken, widen, Array.any_append, isTaken]
  have hfree : (Array.replicate n (none : Option Timer)).any (·.any (·.name == name)) = false := by
    rw [Array.any_eq_false]
    intro i hi
    simp
  rw [hfree, Bool.or_false]

theorem firstFree_widen (k : Nat) : (p.widen n).firstFree k = p.firstFree k := by
  fun_induction p.firstFree k with
  | case1 k htaken ih => rw [firstFree, isTaken_widen, if_pos htaken, ih]
  | case2 k hfree => rw [firstFree, isTaken_widen, if_neg hfree]

theorem freshName_widen : (p.widen n).freshName = p.freshName := by
  rw [freshName, firstFree_widen, freshName]

theorem poll_widen (slot now : Nat) (idle : Bool) :
    (p.widen n).poll slot now idle = ((p.poll slot now idle).1, (p.poll slot now idle).2.widen n) := by
  cases h : p.get? slot with
  | none => rw [poll, poll, get?_widen, h]
  | some t =>
    have hwide := (get?_widen n slot).trans h
    have hlt := lt_capacity_of_get? h
    cases hdue : t.isDue now with
    | false => rw [poll_waiting h hdue, poll_waiting hwide hdue]
    | true =>
      cases hbusy : t.idleOnly && !idle with
      | true =>
        rw [poll_busy h hdue hbusy, poll_busy hwide hdue hbusy]
        exact congrArg (Prod.mk none) (put_widen n hlt _ _)
      | false =>
        rw [poll_due h hdue hbusy, poll_due hwide hdue hbusy]
        unfold afterRun
        cases t.rearm now with
        | none => exact congrArg (Prod.mk (some t)) (free_widen n slot)
        | some u => exact congrArg (Prod.mk (some t)) (put_widen n hlt _ _)

end TimerPool

namespace ScriptState

def widen (n : Nat) (s : ScriptState) : ScriptState := { s with locals := s.locals.widen n }

end ScriptState

def Shared.widen (w : Room) (s : Shared) : Shared :=
  { s with
    globals := s.globals.widen w.globals
    timers := s.timers.widen w.timers
    maxCallDepth := s.maxCallDepth + w.calls }

namespace Run

def widen (w : Room) (r : Run) : Run :=
  { r with
    own := r.own.widen w.locals
    master := r.master.map (·.widen w.locals)
    shared := r.shared.widen w }

theorem leading_widen (w : Room) (r : Run) : (r.widen w).leading = r.leading.widen w.locals := by
  unfold leading widen
  cases r.master <;> rfl

theorem updateLeading_widen (w : Room) (r : Run) {change : ScriptState → ScriptState}
    (h : ∀ s, change (s.widen w.locals) = (change s).widen w.locals) :
    (r.widen w).updateLeading change = (r.updateLeading change).widen w := by
  unfold updateLeading widen
  cases r.master with
  | none => simp [h]
  | some m => simp [h]

theorem systemValue?_widen (w : Room) (r : Run) (name : String) :
    (r.widen w).systemValue? name = r.systemValue? name := by
  have helapsed : ∀ place now, (r.widen w).leading.elapsed place now = r.leading.elapsed place now := by
    intro place now
    rw [leading_widen]
    rfl
  unfold systemValue?
  simp only [helapsed]
  rfl

end Run

end EntityScript
