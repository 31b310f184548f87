import EntityScript.Failure
import EntityScript.Script
import EntityScript.World.Entity

/-!
Timers. A timer remembers a place in a script and comes due again and again, once its period has
passed. Timers live in a pool with a fixed number of slots; a new one takes the first free slot, and
a full pool refuses it.
-/

namespace EntityScript

/-- The last moment a clock can show, in milliseconds. -/
def lastMoment : Nat := UInt64.size - 1

structure Timer where
  name : String
  script : Script
  /-- The entity it belongs to; none for the global script. -/
  owner : Option EntityId
  /-- Runs that are left; 0 is without end. -/
  times : Nat
  period : Nat
  /-- Position of the statement to run. -/
  resumeAt : Nat
  /-- When the current period began. -/
  started : Nat
  /-- It runs only while its owner is idle. -/
  idleOnly : Bool

namespace Timer

def hasKey (t : Timer) (name : String) (owner : Option EntityId) : Bool :=
  t.owner == owner && t.name == name

def isDue (t : Timer) (now : Nat) : Bool := min lastMoment (t.started + t.period) ≤ now

/-- The timer after a run; none after its last one. -/
def rearm (t : Timer) (now : Nat) : Option Timer :=
  match t.times with
  | 0 => some { t with started := now }
  | 1 => none
  | n + 2 => some { t with times := n + 1, started := now }

end Timer

/-- The pool. The number of occupied slots is kept along with them. -/
structure TimerPool where
  slots : Array (Option Timer)
  active : Nat

namespace TimerPool

def withCapacity (capacity : Nat) : TimerPool := ⟨Array.replicate capacity none, 0⟩

def capacity (p : TimerPool) : Nat := p.slots.size

def get? (p : TimerPool) (slot : Nat) : Option Timer := p.slots[slot]?.join

def occupied (p : TimerPool) : List (Nat × Timer) :=
  (List.range p.capacity).filterMap fun slot => (p.get? slot).map fun t => (slot, t)

def timers (p : TimerPool) : List Timer := p.slots.toList.filterMap id

/-- The first slot that holds a timer of this name and owner. -/
def find? (p : TimerPool) (name : String) (owner : Option EntityId) : Option Nat :=
  p.slots.findIdx? fun slot => slot.any (·.hasKey name owner)

def allocate (p : TimerPool) (t : Timer) : Except Failure (Nat × TimerPool) :=
  match p.slots.findIdx? (·.isNone) with
  | none => .error (.noFreeTimer p.capacity)
  | some slot => .ok (slot, ⟨p.slots.set! slot (some t), p.active + 1⟩)

def free (p : TimerPool) (slot : Nat) : TimerPool :=
  match p.get? slot with
  | none => p
  | some _ => ⟨p.slots.set! slot none, p.active - 1⟩

def take (p : TimerPool) (slot : Nat) : Option Timer × TimerPool := (p.get? slot, p.free slot)

def clearWhere (p : TimerPool) (unwanted : Timer → Bool) : Nat × TimerPool :=
  let cleared := p.slots.countP (·.any unwanted)
  (cleared, ⟨p.slots.map (·.filter (!unwanted ·)), p.active - cleared⟩)

def clearByName (p : TimerPool) (name : String) (owner : Option EntityId) : Nat × TimerPool :=
  p.clearWhere (·.hasKey name owner)

def clearOwner (p : TimerPool) (owner : Option EntityId) : Nat × TimerPool :=
  p.clearWhere (·.owner == owner)

/-- The name given to the `n`-th timer without a name. -/
def numberedName (n : Nat) : String := s!"timer_{n}"

theorem numberedName_injective {m n : Nat} (h : numberedName m = numberedName n) : m = n := by
  have hdigits : (toString m).toList = (toString n).toList := by
    simpa [numberedName] using congrArg String.toList h
  have hread := congrArg (Nat.ofDigitChars 10 · 0) hdigits
  simpa using hread

def isTaken (p : TimerPool) (name : String) : Bool := p.slots.any (·.any (·.name == name))

theorem isTaken_iff {p : TimerPool} {name : String} : p.isTaken name = true ↔ ∃ t ∈ p.timers, t.name = name := by
  simp only [isTaken, timers, ← Array.any_toList, List.any_eq_true, List.mem_filterMap, Option.any_eq_true,
    beq_iff_eq]
  constructor
  · rintro ⟨_, hmem, t, rfl, hname⟩
    exact ⟨t, ⟨some t, hmem, rfl⟩, hname⟩
  · rintro ⟨t, ⟨_, hmem, rfl⟩, hname⟩
    exact ⟨some t, hmem, t, rfl, hname⟩

/-- No list of names has all the numbered names. From some number on none of them is there. -/
theorem numbers_bounded (names : List String) : ∃ bound, ∀ n, numberedName n ∈ names → n < bound := by
  induction names with
  | nil => exact ⟨0, fun n hmem => nomatch hmem⟩
  | cons name names ih =>
    obtain ⟨bound, hbound⟩ := ih
    by_cases hnumber : ∃ m, numberedName m = name
    · obtain ⟨m, rfl⟩ := hnumber
      refine ⟨max bound (m + 1), fun n hmem => ?_⟩
      rcases List.mem_cons.1 hmem with heq | hmem
      · have hn := numberedName_injective heq
        omega
      · have hn := hbound n hmem
        omega
    · refine ⟨bound, fun n hmem => ?_⟩
      rcases List.mem_cons.1 hmem with heq | hmem
      · exact absurd ⟨n, heq⟩ hnumber
      · exact hbound n hmem

/-- The first number from `n` on whose name no timer has. The search has no bound of its own; it ends because
there are more numbers than timers. -/
def firstFree (p : TimerPool) (n : Nat) : Nat :=
  if p.isTaken (numberedName n) then p.firstFree (n + 1) else n
termination_by (numbers_bounded (p.timers.map (·.name))).choose - n
decreasing_by
  rename_i htaken
  have hbound := (numbers_bounded (p.timers.map (·.name))).choose_spec n (List.mem_map.2 (isTaken_iff.1 htaken))
  omega

/-- The first numbered name that no timer has. -/
def freshName (p : TimerPool) : String := numberedName (p.firstFree 0)

/-- Looks at one slot: the timer in it that now runs, if it does, and the pool afterwards. The period
begins anew even if several have passed. While its owner is busy, an idle-only timer is put off. -/
def poll (p : TimerPool) (slot now : Nat) (ownerIdle : Bool) : Option Timer × TimerPool :=
  match p.get? slot with
  | none => (none, p)
  | some t =>
    if !t.isDue now then (none, p)
    else if t.idleOnly && !ownerIdle then
      (none, { p with slots := p.slots.set! slot (some { t with started := now }) })
    else
      match t.rearm now with
      | none => (some t, p.free slot)
      | some t' => (some t, { p with slots := p.slots.set! slot (some t') })

end TimerPool

end EntityScript
