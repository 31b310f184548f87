/-!
What can go wrong while scripts are set up and run, by cause, and the message of each cause.
-/

namespace EntityScript

inductive Failure
  | duplicateCommand (name : String)
  | duplicateOperator (name : String)
  /-- The name has no sigil that variables can be stored under. -/
  | notAVariable (name : String)
  | tableFull (name : String) (capacity : Nat)
  | noFreeTimer (capacity : Nat)
  | unknownLabel (label : String)
  /-- A `return` outside any subroutine. -/
  | nothingToReturnTo
  | callsTooDeep (limit : Nat)
  | outOfSteps (limit : Nat)
deriving DecidableEq, Repr

namespace Failure

def message : Failure → String
  | duplicateCommand name => s!"Duplicate command: {name}"
  | duplicateOperator name => s!"Duplicate 'if' operator: {name}"
  | notAVariable name => s!"Not a variable: {name}"
  | tableFull name capacity => s!"Variable table full ({capacity} entries), cannot add {name}"
  | noFreeTimer capacity => s!"No free timer available ({capacity} slots in use)"
  | unknownLabel label => s!"Unknown label \"{label}\""
  | nothingToReturnTo => "Return without gosub"
  | callsTooDeep limit => s!"Stack overflow (depth {limit})"
  | outOfSteps limit => s!"Script timeout after {limit} statements"

end Failure

end EntityScript
