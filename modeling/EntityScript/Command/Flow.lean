import EntityScript.Command

/-!
Commands that direct the run: jumps, calls and returns, chance, comparison, and the branch that is
passed over because the one before it was taken. There is no tree of statements; a branch that is
not taken is skipped in the text.
-/

namespace EntityScript.Exec

def abort (failure : Failure) : Exec Outcome := do
  report (.failed failure)
  return .abortError

/-- Goes to the label on the line. Further words are passed over, unless the line is resumed later
because of a call. -/
def runJump (call : Bool) : Exec Outcome := do
  let label ← readWord
  if !call then
    if let some position ← skipLine then
      report (.unexpectedText position)
  match ← jump label call with
  | .ok () => return .jumped
  | .error failure => abort failure

/-- Draws a number below 100. -/
def roll : Exec Float32 :=
  modifyGet fun r =>
    let (x, random) := r.shared.random.next
    (x * 100, { r with shared := { r.shared with random } })

/-- The chance held between 0 and 100; not-a-number stays, and no number is at least as large. -/
def clampChance (x : Float32) : Float32 := if x < 0 then 0 else if 100 < x then 100 else x

def runRandom : Exec Outcome := do
  let chance := clampChance (← readNumber)
  let x ← roll
  if chance ≤ x then skipGuarded
  return .success

def runComeBack : Exec Outcome := do
  match ← comeBack with
  | .ok () => return .success
  | .error failure => abort failure

def refuse (d : Diagnostic) : Exec Outcome := do
  report d
  skipGuarded
  return .failed

/-- Compares two operands. The right one is read as the type that the left one has. -/
def runConditional (policy : WrongTypePolicy) : Exec Outcome := do
  let left ← readWord
  let name ← readWord
  let right ← readWord
  match OperatorTable.builtin.get? name with
  | none => refuse (.unknownOperator name)
  | some op =>
    let l ← resolve left op.preferred
    let r ← resolve right l.type
    if l.type ≠ r.type then refuse (.incompatibleTypes left l.type right r.type)
    else
      let run ← get
      let verdict := op.apply policy run.world.entities run.owner l r
      verdict.complaint.forM report
      if !verdict.holds then skipGuarded
      return .success

/-- Reached only after a branch that was taken. -/
def runOtherwise : Exec Outcome := do
  skipStatement
  return .success

end EntityScript.Exec
