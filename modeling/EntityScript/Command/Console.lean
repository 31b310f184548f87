import EntityScript.Command

/-!
Commands for observing scripts at work: they note words and places, and give variables values.
-/

namespace EntityScript

namespace Reading

def lineWords (cs : List Char) : List (List Char) × List Char :=
  match h : nextToken cs with
  | none => ([], cs)
  | some token =>
    have : token.rest.length < cs.length := nextToken_length_lt h
    let (words, rest) := lineWords token.rest
    (token.word :: words, rest)
termination_by cs.length

end Reading

namespace Exec

def runSay : Exec Outcome := do
  let (words, rest) := Reading.lineWords (← get).rest
  continueAt rest
  note (.said (← words.mapM expand))
  return .success

/-- Stores a value among the variables of the script or among the global ones. -/
def store (name : String) (value : Value) : Exec Outcome := do
  let r ← get
  let result :=
    if (Namespace.of name).isLocal then
      (r.own.locals.assign name value).map fun locals => { r with own := { r.own with locals } }
    else
      (r.shared.globals.assign name value).map fun globals =>
        { r with shared := { r.shared with globals } }
  match result with
  | .ok r =>
    set r
    return .success
  | .error failure =>
    note (.refused failure)
    return .failed

def runAssign : Exec Outcome := do
  let name ← readWord
  let word ← readWord
  let wanted := if (Namespace.of name).isText then ValueType.text else .number
  store name (← resolve word wanted)

def runAdd : Exec Outcome := do
  let name ← readWord
  let word ← readWord
  let x ← numberOf name
  let y ← numberOf word
  store name (.number (x + y))

def runProbe : Exec Outcome := do
  let r ← get
  note (.probed r.position r.callDepth r.command r.params r.ownerName)
  return .success

end Exec

end EntityScript
