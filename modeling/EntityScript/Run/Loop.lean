import EntityScript.Command.Table

/-!
Carrying out a run, statement by statement. Braces only count how deep the run is; a handler ends
where its block closes, and a timer's line ends with the line. Each command costs a step, and steps
are limited, so every run ends: between two steps the text left to read only gets shorter.
-/

namespace EntityScript

inductive Mode
  /-- Where the block of the handler closes. -/
  | block
  /-- At the end of the line it began on. -/
  | line
deriving DecidableEq, Repr

inductive Next
  | finished (rest : List Char)
  /-- A command word, the text after it, and the depth of braces there. -/
  | command (word : String) (rest : List Char) (depth : Int)

def isLabelWord (word : String) : Bool := ['>', '>'].isPrefixOf word.toList

/-- Passes over braces and labels to the next command. The header of the next handler ends the run,
and so does the closing brace of the handler's own block. The depth has no bound: a count in 32 bits
differs from it only past `2 ^ 31` braces that are open, or closed, at once. -/
def Next.of (mode : Mode) (inCall : Bool) (depth : Int) (cs : List Char) : Next :=
  if mode = .line ∧ depth ≤ 0 ∧ !inCall ∧ Reading.atLineEnd cs then .finished cs
  else
    let word := (Reading.readCommand cs).1
    let rest := (Reading.readCommand cs).2
    if hw : word = "" then .finished rest
    else
      have : rest.length < cs.length := Reading.readCommand_length_lt hw
      if word = "on" then .finished rest
      else if word = "\x7b" then Next.of mode inCall (depth + 1) rest
      else if word = "\x7d" then
        if depth - 1 ≤ 0 ∧ mode = .block then .finished rest
        else Next.of mode inCall (depth - 1) rest
      else if isLabelWord word then Next.of mode inCall depth rest
      else .command word rest depth
termination_by cs.length

namespace Exec

def passOver (d : Diagnostic) : Exec Outcome := do
  report d
  continueAt (Reading.dropLine (← get).rest)
  return .failed

def runWord (table : CommandTable) (word : String) : Exec Outcome := do
  match table.lookup word with
  | none => passOver (.unknownCommand word)
  | some (_, command) =>
    if command.needsEntity && (← get).owner.isNone then passOver .entityNeeded
    else
      modify fun r => { r with command := word }
      command.execute

/-- The depth of braces after a command, and the depths saved for the calls that are open. A call
saves the depth, and a return brings it back. As in `Next.of` the depths have no bound. -/
def settleDepth (before after : Nat) (depth : Int) (saved : List Int) : Int × List Int :=
  if before < after then (depth, depth :: saved)
  else if after < before then
    match saved with
    | d :: more => (d, more)
    | [] => (depth, [])
  else (depth, saved)

/-- Goes on with a run that has `left` steps left of `limit`. A jump frees a line from its end. -/
def runSteps (table : CommandTable) (limit : Nat) :
    (left : Nat) → (mode : Mode) → (depth : Int) → (saved : List Int) → Exec Outcome
  | left, mode, depth, saved => do
    let before := (← get).callDepth
    match Next.of mode (before != 0) depth (← get).rest with
    | .finished rest =>
      continueAt rest
      return .success
    | .command word rest depth =>
      continueAt rest
      match left with
      | 0 => abort (.outOfSteps limit)
      | left + 1 =>
        let outcome ← runWord table word
        let after := (← get).callDepth
        let (depth, saved) := settleDepth before after depth saved
        if outcome.isAbort then return outcome
        else if outcome = .jumped ∧ mode = .line ∧ after = 0 then
          runSteps table limit left .block depth saved
        else runSteps table limit left mode depth saved

def runAll (table : CommandTable) (maxSteps : Nat) (mode : Mode) : Exec Outcome :=
  runSteps table maxSteps maxSteps mode 0 []

end Exec

end EntityScript
