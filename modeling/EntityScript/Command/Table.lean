import EntityScript.Command.Console
import EntityScript.Command.Dispatch
import EntityScript.Command.Flow
import EntityScript.Command.Timing

/-!
Commands by name. Looking up a word gives the command of that name; any other word that begins with
`timer` is the timer command, which takes the name of its timer from the rest of the word.
-/

namespace EntityScript

def Command.execute : Command → Exec Outcome
  | .nop => pure .success
  | .jump call => Exec.runJump call
  | .stop outcome => pure outcome
  | .random => Exec.runRandom
  | .comeBack => Exec.runComeBack
  | .setMainEvent => Exec.runSetMainEvent
  | .stopwatch start => Exec.runStopwatch start
  | .timer => Exec.runTimer
  | .sendEvent => Exec.runSendEvent
  | .setEvent => Exec.runSetEvent
  | .conditional policy => Exec.runConditional policy
  | .otherwise => Exec.runOtherwise
  | .say => Exec.runSay
  | .assign => Exec.runAssign
  | .add => Exec.runAdd
  | .probe => Exec.runProbe

structure CommandTable where
  commands : Dict String Command := Dict.empty

namespace CommandTable

def size (t : CommandTable) : Nat := t.commands.size

/-- Adds a command under a name, unless there is one already. -/
def register (t : CommandTable) (name : String) (command : Command) :
    Except Failure CommandTable :=
  let name := Text.lowercase name
  if t.commands.contains name then .error (.duplicateCommand name)
  else .ok ⟨t.commands.set name command⟩

def registerAll (t : CommandTable) (commands : List (String × Command)) : CommandTable :=
  commands.foldl (fun t (name, command) => (t.register name command).toOption.getD t) t

def language (policy : WrongTypePolicy) : List (String × Command) := [
  ("nop", .nop),
  ("goto", .jump false),
  ("gosub", .jump true),
  ("accept", .stop .abortAccept),
  ("refuse", .stop .abortRefuse),
  ("random", .random),
  ("return", .comeBack),
  ("setmainevent", .setMainEvent),
  ("setstatus", .setMainEvent),
  ("starttimer", .stopwatch true),
  ("stoptimer", .stopwatch false),
  ("timer", .timer),
  ("sendevent", .sendEvent),
  ("setevent", .setEvent),
  ("if", .conditional policy),
  ("else", .otherwise)]

def console : List (String × Command) :=
  [("say", .say), ("set", .assign), ("add", .add), ("probe", .probe)]

def builtin (policy : WrongTypePolicy) : CommandTable := ({} : CommandTable).registerAll (language policy)

/-- The command for a word in lowercase, with its name. -/
def lookup (t : CommandTable) (word : String) : Option (String × Command) :=
  match t.commands.get? word with
  | some command => some (word, command)
  | none =>
    if "timer".toList.isPrefixOf word.toList then
      (t.commands.get? "timer").map fun command => ("timer", command)
    else none

end CommandTable

end EntityScript
