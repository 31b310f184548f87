import EntityScript.Operator
import EntityScript.Run.Operand

/-!
The commands of the language and what may come of carrying one out. The last four commands observe
and change variables; they are not among those a new engine has.
-/

namespace EntityScript

/-- What comes of a statement, and of a whole run. -/
inductive Outcome
  | success
  /-- The statement failed, and the run goes on with the next one. -/
  | failed
  /-- The run stops because of an error. -/
  | abortError
  /-- The run stops, and the usual reaction to the event takes place. -/
  | abortAccept
  /-- The run stops, and the usual reaction to the event does not take place. -/
  | abortRefuse
  /-- The run goes on at a label. -/
  | jumped
deriving DecidableEq, Repr

namespace Outcome

def isAbort : Outcome → Bool
  | abortError | abortAccept | abortRefuse => true
  | _ => false

def name : Outcome → String
  | success => "Success"
  | failed => "Failed"
  | abortError => "AbortError"
  | abortAccept => "AbortAccept"
  | abortRefuse => "AbortRefuse"
  | jumped => "Jumped"

end Outcome

inductive Command
  | nop
  /-- Goes to a label, as a call or for good. -/
  | jump (call : Bool)
  | stop (outcome : Outcome)
  /-- Carries out the next statement with some probability. -/
  | random
  | comeBack
  | setMainEvent
  | stopwatch (start : Bool)
  | timer
  | sendEvent
  | setEvent
  | conditional (policy : WrongTypePolicy)
  | otherwise
  /-- Notes the words of its line. -/
  | say
  /-- Gives a variable a value. -/
  | assign
  /-- Gives a variable the sum of its value and another one. -/
  | add
  /-- Notes where the run is. -/
  | probe
deriving DecidableEq, Repr

/-- The command makes sense only for a script that belongs to an entity. -/
def Command.needsEntity : Command → Bool
  | .setMainEvent | .sendEvent => true
  | _ => false

end EntityScript
