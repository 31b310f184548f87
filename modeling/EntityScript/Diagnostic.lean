import EntityScript.Failure
import EntityScript.Value
import EntityScript.World.Entity

/-!
Diagnostics: what scripts are told about, in the order in which it came up. Failures of a command
are errors, and everything else that is odd in a script is a warning.
-/

namespace EntityScript

inductive Severity
  | warning
  | error
deriving DecidableEq, Repr

inductive Diagnostic
  | duplicateLabel (label : String)
  /-- The text opens so many more braces than it closes. -/
  | unbalancedBraces (excess : Int)
  | unexpectedFlag (letter : Char)
  | unknownSystemVariable (name : String)
  /-- Text that a command does not read, at this position. -/
  | unexpectedText (position : Nat)
  | unknownCommand (word : String)
  | entityNeeded
  | unknownOperator (word : String)
  | incompatibleTypes (left : String) (leftType : ValueType) (right : String) (rightType : ValueType)
  | operatorNotApplicable (name : String) (type : ValueType)
  | unknownItemType (name : String)
  | invalidStopwatch (word : String)
  | timerWithoutCommand (name : String)
  | unknownEvent (name : String)
  | senderGone
  | unknownTarget (name : String)
  | unknownZone (name : String)
  | timerOfRemovedEntity (name : String) (owner : EntityId)
  | timerWithoutScript (name : String)
  | noScriptForEvent (event : String)
  | ownMaster (id : EntityId)
  | failed (failure : Failure)
deriving DecidableEq, Repr

namespace Diagnostic

def severity : Diagnostic → Severity
  | failed _ => .error
  | _ => .warning

def showSigned (n : Int) : String := if 0 ≤ n then s!"+{n}" else toString n

def message : Diagnostic → String
  | duplicateLabel label => s!"duplicate label \">>{label}\""
  | unbalancedBraces excess => s!"unbalanced braces ({showSigned excess})"
  | unexpectedFlag letter => s!"unexpected flag '{letter}'"
  | unknownSystemVariable name => s!"unknown system variable {name}"
  | unexpectedText position => s!"unexpected text at {position}"
  | unknownCommand word => s!"unknown command: {word}"
  | entityNeeded => "command needs an entity"
  | unknownOperator word => s!"unknown operator: {word}"
  | incompatibleTypes left leftType right rightType =>
    s!"incompatible types: \"{left}\" ({leftType.name}) and \"{right}\" ({rightType.name})"
  | operatorNotApplicable name .number => s!"operator {name} is not applicable to numbers"
  | operatorNotApplicable name .text => s!"operator {name} is not applicable to text"
  | unknownItemType name => s!"unknown type: {name}"
  | invalidStopwatch word => s!"invalid timer: {word}"
  | timerWithoutCommand name => s!"timer{name} has no command"
  | unknownEvent name => s!"unknown event: {name}"
  | senderGone => "sender no longer exists"
  | unknownTarget name => s!"unknown target: {name}"
  | unknownZone name => s!"unknown zone: {name}"
  | timerOfRemovedEntity name owner => s!"timer{name} belongs to a removed entity {showId owner}"
  | timerWithoutScript name => s!"timer{name} has no script to run"
  | noScriptForEvent event => s!"no script to receive event {event}"
  | ownMaster id => s!"entity {showId id} cannot be its own master"
  | failed failure => failure.message

end Diagnostic

end EntityScript
