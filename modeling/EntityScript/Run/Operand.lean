import EntityScript.Run

/-!
Operands of statements. The engine answers for names of the system namespace: who runs, who sent the
event, the time, the stopwatches, and the words of the event's parameters. Words are read from the
line with the variables between tildes filled in, once and from left to right.
-/

namespace EntityScript

namespace Run

/-- A number of milliseconds as a signed 64-bit integer. -/
def signed64 (n : Nat) : Int := Int.bmod n UInt64.size

/-- The parameter with this index, written out and counted from 1. A parameter that the event does
not have is empty. -/
def param? (r : Run) (index : List Char) : Option String :=
  match Number.parseUnsigned? (String.ofList index) with
  | some (n + 1) => some (r.params.getD n "")
  | _ => none

def systemValue? (r : Run) (name : String) : Option SystemValue :=
  match (Text.lowercase name).toList with
  | ['^', 'm', 'e'] => some (.text r.ownerName)
  | ['^', 's', 'e', 'n', 'd', 'e', 'r'] => some (.text (r.world.nameOf r.sender))
  | ['^', 'g', 'a', 'm', 'e', 't', 'i', 'm', 'e'] => some (.integer (signed64 r.world.now))
  | '^' :: '#' :: stopwatch =>
    (Stopwatch.named? (String.ofList stopwatch)).map fun place =>
      .integer (signed64 (r.leading.elapsed place r.world.now))
  | '^' :: '$' :: 'p' :: 'a' :: 'r' :: 'a' :: 'm' :: index => (r.param? index).map .text
  | '^' :: '&' :: 'p' :: 'a' :: 'r' :: 'a' :: 'm' :: index =>
    (r.param? index).map fun text => .float (Number.parse text)
  | _ => none

end Run

namespace Exec

/-- The value of a system variable. An unknown one is reported and empty. -/
def systemValue (name : String) : Exec SystemValue := do
  match (← get).systemValue? name with
  | some v => pure v
  | none =>
    report (.unknownSystemVariable name)
    pure (.text "")

def resolve (word : String) (wanted : ValueType) : Exec Value := do
  if Namespace.of word = .system then
    return (← systemValue word).toValue
  else
    let r ← get
    return Value.ofOperand r.shared.globals r.own.locals word wanted

/-- The value of an operand as text; a literal stands for itself. -/
def textOf (word : String) : Exec String := return (← resolve word .text).toText

def numberOf (word : String) : Exec Float32 := return (← resolve word .number).toNumber

def fillIn : List (List Char) → Exec (List Char)
  | [] => pure []
  | [text] => pure text
  | [text, unclosed] => pure (text ++ '~' :: unclosed)
  | text :: name :: more => do
    let value ← textOf (String.ofList name)
    let rest ← fillIn more
    pure (text ++ value.toList ++ rest)

/-- The word with its variables filled in. -/
def expand (word : List Char) : Exec String :=
  return String.ofList (← fillIn (Text.pieces (· == '~') word))

def readWord : Exec String := do
  match Reading.nextToken (← get).rest with
  | none => pure ""
  | some token =>
    continueAt token.rest
    expand token.word

def readCommand : Exec String :=
  modifyGet fun r =>
    let (word, rest) := Reading.readCommand r.rest
    (word, { r with place := r.place.readTo rest })

def readNumber : Exec Float32 := do numberOf (← readWord)

def readSwitch : Exec Bool := do
  return ["on", "yes", "true", "1"].contains (Text.lowercase (← readWord))

end Exec

/-- The flags that a statement was given, as letters in lowercase. -/
structure Flags where
  letters : List Char := []
deriving DecidableEq, Repr

namespace Flags

/-- The flag was given, in either case. -/
def has (f : Flags) (letter : Char) : Bool := f.letters.contains letter.toLower

/-- The letters of a word that gives flags. A word that begins otherwise, such as a negative number,
gives none. -/
def lettersOf? : List Char → Option (List Char)
  | '-' :: c :: rest => if c.isAlpha then some (c :: rest) else none
  | _ => none

end Flags

namespace Exec

def collectFlags (allowed : List Char) : List Char → Exec Flags
  | [] => pure {}
  | letter :: rest => do
    let lower := letter.toLower
    if allowed.contains lower then
      let flags ← collectFlags allowed rest
      return if lower.isAlpha then ⟨lower :: flags.letters⟩ else flags
    else
      report (.unexpectedFlag letter)
      collectFlags allowed rest

def readFlags (allowed : List Char) : Exec Flags := do
  match Reading.nextToken (← get).rest with
  | none => pure {}
  | some token =>
    match Flags.lettersOf? token.word with
    | none => pure {}
    | some letters =>
      continueAt token.rest
      collectFlags allowed letters

def atLineEnd : Exec Bool := do
  let r ← get
  return !r.place.insideChar && Reading.atLineEnd r.rest

/-- Goes to the end of the line, and answers where the text passed over begins, if there is any. -/
def skipLine : Exec (Option Nat) := do
  let r ← get
  continueAt (Reading.dropLine r.rest)
  if r.place.insideChar then return some r.position
  else return (Reading.nextToken r.rest).map fun token => r.script.positionOf token.start

def skipStatement : Exec Unit := do continueAt (Reading.skipStatement (← get).rest)

/-- Passes over a statement that must not be carried out, up to the branch that is instead. -/
def skipGuarded : Exec Unit := do continueAt (Reading.skipGuarded (← get).rest)

/-- Goes to a label; a call remembers the place to return to. -/
def jump (label : String) (call : Bool) : Exec (Except Failure Unit) := do
  let r ← get
  match r.script.findLabel? label with
  | none => return .error (.unknownLabel label)
  | some position =>
    let target := r.script.placeAt position
    if !call then
      set { r with place := target }
      return .ok ()
    else if r.shared.maxCallDepth ≤ r.callDepth then
      return .error (.callsTooDeep r.shared.maxCallDepth)
    else
      set { r with place := target, calls := r.calls.push r.place }
      return .ok ()

def comeBack : Exec (Except Failure Unit) := do
  let r ← get
  match r.calls.pop? with
  | none => return .error .nothingToReturnTo
  | some (place, calls) =>
    set { r with place, calls }
    return .ok ()

end Exec

end EntityScript
