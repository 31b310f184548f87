import EntityScript.Diagnostic
import EntityScript.Dict
import EntityScript.Script.Reading
import EntityScript.Text.Pieces
import EntityScript.Text.Place

/-!
A script is its text together with an index of its headers: where each event handler and each label
begins. Headers stand at the beginning of a line, and the first header of a name counts. Making the
index also finds what is worth a warning: labels given twice, and braces that do not balance.
-/

namespace EntityScript

open Reading (isSeparator)

inductive Header
  | label (name : String)
  | event (name : String)
deriving DecidableEq, Repr

namespace Header

/-- The next word of a line, and the line after it. Only separators end a word here. -/
def takeWord (line : List Char) : List Char × List Char :=
  let line := line.dropWhile isSeparator
  (line.takeWhile (!isSeparator ·), line.dropWhile (!isSeparator ·))

/-- The header of a line, with its name in lowercase, and the line after the header. -/
def read? (line : List Char) : Option (Header × List Char) :=
  match takeWord line with
  | ('>' :: '>' :: name, rest) => some (label (Text.lowercase (String.ofList name)), rest)
  | (word, rest) =>
    let (name, after) := takeWord rest
    if Text.sameAsciiCaseless (String.ofList word) "on" && !name.isEmpty then
      some (event (Text.lowercase (String.ofList name)), after)
    else none

/-- The headers of the lines, each with the position after it; the first line begins at `start`. -/
def ofLines (start : Nat) : List (List Char) → List (Header × Nat)
  | [] => []
  | line :: more =>
    let later := ofLines (start + Text.size line + 1) more
    match read? line with
    | some (header, rest) => (header, start + Text.positionOf line rest) :: later
    | none => later

def all (text : List Char) : List (Header × Nat) := ofLines 0 (Text.lines text)

def label? : Header × Nat → Option (String × Nat)
  | (label name, position) => some (name, position)
  | (event _, _) => none

def event? : Header × Nat → Option (String × Nat)
  | (event name, position) => some (name, position)
  | (label _, _) => none

end Header

def firstPositions (found : List (String × Nat)) : Dict String Nat :=
  found.foldl (fun index (name, position) =>
    if index.contains name then index else index.set name position) Dict.empty

def repeated (seen : List String) : List String → List String
  | [] => []
  | name :: rest =>
    if seen.contains name then name :: repeated seen rest else repeated (name :: seen) rest

/-- How many braces the text opens and does not close. On each line the text before the first two
slashes counts. -/
def braceExcess (text : List Char) : Int :=
  let code := (Text.lines text).flatMap (Text.upTo ['/', '/'])
  (code.count '{' : Int) - code.count '}'

structure Script where
  name : String
  text : List Char
  /-- Positions after the headers of event handlers. -/
  events : Dict String Nat
  /-- Positions after label headers. -/
  labels : Dict String Nat

namespace Script

def ofText (name text : String) : Script :=
  let headers := Header.all text.toList
  { name
    text := text.toList
    events := firstPositions (headers.filterMap Header.event?)
    labels := firstPositions (headers.filterMap Header.label?) }

def warnings (s : Script) : List Diagnostic :=
  let labels := ((Header.all s.text).filterMap Header.label?).map (·.1)
  let excess := braceExcess s.text
  (repeated [] labels).map .duplicateLabel ++ (if excess = 0 then [] else [.unbalancedBraces excess])

/-- Length of the text in bytes. -/
def size (s : Script) : Nat := Text.size s.text

def placeAt (s : Script) (position : Nat) : Text.Place := .ofPosition position s.text

def positionOf (s : Script) (rest : List Char) : Nat := Text.positionOf s.text rest

def findEvent? (s : Script) (event : String) : Option Nat := s.events.get? (Text.lowercase event)

/-- The name of a label without the marker that may stand before it. -/
def bareLabel (label : String) : String :=
  match label.toList with
  | '>' :: '>' :: name => String.ofList name
  | _ => label

def findLabel? (s : Script) (label : String) : Option Nat :=
  s.labels.get? (Text.lowercase (bareLabel label))

end Script

end EntityScript
