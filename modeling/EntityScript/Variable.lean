import EntityScript.Dict
import EntityScript.Failure
import EntityScript.Value

/-!
Variables. The first character of a name, its sigil, says where the variable lives and what it
holds; names without a sigil are literals. A table holds a limited number of names, each with a
value of the kind its sigil demands. An operand is resolved to a value through two tables and a
source of engine values.
-/

namespace EntityScript

/-- What the sigil of a name selects. -/
inductive Namespace
  | system
  | globalInteger
  | localInteger
  | globalFloat
  | localFloat
  | globalText
  | localText
  | literal
deriving DecidableEq, Repr

namespace Namespace

def of (name : String) : Namespace :=
  match name.toList with
  | '^' :: _ => system
  | '#' :: _ => globalInteger
  | '§' :: _ => localInteger
  | '&' :: _ => globalFloat
  | '@' :: _ => localFloat
  | '$' :: _ => globalText
  | '£' :: _ => localText
  | _ => literal

def isLocal : Namespace → Bool
  | localInteger | localFloat | localText => true
  | _ => false

def isGlobal : Namespace → Bool
  | globalInteger | globalFloat | globalText => true
  | _ => false

def isNumeric : Namespace → Bool
  | globalInteger | localInteger | globalFloat | localFloat => true
  | _ => false

def isText : Namespace → Bool
  | globalText | localText => true
  | _ => false

end Namespace

/-- A stored variable. Integers have 64 bits. -/
inductive Variable
  | integer (n : Int)
  | float (x : Float32)
  | text (s : String)
deriving DecidableEq, Repr

namespace Variable

def toInteger : Variable → Int
  | .integer n => n
  | .float x => Binary32.toInt64 x
  | .text s => Binary32.toInt64 (Number.parse s)

def toFloat : Variable → Float32
  | .integer n => Binary32.ofInt n
  | .float x => x
  | .text s => Number.parse s

def toText : Variable → String
  | .integer n => toString n
  | .float x => Number.format x
  | .text s => s

/-- What a variable of the namespace stores for a value, if it stores any. -/
def ofValue? (space : Namespace) (value : Value) : Option Variable :=
  match space with
  | .globalInteger | .localInteger => some (.integer (Binary32.toInt64 value.toNumber))
  | .globalFloat | .localFloat => some (.float value.toNumber)
  | .globalText | .localText => some (.text value.toText)
  | .system | .literal => none

end Variable

/-- Variables by name, sigil included. -/
structure VariableTable where
  vars : Dict String Variable
  capacity : Nat

namespace VariableTable

def withCapacity (capacity : Nat) : VariableTable := ⟨Dict.empty, capacity⟩

def size (t : VariableTable) : Nat := t.vars.size

def get? (t : VariableTable) (name : String) : Option Variable := t.vars.get? name

/-- Integer value, 0 when unset. -/
def integer (t : VariableTable) (name : String) : Int :=
  ((t.get? name).map Variable.toInteger).getD 0

/-- Float value, 0 when unset. -/
def float (t : VariableTable) (name : String) : Float32 :=
  ((t.get? name).map Variable.toFloat).getD 0

/-- Text value, empty when unset. -/
def text (t : VariableTable) (name : String) : String :=
  ((t.get? name).map Variable.toText).getD ""

/-- Stores a value in the form the sigil demands. Only a new name can find the table full. -/
def assign (t : VariableTable) (name : String) (value : Value) : Except Failure VariableTable :=
  match Variable.ofValue? (Namespace.of name) value with
  | none => .error (.notAVariable name)
  | some stored =>
    if !t.vars.contains name && t.capacity ≤ t.size then .error (.tableFull name t.capacity)
    else .ok { t with vars := t.vars.set name stored }

def remove (t : VariableTable) (name : String) : VariableTable :=
  { t with vars := t.vars.erase name }

def clear (t : VariableTable) : VariableTable := withCapacity t.capacity

end VariableTable

/-- What the engine itself answers for a name. -/
inductive SystemValue
  | text (s : String)
  | float (x : Float32)
  | integer (n : Int)
deriving DecidableEq, Repr

def SystemValue.toValue : SystemValue → Value
  | .text s => .text s
  | .float x => .number x
  | .integer n => .number (Binary32.ofInt n)

namespace Value

/-- A literal operand, read as the type that is asked for. -/
def ofLiteral (word : String) : ValueType → Value
  | .text => .text word
  | .number => .number (Number.parse word)

/-- The value of an operand outside the system namespace. The type that is asked for matters to
literals only, and unset variables give 0 or the empty text. -/
def ofOperand (globals locals : VariableTable) (word : String) (wanted : ValueType) : Value :=
  match Namespace.of word with
  | .globalInteger => .number (Binary32.ofInt (globals.integer word))
  | .localInteger => .number (Binary32.ofInt (locals.integer word))
  | .globalFloat => .number (globals.float word)
  | .localFloat => .number (locals.float word)
  | .globalText => .text (globals.text word)
  | .localText => .text (locals.text word)
  | .system | .literal => ofLiteral word wanted

end Value

end EntityScript
