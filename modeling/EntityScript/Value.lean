import EntityScript.Number

/-!
Values exist while a statement is carried out: a text or a number. Either one can be asked for in
the other form.
-/

namespace EntityScript

inductive ValueType
  | text
  | number
deriving DecidableEq, Repr

/-- A resolved operand. -/
inductive Value
  | text (s : String)
  | number (x : Float32)
deriving DecidableEq, Repr

def ValueType.name : ValueType → String
  | .text => "text"
  | .number => "number"

namespace Value

def type : Value → ValueType
  | .text _ => .text
  | .number _ => .number

def toText : Value → String
  | .text s => s
  | .number x => Number.format x

/-- The value as a number; a text counts for the number it starts with. -/
def toNumber : Value → Float32
  | .text s => Number.parse s
  | .number x => x

end Value

end EntityScript
