import EntityScript.Diagnostic
import EntityScript.Dict
import EntityScript.World

/-!
The operators of `if`. An operator prefers one type of operands, which decides how a literal on its
left is read, and has a test for texts, for numbers, or for both. Operands that it has no test for
are compared by a policy.
-/

namespace EntityScript

/-- What comes of a comparison: whether it holds, and what is odd about it. -/
structure Verdict where
  holds : Bool
  complaint : Option Diagnostic := none

/-- A test of two texts. It may ask for entities as the given owner sees them. -/
abbrev TextTest := Registry → Option EntityId → String → String → Verdict

abbrev NumberTest := Float32 → Float32 → Bool

/-- What becomes of numbers that an operator has no test for. Texts never compare. -/
inductive WrongTypePolicy
  | legacy
  | conservative
deriving DecidableEq, Repr

namespace WrongTypePolicy

def ofLegacy (legacy : Bool) : WrongTypePolicy := if legacy then .legacy else .conservative

def fallback : WrongTypePolicy → ValueType → Bool
  | .legacy, .number => true
  | _, _ => false

end WrongTypePolicy

structure Operator where
  name : String
  preferred : ValueType
  textTest : Option TextTest
  numberTest : Option NumberTest

namespace Operator

def forText (name : String) (test : TextTest) : Operator := ⟨name, .text, some test, none⟩

def forNumbers (name : String) (test : NumberTest) : Operator := ⟨name, .number, none, some test⟩

/-- An operator for both that prefers numbers. -/
def forBoth (name : String) (text : String → String → Bool) (number : NumberTest) : Operator :=
  ⟨name, .number, some fun _ _ l r => ⟨text l r, none⟩, some number⟩

/-- Compares two operands. Unless both are numbers they are compared as texts. -/
def apply (op : Operator) (policy : WrongTypePolicy) (entities : Registry) (owner : Option EntityId)
    (left right : Value) : Verdict :=
  match left, right with
  | .number l, .number r =>
    match op.numberTest with
    | some test => ⟨test l r, none⟩
    | none => ⟨policy.fallback .number, some (.operatorNotApplicable op.name .number)⟩
  | _, _ =>
    match op.textTest with
    | some test => test entities owner left.toText right.toText
    | none => ⟨policy.fallback .text, some (.operatorNotApplicable op.name .text)⟩

/-- The left text is one of the elements of the right one, which blanks separate. -/
def isElement (left right : String) : Bool :=
  (Text.pieces (· == ' ') right.toList).contains left.toList

/-- The left text occurs in the right one. -/
def isIn (left right : String) : Bool := Text.occursIn left.toList right.toList

/-- One of the texts occurs in the other. -/
def isClass (left right : String) : Bool := isIn right left || isIn left right

def someEntity (entities : Registry) (owner : Option EntityId) (name : String)
    (test : Entity → Bool) : Verdict :=
  ⟨(entities.find? name owner).any test, none⟩

def isGroup : TextTest := fun entities owner name group =>
  someEntity entities owner name (·.inGroup group)

/-- Holds of existing entities only. -/
def isNotGroup : TextTest := fun entities owner name group =>
  someEntity entities owner name (!·.inGroup group)

def isType : TextTest := fun entities owner name type =>
  match ItemTypes.named? type with
  | none => ⟨false, some (.unknownItemType type)⟩
  | some types => someEntity entities owner name (·.itemTypes.meets types)

def builtin : List Operator := [
  forText "iselement" fun _ _ l r => ⟨isElement l r, none⟩,
  forText "isclass" fun _ _ l r => ⟨isClass l r, none⟩,
  forText "isgroup" isGroup,
  forText "!isgroup" isNotGroup,
  forText "istype" isType,
  forText "isin" fun _ _ l r => ⟨isIn l r, none⟩,
  forBoth "==" (fun l r => l == r) (fun l r => l == r),
  forBoth "!=" (fun l r => l != r) (fun l r => l != r),
  forNumbers "<=" fun l r => decide (l ≤ r),
  forNumbers "<" fun l r => decide (l < r),
  forNumbers ">=" fun l r => decide (r ≤ l),
  forNumbers ">" fun l r => decide (r < l)]

end Operator

structure OperatorTable where
  operators : Dict String Operator := Dict.empty

namespace OperatorTable

def get? (t : OperatorTable) (name : String) : Option Operator := t.operators.get? name

def size (t : OperatorTable) : Nat := t.operators.size

def register (t : OperatorTable) (op : Operator) : Except Failure OperatorTable :=
  if t.operators.contains op.name then .error (.duplicateOperator op.name)
  else .ok ⟨t.operators.set op.name op⟩

def builtin : OperatorTable :=
  Operator.builtin.foldl (fun t op => (t.register op).toOption.getD t) {}

end OperatorTable

end EntityScript
