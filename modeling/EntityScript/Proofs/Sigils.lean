import EntityScript.Proofs.Actions

/-! Whether an `if` makes sense is written in its words. The sigils say which types its operands have, and a
literal takes the type that is asked of it, so no value of a variable has a part in it. What the values decide
is whether the guarded statement is carried out or passed over, and nothing but the place and the journal is
changed by either. -/

namespace EntityScript

open Reading

namespace Namespace

def type? : Namespace → Option ValueType
  | globalInteger | localInteger | globalFloat | localFloat => some .number
  | globalText | localText => some .text
  | system | literal => none

end Namespace

/-- An operand has the type of its sigil. A literal has the one that is wanted. -/
theorem Run.type_valueOf {r : Run} {word : String} (h : Namespace.of word ≠ .system) (wanted : ValueType) :
    (r.valueOf word wanted).type = (Namespace.of word).type?.getD wanted := by
  rw [Run.valueOf, if_neg h, Value.ofOperand]
  cases hspace : Namespace.of word with
  | system => exact absurd hspace h
  | literal => cases wanted <;> rfl
  | _ => rfl

/-- The next word of the line; it is empty at the end of the line. -/
def Reading.wordAhead (cs : List Char) : List Char := ((nextToken cs).map Token.word).getD []

/-- The place behind the next word of the line. Where there is none, the place stays, even inside a character. -/
def Text.Place.pastWord (p : Text.Place) : Text.Place :=
  match nextToken p.rest with
  | none => p
  | some token => p.readTo token.rest

theorem Text.Place.rest_pastWord (p : Text.Place) : p.pastWord.rest = dropToken p.rest := by
  unfold pastWord dropToken
  cases nextToken p.rest with
  | none => rfl
  | some token => exact Text.Place.rest_readTo p token.rest

structure Comparison where
  left : List Char
  operator : List Char
  right : List Char
deriving DecidableEq

namespace Comparison

/-- The comparison on this line. Words that are missing are empty. -/
def ahead (cs : List Char) : Comparison where
  left := wordAhead cs
  operator := wordAhead (dropToken cs)
  right := wordAhead (dropToken (dropToken cs))

def leftSpace (c : Comparison) : Namespace := .of (String.ofList c.left)

def rightSpace (c : Comparison) : Namespace := .of (String.ofList c.right)

def operator? (c : Comparison) : Option Operator := OperatorTable.builtin.get? (String.ofList c.operator)

/-- Nothing is to be filled in, and no operand is up to the engine. -/
structure Plain (c : Comparison) : Prop where
  left : '~' ∉ c.left
  operator : '~' ∉ c.operator
  right : '~' ∉ c.right
  leftKnown : c.leftSpace ≠ .system
  rightKnown : c.rightSpace ≠ .system

/-- The right operand has a type of its own, and the left one is of another type. -/
def Mismatched (c : Comparison) (op : Operator) : Prop :=
  ∃ type, c.rightSpace.type? = some type ∧ c.leftSpace.type?.getD op.preferred ≠ type

/-- The comparison cannot be made, whatever the variables hold. -/
def Senseless (c : Comparison) : Prop := c.operator? = none ∨ ∃ op, c.operator? = some op ∧ c.Mismatched op

def holds (policy : WrongTypePolicy) (r : Run) (c : Comparison) : Bool :=
  Condition.holdsOf policy r (String.ofList c.left) (String.ofList c.operator) (String.ofList c.right)

variable {c : Comparison} {r : Run}

theorem mismatched_iff {op : Operator} (hc : c.Plain) :
    c.Mismatched op ↔
      let l := r.valueOf (String.ofList c.left) op.preferred
      l.type ≠ (r.valueOf (String.ofList c.right) l.type).type := by
  dsimp only
  rw [Run.type_valueOf hc.rightKnown, Run.type_valueOf hc.leftKnown, Mismatched, ← leftSpace, ← rightSpace]
  -- a literal takes the type of the left operand, so only a sigil can disagree with it
  rcases c.rightSpace.type? with _ | type <;> simp

theorem senseless_iff (hc : c.Plain) :
    c.Senseless ↔
      Condition.isSound r (String.ofList c.left) (String.ofList c.operator) (String.ofList c.right) = false := by
  unfold Senseless operator? Condition.isSound
  cases hop : OperatorTable.builtin.get? (String.ofList c.operator) with
  | none => simp
  | some op =>
    dsimp only
    rw [beq_eq_false_iff_ne, ← mismatched_iff (r := r) hc]
    simp

theorem senseless_of_literal (h : c.rightSpace = .literal) : c.Senseless ↔ c.operator? = none := by
  simp [Senseless, Mismatched, h, Namespace.type?]

end Comparison

namespace Exec

theorem readWord_plain {r : Run} {cs : List Char} (hr : r.rest = cs) (h : '~' ∉ wordAhead cs) :
    readWord.run r = (String.ofList (wordAhead cs), { r with place := r.place.pastWord }) := by
  subst hr
  rw [readWord_run]
  rcases htoken : nextToken r.rest with _ | token
  · have hplace : nextToken r.place.rest = none := htoken
    simp only [wordAhead, htoken, Text.Place.pastWord, hplace]
    rfl
  · have hplace : nextToken r.place.rest = some token := htoken
    simp only [wordAhead, htoken, Option.map_some, Option.getD_some] at h ⊢
    simp only [Text.Place.pastWord, hplace]
    exact expand_plain h _

/-- A comparison without tildes is made between its words as they stand on the line. -/
theorem runConditional_plain (policy : WrongTypePolicy) {r : Run} {c : Comparison} (hahead : .ahead r.rest = c)
    (hc : c.Plain) :
    (runConditional policy).run r =
      (Condition.compare policy (String.ofList c.left) (String.ofList c.operator) (String.ofList c.right)).run
        { r with place := r.place.pastWord.pastWord.pastWord } := by
  subst hahead
  have hsecond : Run.rest { r with place := r.place.pastWord } = dropToken r.rest := r.place.rest_pastWord
  have hthird : Run.rest { r with place := r.place.pastWord.pastWord } = dropToken (dropToken r.rest) := by
    rw [← hsecond]
    exact r.place.pastWord.rest_pastWord
  rw [runConditional, run_bind_of (readWord_plain rfl hc.left), run_bind_of (readWord_plain hsecond hc.operator),
    run_bind_of (readWord_plain hthird hc.right)]
  rfl

/-- What is done by a comparison without tildes: the outcome is up to its words, and the values it is made of
decide about the place. -/
theorem runConditional_outcome (policy : WrongTypePolicy) {r : Run} {c : Comparison} (hahead : .ahead r.rest = c)
    (hc : c.Plain) :
    let past := r.place.pastWord.pastWord.pastWord
    ∃ outcome journal, (runConditional policy).run r =
      (outcome,
        { r with
          place := if c.holds policy r then past else past.readTo (Reading.skipGuarded past.rest)
          journal }) ∧
      (outcome = .failed ∧ c.Senseless ∨ outcome = .success ∧ ¬c.Senseless) := by
  intro past
  obtain ⟨journal, hrun⟩ := Condition.compare_run policy (String.ofList c.left) (String.ofList c.operator)
    (String.ofList c.right) { r with place := past }
  rw [Condition.holdsOf_congr (SameScene.moved r past r.journal)] at hrun
  refine ⟨_, journal, (runConditional_plain policy hahead hc).trans hrun, ?_⟩
  rw [Comparison.senseless_iff hc]
  rcases Condition.isSound _ _ _ _ <;> simp

/-- An `if` fails exactly if its words make no sense, which no variable has a part in; with a literal on the
right only the operator can be wrong. The place ends behind the three words if the comparison holds, and
otherwise behind the statement that is passed over from there; nothing else is changed but the journal. -/
theorem runConditional_decided (policy : WrongTypePolicy) {r : Run} (hplain : (Comparison.ahead r.rest).Plain) :
    let c := Comparison.ahead r.rest
    let done := (runConditional policy).run r
    let past := r.place.pastWord.pastWord.pastWord
    (done.1 = .failed ↔ c.Senseless) ∧ (done.1 = .success ↔ ¬c.Senseless) ∧
      (c.rightSpace = .literal → (done.1 = .failed ↔ c.operator? = none)) ∧
      (∀ s : Run, s.rest = r.rest → ((runConditional policy).run s).1 = done.1) ∧
      past.rest = dropOperands r.rest ∧
      ∃ journal, done.2 =
        { r with
          place := if c.holds policy r then past else past.readTo (Reading.skipGuarded past.rest)
          journal } := by
  intro c done past
  obtain ⟨outcome, journal, hrun, hdecided⟩ := runConditional_outcome policy rfl hplain
  have hfailed : outcome = .failed ↔ c.Senseless := by
    rcases hdecided with ⟨rfl, hc⟩ | ⟨rfl, hc⟩ <;> simp [c, hc]
  have hsuccess : outcome = .success ↔ ¬c.Senseless := by
    rcases hdecided with ⟨rfl, hc⟩ | ⟨rfl, hc⟩ <;> simp [c, hc]
  have hdone : done = _ := hrun
  rw [hdone]
  refine ⟨hfailed, hsuccess, fun hliteral => ?_, fun s hs => ?_, ?_, journal, rfl⟩
  · rw [hfailed]
    exact Comparison.senseless_of_literal hliteral
  · obtain ⟨other, _, hother, hsame⟩ := runConditional_outcome policy (congrArg Comparison.ahead hs) hplain
    rw [hother]
    rcases hsame with ⟨rfl, hc⟩ | ⟨rfl, hc⟩
    · exact (hfailed.2 hc).symm
    · exact (hsuccess.2 hc).symm
  · rw [Text.Place.rest_pastWord, Text.Place.rest_pastWord, Text.Place.rest_pastWord]
    rfl

def doubter : Run where
  script := .ofText "doubter" ""
  place := { rest := " 1 == $name accept\nnop".toList }
  owner := none
  own := .fresh 0
  shared :=
    { globals := .withCapacity 0, timers := .withCapacity 0, random := .ofSeed 0, maxCallDepth := 1 }
  world := {}
  sender := none

theorem runConditional_decided_doubter :
    (Comparison.ahead doubter.rest).Plain ∧ ((runConditional .legacy).run doubter).1 = .failed := by
  have hahead : Comparison.ahead doubter.rest = ⟨"1".toList, "==".toList, "$name".toList⟩ := by decide +kernel
  have hplain : (Comparison.ahead doubter.rest).Plain := by
    rw [hahead]
    constructor <;> decide +kernel
  obtain ⟨hfailed, -⟩ := runConditional_decided .legacy hplain
  refine ⟨hplain, hfailed.2 ?_⟩
  rw [hahead]
  exact .inr ⟨_, rfl, .text, rfl, by decide⟩

end Exec

end EntityScript
