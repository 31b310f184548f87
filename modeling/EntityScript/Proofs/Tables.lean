import EntityScript.Command.Console
import EntityScript.Proofs.Wholes

/-! A table of variables after a history of edits: as small as its capacity, as typed as its sigils demand, and
with the value under every name that was last given to it. Histories are lists with the latest edit in front,
so that a history is an edit and what was before. -/

namespace EntityScript

inductive VariableForm
  | integer
  | float
  | text
deriving DecidableEq

/-- The number without what is behind its point, held within 64 bits. -/
def whole (x : Float32) : Int := Binary32.wholeWithin (-2 ^ 63) (2 ^ 63 - 1) x

namespace VariableForm

/-- The form that the first character of a name demands. -/
def of? (name : String) : Option VariableForm :=
  match name.toList with
  | '#' :: _ | '§' :: _ => some integer
  | '&' :: _ | '@' :: _ => some float
  | '$' :: _ | '£' :: _ => some text
  | _ => none

def ofVariable : Variable → VariableForm
  | .integer _ => integer
  | .float _ => float
  | .text _ => text

/-- The value as it is held. A text counts for the number it starts with. -/
def hold : VariableForm → Value → Variable
  | integer, .text s => .integer (whole (Number.parse s))
  | integer, .number x => .integer (whole x)
  | float, .text s => .float (Number.parse s)
  | float, .number x => .float x
  | text, .text s => .text s
  | text, .number x => .text (Number.format x)

theorem ofVariable_hold (form : VariableForm) (value : Value) : ofVariable (form.hold value) = form := by
  cases form <;> cases value <;> rfl

/-- A variable holds a value in the form that its name demands. -/
theorem ofValue?_eq (name : String) (value : Value) :
    Variable.ofValue? (.of name) value = (of? name).map (·.hold value) := by
  have hwhole : ∀ x, Binary32.toInt64 x = whole x := Binary32.toInt64_eq
  unfold Namespace.of of?
  split <;> cases value <;> simp_all [Variable.ofValue?, hold, Value.toNumber, Value.toText]

end VariableForm

inductive Edit
  | assign (name : String) (value : Value)
  | remove (name : String)
  | clear

def Edit.IsAside (name : String) : Edit → Prop
  | .assign other _ | .remove other => other ≠ name
  | .clear => False

def Run.table (r : Run) (name : String) : VariableTable :=
  if (Namespace.of name).isLocal then r.own.locals else r.shared.globals

namespace VariableTable

variable {t u : VariableTable} {name other : String} {value : Value} {form : VariableForm} {failure : Failure}

/-- An assignment that fails leaves the table as it is. -/
def edited (t : VariableTable) : Edit → VariableTable
  | .assign name value => (t.assign name value).toOption.getD t
  | .remove name => t.remove name
  | .clear => t.clear

def after (capacity : Nat) : List Edit → VariableTable
  | [] => withCapacity capacity
  | edit :: before => (after capacity before).edited edit

/-- The value that was given to a name last, unless it was taken out of the table since. Only what the table
has accepted is given. -/
def given? (capacity : Nat) (name : String) : List Edit → Option Value
  | [] => none
  | .assign other value :: before =>
    if other = name ∧ ((after capacity before).assign other value).toOption.isSome = true then some value
    else given? capacity name before
  | .remove other :: before => if other = name then none else given? capacity name before
  | .clear :: _ => none

section Assign

theorem assign_of_none (h : VariableForm.of? name = none) : t.assign name value = .error (.notAVariable name) := by
  rw [assign, VariableForm.ofValue?_eq, h]
  rfl

theorem assign_of_some (h : VariableForm.of? name = some form) :
    t.assign name value =
      if t.get? name = none ∧ t.capacity ≤ t.size then .error (.tableFull name t.capacity)
      else .ok { t with vars := t.vars.set name (form.hold value) } := by
  rw [assign, VariableForm.ofValue?_eq, h]
  simp [Dict.contains, get?]
  rfl

/-- An assignment fails for want of a sigil, or for want of room if the name is new. -/
theorem assign_eq_error_iff :
    t.assign name value = .error failure ↔
      if (VariableForm.of? name).isSome then
        t.get? name = none ∧ t.capacity ≤ t.size ∧ failure = .tableFull name t.capacity
      else failure = .notAVariable name := by
  rcases hform : VariableForm.of? name with _ | form
  · rw [assign_of_none hform]
    simp [eq_comm]
  · rw [assign_of_some hform, Option.isSome_some, if_pos rfl]
    split
    · rename_i hfull
      simp [hfull, eq_comm]
    · rename_i hroom
      simp only [reduceCtorEq, false_iff]
      exact fun h => hroom ⟨h.1, h.2.1⟩

/-- What an assignment that succeeds stores, and that there was room. -/
theorem assign_eq_ok (h : t.assign name value = .ok u) :
    ∃ form, VariableForm.of? name = some form ∧ u = { t with vars := t.vars.set name (form.hold value) } ∧
      (t.get? name = none → t.size < t.capacity) := by
  rcases hform : VariableForm.of? name with _ | form
  · rw [assign_of_none hform] at h
    cases h
  · rw [assign_of_some hform] at h
    split at h
    · cases h
    · rename_i hroom
      cases h
      refine ⟨form, rfl, rfl, fun hnew => ?_⟩
      apply Nat.lt_of_not_le
      intro hfull
      exact hroom ⟨hnew, hfull⟩

theorem get?_assign (h : t.assign name value = .ok u) :
    u.get? other = if name = other then (VariableForm.of? name).map (·.hold value) else t.get? other := by
  obtain ⟨form, hform, rfl, -⟩ := assign_eq_ok h
  rw [get?, Dict.get?_set, hform]
  rfl

theorem size_assign_le (h : t.assign name value = .ok u) (ht : t.size ≤ t.capacity) : u.size ≤ t.capacity := by
  obtain ⟨form, -, rfl, hroom⟩ := assign_eq_ok h
  rw [size, Dict.size_set]
  split
  · exact ht
  · rename_i hnew
    apply hroom
    rw [get?, ← Option.not_isSome_iff_eq_none]
    exact hnew

end Assign

section Edited

/-- A run that cannot store a value goes on with the tables that it has. -/
theorem store_of_error {r : Run} (h : (r.table name).assign name value = .error failure) :
    let done := (Exec.store name value).run r
    done.1 = .failed ∧ done.2.own.locals = r.own.locals ∧ done.2.shared.globals = r.shared.globals := by
  have hrun : (Exec.store name value).run r = (Exec.note (.refused failure) >>= fun _ => pure .failed).run r := by
    unfold Run.table at h
    simp only [Exec.store, StateT.run_bind, StateT.run_get, pure_bind]
    cases hlocal : (Namespace.of name).isLocal with
    | true =>
      rw [hlocal, if_pos rfl] at h
      rw [if_pos rfl, h]
      rfl
    | false =>
      rw [hlocal, if_neg Bool.false_ne_true] at h
      rw [if_neg Bool.false_ne_true, h]
      rfl
  rw [hrun]
  exact ⟨rfl, rfl, rfl⟩

theorem edited_of_error (h : t.assign name value = .error failure) : t.edited (.assign name value) = t := by
  rw [edited, h]
  rfl

theorem edited_of_ok (h : t.assign name value = .ok u) : t.edited (.assign name value) = u := by
  rw [edited, h]
  rfl

/-- The table has no more names than it has room for, and each has a variable of its kind. -/
structure Tidy (t : VariableTable) : Prop where
  bounded : t.size ≤ t.capacity
  typed : ∀ name stored, t.get? name = some stored → VariableForm.of? name = some (.ofVariable stored)

theorem tidy_withCapacity (capacity : Nat) : (withCapacity capacity).Tidy where
  bounded := Nat.zero_le _
  typed name stored h := by
    rw [get?, withCapacity, Dict.get?_empty] at h
    cases h

theorem capacity_edited (t : VariableTable) (edit : Edit) : (t.edited edit).capacity = t.capacity := by
  cases edit with
  | assign name value =>
    rcases h : t.assign name value with failure | u
    · rw [edited_of_error h]
    · obtain ⟨form, -, hu, -⟩ := assign_eq_ok h
      rw [edited_of_ok h, hu]
  | remove name => rfl
  | clear => rfl

theorem tidy_edited (ht : t.Tidy) (edit : Edit) : (t.edited edit).Tidy := by
  cases edit with
  | assign name value =>
    rcases h : t.assign name value with failure | u
    · rw [edited_of_error h]
      exact ht
    · have hcapacity := capacity_edited t (.assign name value)
      rw [edited_of_ok h] at hcapacity ⊢
      refine ⟨?_, fun other stored hstored => ?_⟩
      · rw [hcapacity]
        exact size_assign_le h ht.bounded
      · rw [get?_assign h] at hstored
        split at hstored
        · rename_i hname
          obtain ⟨form, hform, rfl⟩ := Option.map_eq_some_iff.1 hstored
          rw [← hname, hform, VariableForm.ofVariable_hold]
        · exact ht.typed other stored hstored
  | remove name =>
    refine ⟨Nat.le_trans (Dict.size_erase_le _ _) ht.bounded, fun other stored hstored => ?_⟩
    rw [edited, get?, remove, Dict.get?_erase] at hstored
    split at hstored
    · cases hstored
    · exact ht.typed other stored hstored
  | clear => exact tidy_withCapacity t.capacity

/-- A name is only changed by edits that are about it. -/
theorem get?_edited_aside {edit : Edit} (h : edit.IsAside name) : (t.edited edit).get? name = t.get? name := by
  cases edit with
  | assign other value =>
    rcases hassign : t.assign other value with failure | u
    · rw [edited_of_error hassign]
    · rw [edited_of_ok hassign, get?_assign hassign, if_neg h]
  | remove other =>
    rw [edited, get?, remove, Dict.get?_erase, if_neg h]
    rfl
  | clear => cases h

end Edited

section History

variable {capacity : Nat} {edits : List Edit}

theorem capacity_after : (after capacity edits).capacity = capacity := by
  induction edits with
  | nil => rfl
  | cons edit before ih =>
    rw [after, capacity_edited]
    exact ih

theorem tidy_after : (after capacity edits).Tidy := by
  induction edits with
  | nil => exact tidy_withCapacity capacity
  | cons edit before ih => exact tidy_edited ih edit

/-- What is found under a name is what was given to it, in the form its sigil demands. -/
theorem get?_after (name : String) :
    (after capacity edits).get? name =
      (given? capacity name edits).bind fun value => (VariableForm.of? name).map (·.hold value) := by
  induction edits with
  | nil => rfl
  | cons edit before ih =>
    -- an edit that is not about this name changes neither side
    by_cases haside : edit.IsAside name
    · rw [after, get?_edited_aside haside, ih]
      cases edit with
      | assign other value => rw [given?, if_neg (fun h => haside h.1)]
      | remove other => rw [given?, if_neg haside]
      | clear => cases haside
    · cases edit with
      | assign other value =>
        obtain rfl : other = name := Decidable.not_not.1 haside
        rcases h : (after capacity before).assign other value with failure | u
        · rw [after, edited_of_error h, given?, h, if_neg (fun hok => nomatch hok.2), ih]
        · rw [after, edited_of_ok h, given?, h, if_pos ⟨rfl, rfl⟩, get?_assign h, if_pos rfl]
          rfl
      | remove other =>
        obtain rfl : other = name := Decidable.not_not.1 haside
        rw [after, edited, get?, remove, Dict.get?_erase, if_pos rfl, given?, if_pos rfl]
        rfl
      | clear => rfl

/-- Something is found under every name that was given a value. -/
theorem isSome_get?_after (name : String) :
    ((after capacity edits).get? name).isSome = (given? capacity name edits).isSome := by
  have hgiven : ∀ value, given? capacity name edits = some value → VariableForm.of? name ≠ none := by
    intro value h
    induction edits with
    | nil => cases h
    | cons edit before ih =>
      cases edit with
      | assign other given =>
        rw [given?] at h
        split at h
        · rename_i hok
          obtain ⟨rfl, hsome⟩ := hok
          rcases hassign : (after capacity before).assign other given with failure | u
          · rw [hassign] at hsome
            cases hsome
          · obtain ⟨form, hform, -⟩ := assign_eq_ok hassign
            rw [hform]
            exact Option.some_ne_none form
        · exact ih h
      | remove other =>
        rw [given?] at h
        split at h
        · cases h
        · exact ih h
      | clear => cases h
  rw [get?_after]
  rcases h : given? capacity name edits with _ | value
  · rfl
  · obtain ⟨form, hform⟩ := Option.ne_none_iff_exists'.1 (hgiven value h)
    rw [Option.bind_some, hform]
    rfl

/-- What is read of the name where this is found under it. -/
def Reads (t : VariableTable) (name : String) : Option Variable → Prop
  | none => t.integer name = 0 ∧ t.float name = 0 ∧ t.text name = ""
  | some (.integer n) => t.integer name = n ∧ t.float name = Binary32.ofInt n ∧ t.text name = toString n
  | some (.float x) => t.integer name = whole x ∧ t.float name = x ∧ t.text name = Number.format x
  | some (.text s) => t.integer name = whole (Number.parse s) ∧ t.float name = Number.parse s ∧ t.text name = s

theorem reads_get? (t : VariableTable) (name : String) : t.Reads name (t.get? name) := by
  unfold Reads integer float text
  rcases t.get? name with _ | n | x | s
  · exact ⟨rfl, rfl, rfl⟩
  · exact ⟨rfl, rfl, rfl⟩
  · exact ⟨Binary32.toInt64_eq x, rfl, rfl⟩
  · exact ⟨Binary32.toInt64_eq (Number.parse s), rfl, rfl⟩

/-- After every history the table is within its capacity, and each name in it has a variable of the form its
sigil demands. An assignment fails for want of a sigil, or for want of room if the name is new, and then changes
nothing, in a run neither. Under every name stands what was given to it last. -/
theorem history_kept (capacity : Nat) (edits : List Edit) :
    let t := after capacity edits
    t.capacity = capacity ∧ t.size ≤ capacity ∧
      (∀ name stored, t.get? name = some stored → VariableForm.of? name = some (.ofVariable stored)) ∧
      (∀ name value failure, t.assign name value = .error failure ↔
        if (VariableForm.of? name).isSome then
          t.get? name = none ∧ t.size = capacity ∧ failure = .tableFull name capacity
        else failure = .notAVariable name) ∧
      (∀ name value failure, t.assign name value = .error failure →
        t.edited (.assign name value) = t ∧
        ∀ r : Run, r.table name = t →
          let done := (Exec.store name value).run r
          done.1 = .failed ∧ done.2.own.locals = r.own.locals ∧ done.2.shared.globals = r.shared.globals) ∧
      (∀ name stored value, t.get? name = some stored → ∃ u, t.assign name value = .ok u) ∧
      ∀ name,
        let stored := (given? capacity name edits).bind fun value => (VariableForm.of? name).map (·.hold value)
        t.get? name = stored ∧ stored.isSome = (given? capacity name edits).isSome ∧ t.Reads name stored ∧
          ∀ edit : Edit, edit.IsAside name → (t.edited edit).get? name = t.get? name := by
  intro t
  have hcapacity : t.capacity = capacity := capacity_after
  have htidy : t.Tidy := tidy_after
  have hbounded := htidy.bounded
  rw [hcapacity] at hbounded
  refine ⟨hcapacity, hbounded, htidy.typed, fun name value failure => ?_,
    fun name value failure h => ⟨edited_of_error h, fun r hr => store_of_error (hr ▸ h)⟩,
    fun name stored value hstored => ?_, fun name => ?_⟩
  · have hfull : capacity ≤ t.size ↔ t.size = capacity := by omega
    rw [assign_eq_error_iff, hcapacity, hfull]
  · rcases h : t.assign name value with failure | u
    · rw [assign_eq_error_iff, htidy.typed name stored hstored, if_pos Option.isSome_some, hstored] at h
      cases h.1
    · exact ⟨u, rfl⟩
  · have hget : t.get? name = _ := get?_after name
    rw [← hget]
    exact ⟨rfl, isSome_get?_after name, reads_get? t name, fun edit haside => get?_edited_aside haside⟩

def ledger : List Edit := [
  .assign "@e" (.text "0.5 left"),
  .remove "&b",
  .assign "#d" (.number 1),
  .assign "plain" (.number 1),
  .assign "#a" (.number (-3.5)),
  .assign "$c" (.number 2.5),
  .assign "&b" (.text "7"),
  .assign "#a" (.text "12 apples")]

theorem history_kept_ledger :
    let t := after 3 ledger
    (t.integer "#a" = -3 ∧ t.float "#a" = -3 ∧ t.text "#a" = "-3") ∧
      (t.integer "&b" = 0 ∧ t.float "&b" = 0 ∧ t.text "&b" = "") ∧
      (t.integer "$c" = 2 ∧ t.float "$c" = 2.5 ∧ t.text "$c" = "2.5") ∧
      (t.integer "@e" = 0 ∧ t.float "@e" = 0.5 ∧ t.text "@e" = "0.5") ∧
      t.assign "#d" (.number 1) = .error (.tableFull "#d" 3) ∧
      t.assign "plain" (.number 1) = .error (.notAVariable "plain") := by
  intro t
  obtain ⟨-, -, -, hfails, -, -, hnames⟩ := history_kept 3 ledger
  have hreads : ∀ name stored,
      ((given? 3 name ledger).bind fun value => (VariableForm.of? name).map (·.hold value)) = stored →
        t.Reads name stored := by
    rintro name _ rfl
    exact (hnames name).2.2.1
  have hfloat : Binary32.ofInt (-3) = -3 := by decide +kernel
  have hparse : whole (Number.parse "2.5") = 2 ∧ Number.parse "2.5" = 2.5 := by decide +kernel
  have hformat : whole 0.5 = 0 ∧ Number.format 0.5 = "0.5" := by decide +kernel
  obtain ⟨ha, ha', ha''⟩ := hreads "#a" (some (.integer (-3))) (by decide +kernel)
  have hb := hreads "&b" none (by decide +kernel)
  obtain ⟨hc, hc', hc''⟩ := hreads "$c" (some (.text "2.5")) (by decide +kernel)
  obtain ⟨he, he', he''⟩ := hreads "@e" (some (.float 0.5)) (by decide +kernel)
  refine ⟨⟨ha, ha'.trans hfloat, ha''⟩, hb, ⟨hc.trans hparse.1, hc'.trans hparse.2, hc''⟩,
    ⟨he.trans hformat.1, he', he''.trans hformat.2⟩, ?_, ?_⟩
  · exact (hfails "#d" _ _).2 ⟨by decide +kernel, by decide +kernel, rfl⟩
  · exact (hfails "plain" _ _).2 rfl

end History

end VariableTable

end EntityScript
