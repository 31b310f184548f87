import EntityScript.Proofs.Cursor

/-! The index of a script. A text is gone through by the places where its lines begin, and what the
index has of a header is its first position among those. -/

namespace EntityScript

open Reading Text

namespace Text

/-- What is left of the text at the beginning of each line but the first. -/
def startsBelow : List Char → List (List Char)
  | [] => []
  | c :: rest => if c = '\n' then rest :: startsBelow rest else startsBelow rest

def lineStarts (text : List Char) : List (List Char) := text :: startsBelow text

theorem startsBelow_eq (cs : List Char) :
    startsBelow cs = match dropLine cs with
      | [] => []
      | _ :: rest => lineStarts rest := by
  induction cs with
  | nil => rfl
  | cons c cs ih =>
    rw [startsBelow]
    split
    · rename_i hc
      rw [hc]
      rfl
    · rename_i hc
      rw [ih, dropLine, dropLine, List.dropWhile_cons_of_pos (by simpa using hc)]

theorem break_suffix_of_mem {start cs : List Char} (h : start ∈ startsBelow cs) : '\n' :: start <:+ cs := by
  induction cs with
  | nil => cases h
  | cons c cs ih =>
    rw [startsBelow] at h
    split at h
    · rename_i hc
      subst hc
      rcases List.mem_cons.1 h with rfl | h
      · exact List.suffix_refl _
      · exact (ih h).trans (List.suffix_cons ..)
    · exact (ih h).trans (List.suffix_cons ..)

theorem suffix_of_mem_lineStarts {start cs : List Char} (h : start ∈ lineStarts cs) : start <:+ cs := by
  rcases List.mem_cons.1 h with rfl | h
  · exact List.suffix_refl _
  · exact (List.suffix_cons ..).trans (break_suffix_of_mem h)

theorem eq_of_size_eq {front rest : List Char} (h : size (front ++ rest) = size rest) : front = [] := by
  cases front with
  | nil => rfl
  | cons c front =>
    have hpos := c.utf8Size_pos
    rw [List.cons_append, size, size_append] at h
    omega

/-- An ending of a text is known by its position. -/
theorem eq_of_positionOf_eq {text as bs : List Char} (ha : as <:+ text) (hb : bs <:+ text)
    (h : positionOf text as = positionOf text bs) : as = bs := by
  have hsize : size as = size bs := by
    have hasize := size_le_of_suffix ha
    have hbsize := size_le_of_suffix hb
    unfold positionOf at h
    omega
  rcases List.suffix_or_suffix_of_suffix ha hb with ⟨front, rfl⟩ | ⟨front, rfl⟩
  · rw [eq_of_size_eq hsize.symm, List.nil_append]
  · rw [eq_of_size_eq hsize, List.nil_append]

/-- A line that begins further on has nothing of an earlier line. -/
theorem eq_of_suffix_of_onLine {text as bs rest : List Char} (ha : as <:+ text) (hb : bs ∈ lineStarts text)
    (hsuffix : bs <:+ as) (harest : OnLine as rest) (hbrest : OnLine bs rest) : as = bs := by
  rcases List.mem_cons.1 hb with rfl | hb
  · exact ha.eq_of_length_le hsuffix.length_le
  by_contra hne
  have hlt : bs.length < as.length :=
    Nat.lt_of_le_of_ne hsuffix.length_le fun h => hne (hsuffix.eq_of_length h).symm
  have hbreak : '\n' :: bs <:+ as := List.suffix_of_suffix_length_le (break_suffix_of_mem hb) ha hlt
  have hlength := ((harest.keeps_break hbreak).trans hbrest.suffix).length_le
  rw [List.length_cons] at hlength
  omega

/-- One place of a text is on one line. -/
theorem eq_of_mem_lineStarts {text as bs rest : List Char} (ha : as ∈ lineStarts text)
    (hb : bs ∈ lineStarts text) (harest : OnLine as rest) (hbrest : OnLine bs rest) : as = bs := by
  have hasuffix := suffix_of_mem_lineStarts ha
  have hbsuffix := suffix_of_mem_lineStarts hb
  rcases List.suffix_or_suffix_of_suffix hasuffix hbsuffix with h | h
  · exact (eq_of_suffix_of_onLine hbsuffix ha h hbrest harest).symm
  · exact eq_of_suffix_of_onLine hasuffix hb h harest hbrest

end Text

namespace Header

/-- The header on the line that the text begins with here, with the position after it. -/
def here? (text cs : List Char) : Option (Header × Nat) :=
  (read? (cs.takeWhile (· != '\n'))).map fun (header, rest) =>
    (header, positionOf text (rest ++ dropLine cs))

theorem ofLines_eq (before cs : List Char) :
    ofLines (size before) (lines cs) = (lineStarts cs).filterMap (here? (before ++ cs)) := by
  have hsplit : cs.takeWhile (· != '\n') ++ dropLine cs = cs := List.takeWhile_append_dropWhile
  have hlater : ofLines (size before + size (cs.takeWhile (· != '\n')) + 1)
      (match dropLine cs with
        | [] => []
        | _ :: rest => lines rest) = (startsBelow cs).filterMap (here? (before ++ cs)) := by
    rw [startsBelow_eq]
    cases hdrop : dropLine cs with
    | nil => rfl
    | cons c rest =>
      have hc : c = '\n' := eq_of_dropWhile_ne hdrop
      rw [hdrop] at hsplit
      have hlt : rest.length < cs.length := by
        rw [← hsplit, List.length_append, List.length_cons]
        omega
      have hlines := ofLines_eq (before ++ cs.takeWhile (· != '\n') ++ ['\n']) rest
      rw [size_append, size_append] at hlines
      have htext : before ++ cs.takeWhile (· != '\n') ++ ['\n'] ++ rest = before ++ cs := by
        rw [hc] at hsplit
        rw [List.append_assoc, List.append_assoc, List.singleton_append, hsplit]
      rw [htext] at hlines
      exact hlines
  rw [lines_cons, ofLines, lineStarts, List.filterMap_cons, here?]
  cases hread : read? (cs.takeWhile (· != '\n')) with
  | none => exact hlater
  | some found =>
    obtain ⟨header, rest⟩ := found
    obtain ⟨front, hline⟩ := read?_suffix hread
    have hposition : positionOf (before ++ cs) (rest ++ dropLine cs) =
        size before + positionOf (cs.takeWhile (· != '\n')) rest := by
      have hcs : before ++ cs = (before ++ front) ++ (rest ++ dropLine cs) := by
        rw [List.append_assoc, ← List.append_assoc front, hline, hsplit]
      rw [hcs, positionOf_append, ← hline, positionOf_append, size_append]
    simp only [Option.map_some, hposition]
    exact congrArg _ hlater
termination_by cs.length

theorem all_eq (text : List Char) : all text = (lineStarts text).filterMap (here? text) :=
  ofLines_eq [] text

end Header

theorem get?_foldl_firstPositions (found : List (String × Nat)) (index : Dict String Nat) (name : String) :
    (found.foldl (fun index (name, position) =>
      if index.contains name then index else index.set name position) index).get? name =
      (index.get? name).or (Dict.find? name found) := by
  induction found generalizing index with
  | nil => simp [Dict.find?]
  | cons first found ih =>
    obtain ⟨firstName, firstPosition⟩ := first
    rw [List.foldl_cons, ih, Dict.find?]
    by_cases hname : firstName = name
    · subst hname
      cases hget : index.get? firstName with
      | none => simp [Dict.contains, hget, Dict.get?_set]
      | some position => simp [Dict.contains, hget]
    · rw [if_neg hname]
      congr 1
      dsimp only
      split
      · rfl
      · rw [Dict.get?_set, if_neg hname]

/-- The index keeps the first position of each name. -/
theorem get?_firstPositions (found : List (String × Nat)) (name : String) :
    (firstPositions found).get? name = Dict.find? name found := by
  rw [firstPositions, get?_foldl_firstPositions]
  rfl

namespace Header

/-- Among the headers of one kind, a name leads to the first header that has it. -/
theorem find?_filterMap {pick : Header × Nat → Option (String × Nat)} {make : String → Header}
    (hpick : ∀ header position name found,
      pick (header, position) = some (name, found) ↔ header = make name ∧ position = found)
    (hmake : ∀ {n m}, make n = make m → n = m) (found : List (Header × Nat)) (name : String) :
    Dict.find? name (found.filterMap pick) = (found.find? (·.1 == make name)).map (·.2) := by
  induction found with
  | nil => rfl
  | cons first found ih =>
    obtain ⟨header, position⟩ := first
    cases hfirst : pick (header, position) with
    | none =>
      have hne : header ≠ make name := fun h => by
        rw [(hpick header position name position).2 ⟨h, rfl⟩] at hfirst
        cases hfirst
      rw [List.filterMap_cons_none hfirst, ih, List.find?_cons, beq_eq_false_iff_ne.2 hne]
    | some picked =>
      obtain ⟨other, otherPosition⟩ := picked
      obtain ⟨rfl, rfl⟩ := (hpick header position other otherPosition).1 hfirst
      rw [List.filterMap_cons_some hfirst, Dict.find?, ih, List.find?_cons]
      by_cases hname : other = name
      · simp [hname]
      · rw [if_neg hname, beq_eq_false_iff_ne.2 fun h => hname (hmake h)]

theorem event?_eq_some (header : Header) (position : Nat) (name : String) (found : Nat) :
    event? (header, position) = some (name, found) ↔ header = event name ∧ position = found := by
  cases header <;> simp [event?]

theorem label?_eq_some (header : Header) (position : Nat) (name : String) (found : Nat) :
    label? (header, position) = some (name, found) ↔ header = label name ∧ position = found := by
  cases header <;> simp [label?]

end Header

/-- Where the script has the header, as those say who ask for a handler or go to a label. -/
def Script.position? (s : Script) : Header → Option Nat
  | .event name => s.findEvent? name
  | .label name => s.findLabel? name

/-- The header without a marker before the name of a label. -/
def Header.bare : Header → Header
  | event name => event name
  | label name => label (Script.bareLabel name)

def Header.folded : Header → Header
  | event name => event (lowercase name)
  | label name => label (lowercase name)

theorem Header.bare_marked (more : String) : bare (label (">>" ++ more)) = label more := by
  have hlist : (">>" ++ more).toList = '>' :: '>' :: more.toList := by simp
  rw [bare, Script.bareLabel, hlist]
  simp

theorem Header.bare_eq_self {header : Header} (h : ∀ more, header ≠ label (">>" ++ more)) :
    header.bare = header := by
  cases header with
  | event name => rfl
  | label name =>
    rw [bare, Script.bareLabel]
    split
    · rename_i more hname
      refine absurd (congrArg label ?_) (h (String.ofList more))
      rw [← String.toList_inj, hname]
      simp
    · rfl

theorem Script.position?_ofText (name text : String) (header : Header) :
    (ofText name text).position? header =
      (((lineStarts text.toList).filterMap (Header.here? text.toList)).find?
        (·.1 == header.bare.folded)).map (·.2) := by
  rw [← Header.all_eq]
  cases header with
  | event name =>
    exact (get?_firstPositions ..).trans
      (Header.find?_filterMap Header.event?_eq_some (fun h => Header.event.inj h) ..)
  | label name =>
    exact (get?_firstPositions ..).trans
      (Header.find?_filterMap Header.label?_eq_some (fun h => Header.label.inj h) ..)

end EntityScript
