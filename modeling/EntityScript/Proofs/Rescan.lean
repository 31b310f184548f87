import EntityScript.Proofs.Headers

/-! The index of a script against its text. A header is written at the beginning of a line, behind nothing
but separators: the word `on` and the name of an event, or a marker with the name of a label. For every
name the index has the place behind the first such header that there is in the text, as whoever goes
through the lines anew would find it, and what stands on later lines has no say: `position?_rescan`. -/

namespace EntityScript

open Reading Text

namespace Text

theorem mem_startsBelow_iff {text start : List Char} : start ∈ startsBelow text ↔ '\n' :: start <:+ text := by
  refine ⟨break_suffix_of_mem, ?_⟩
  rintro ⟨lines, rfl⟩
  induction lines with
  | nil => exact List.mem_cons_self
  | cons c lines ih =>
    rw [List.cons_append, startsBelow]
    split
    · exact List.mem_cons_of_mem _ ih
    · exact ih

/-- A line begins with the text, or behind a line break. -/
theorem mem_lineStarts_iff {text start : List Char} :
    start ∈ lineStarts text ↔
      ∃ above, text = above ++ start ∧ (above = [] ∨ ∃ lines, above = lines ++ ['\n']) := by
  rw [lineStarts, List.mem_cons, mem_startsBelow_iff]
  constructor
  · rintro (rfl | ⟨lines, rfl⟩)
    · exact ⟨[], rfl, .inl rfl⟩
    · exact ⟨lines ++ ['\n'], by simp, .inr ⟨lines, rfl⟩⟩
  · rintro ⟨above, rfl, rfl | ⟨lines, rfl⟩⟩
    · exact .inl rfl
    · exact .inr ⟨lines, by simp⟩

/-- Less and less of the text is left from line to line. -/
theorem lineStarts_pairwise (text : List Char) : (lineStarts text).Pairwise fun as bs => bs.length < as.length := by
  induction text with
  | nil => exact List.pairwise_singleton _ _
  | cons c text ih =>
    refine List.pairwise_cons.2 ⟨fun start hstart => (mem_startsBelow_iff.1 hstart).length_le, ?_⟩
    rw [startsBelow]
    split
    · exact ih
    · exact (List.pairwise_cons.1 ih).2

def extent : List (List Char) → Nat
  | [] => 0
  | line :: more => size line + 1 + extent more

theorem extent_lines (text : List Char) : extent (lines text) = size text + 1 := by
  induction text with
  | nil => rfl
  | cons c text ih =>
    rw [lines] at ih
    rw [lines, pieces, size]
    split
    · rename_i hc
      obtain rfl : c = '\n' := by simpa using hc
      have hbreak : ('\n').utf8Size = 1 := rfl
      simp only [extent, size] at ih ⊢
      omega
    · obtain ⟨piece, more, hpieces⟩ := List.exists_cons_of_ne_nil (pieces_ne_nil (· == '\n') text)
      rw [hpieces] at ih ⊢
      simp only [extent, size] at ih ⊢
      omega

end Text

namespace Header

variable {header : Header} {line word left cs text : List Char} {position : Nat}

/-- What the header looks like in a text. -/
inductive Written : Header → List Char → Prop
  | event {blanks on gap word : List Char} (hblanks : ∀ c ∈ blanks, isSeparator c = true)
    (hon : sameAsciiCaseless (String.ofList on) "on" = true) (hgap : ∀ c ∈ gap, isSeparator c = true)
    (hapart : gap ≠ []) (hword : ∀ c ∈ word, isWordChar c = true) (hne : word ≠ []) :
    Written (event (lowercase (String.ofList word))) (blanks ++ (on ++ (gap ++ word)))
  | label {blanks word : List Char} (hblanks : ∀ c ∈ blanks, isSeparator c = true)
    (hword : ∀ c ∈ word, isWordChar c = true) :
    Written (label (lowercase (String.ofList word))) (blanks ++ '>' :: '>' :: word)

/-- The text has the header as it is written, at the beginning of the line below `above`. -/
structure Stands (text : List Char) (header : Header) (above written rest : List Char) : Prop where
  text_eq : text = above ++ (written ++ rest)
  lineStart : above = [] ∨ ∃ lines, above = lines ++ ['\n']
  written : header.Written written
  /-- The last word of the header ends here. -/
  ends : StopsToken rest

/-- At `position` ends the first of the headers like this one that stand in the text. -/
def FirstEndsAt (text : List Char) (header : Header) (position : Nat) : Prop :=
  ∃ above written rest, Stands text header above written rest ∧ position = size (above ++ written) ∧
    ∀ above' written' rest', Stands text header above' written' rest' → above.length ≤ above'.length

theorem takeWord_eq_iff (hne : word ≠ []) :
    takeWord line = (word, left) ↔
      ∃ blanks, line = blanks ++ (word ++ left) ∧ (∀ c ∈ blanks, isSeparator c = true) ∧
        (∀ c ∈ word, isSeparator c = false) ∧ ∀ c ∈ left.head?, isSeparator c = true := by
  constructor
  · rintro ⟨⟩
    refine ⟨line.takeWhile isSeparator, ?_, fun c hc => List.mem_takeWhile_imp hc, fun c hc => ?_, fun c hc => ?_⟩
    · rw [List.takeWhile_append_dropWhile, List.takeWhile_append_dropWhile]
    · simpa using List.mem_takeWhile_imp hc
    · simpa using head?_dropWhile hc
  · rintro ⟨blanks, rfl, hblanks, hword, hleft⟩
    obtain ⟨c, more, rfl⟩ := List.exists_cons_of_ne_nil hne
    have hskip : (blanks ++ (c :: more ++ left)).dropWhile isSeparator = c :: more ++ left := by
      rw [List.dropWhile_append_of_pos hblanks, List.cons_append, List.dropWhile_cons_of_neg]
      simp [hword c List.mem_cons_self]
    have hin : ∀ d ∈ c :: more, (!isSeparator d) = true := fun d hd => by simp [hword d hd]
    have hout : ∀ d ∈ left.head?, (!isSeparator d) = false := fun d hd => by simp [hleft d hd]
    obtain ⟨htake, hdrop⟩ := takeWhile_append_stop hin hout
    rw [takeWord, hskip, htake, hdrop]

theorem noSeparator_of_on {on : List Char} (h : sameAsciiCaseless (String.ofList on) "on" = true) :
    on ≠ [] ∧ ∀ c ∈ on, isSeparator c = false ∧ c ≠ '\n' := by
  rw [sameAsciiCaseless_on_iff] at h
  revert on
  decide

theorem Written.noBreak (h : header.Written word) : '\n' ∉ word := by
  have hblank : ∀ {cs : List Char}, (∀ c ∈ cs, isSeparator c = true) → '\n' ∉ cs :=
    fun h hbreak => absurd (h _ hbreak) (by decide)
  have hchars : ∀ {cs : List Char}, (∀ c ∈ cs, isWordChar c = true) → '\n' ∉ cs :=
    fun h hbreak => absurd (h _ hbreak) (by decide)
  cases h with
  | event hblanks hon hgap _ hword =>
    have hon' : '\n' ∉ _ := fun hbreak => ((noSeparator_of_on hon).2 _ hbreak).2 rfl
    simp [hblank hblanks, hon', hblank hgap, hchars hword]
  | label hblanks hword => simp [hblank hblanks, hchars hword]

theorem isWordChar_of_subset {cs : List Char} (hline : '\n' ∉ line) (hsubset : cs ⊆ line)
    (hcs : ∀ c ∈ cs, isSeparator c = false) : ∀ c ∈ cs, isWordChar c = true := by
  intro c hc
  have hne : c ≠ '\n' := ne_of_mem_of_not_mem (hsubset hc) hline
  simp [isWordChar, hcs c hc, hne]

/-- What is read is written at the beginning of the line. -/
theorem written_of_read? (hline : '\n' ∉ line) (h : read? line = some (header, left)) :
    ∃ written, line = written ++ left ∧ header.Written written ∧ ∀ c ∈ left.head?, isSeparator c = true := by
  cases header with
  | event name =>
    obtain ⟨on, mid, hon, hlower, word, hword, hne, rfl⟩ := read?_eq_event_iff.1 h
    have hcase := lowercase_on_iff.1 hlower
    obtain ⟨blanks, rfl, hblanks, -, hmid⟩ := (takeWord_eq_iff (noSeparator_of_on hcase).1).1 hon
    obtain ⟨gap, rfl, hgap, hchars, hleft⟩ := (takeWord_eq_iff hne).1 hword
    have hapart : gap ≠ [] := by
      rintro rfl
      obtain ⟨c, more, rfl⟩ := List.exists_cons_of_ne_nil hne
      have hsep := hmid c rfl
      rw [hchars c List.mem_cons_self] at hsep
      cases hsep
    refine ⟨_, ?_, .event hblanks hcase hgap hapart ?_ hne, hleft⟩
    · simp
    · exact isWordChar_of_subset hline (fun c hc => by simp [hc]) hchars
  | label name =>
    obtain ⟨word, hword, hlower⟩ := read?_eq_label_iff.1 h
    obtain ⟨rest, rfl, rfl⟩ := lowercase_marked_iff.1 hlower
    obtain ⟨blanks, rfl, hblanks, hchars, hleft⟩ := (takeWord_eq_iff (List.cons_ne_nil _ _)).1 hword
    have hmarked := isWordChar_of_subset hline
      (fun c hc => List.mem_append_right _ (List.mem_append_left _ hc)) hchars
    refine ⟨_, ?_, .label hblanks fun c hc => hmarked c ?_, hleft⟩
    · simp
    · exact List.mem_cons_of_mem _ (List.mem_cons_of_mem _ hc)

theorem read?_of_written {written : List Char} (h : header.Written written)
    (hleft : ∀ c ∈ left.head?, isSeparator c = true) : read? (written ++ left) = some (header, left) := by
  have hnot : ∀ {cs : List Char}, (∀ c ∈ cs, isWordChar c = true) → ∀ c ∈ cs, isSeparator c = false :=
    fun h c hc => (ne_break_of_isWordChar (h c hc)).2
  cases h with
  | @event blanks on gap word hblanks hon hgap hapart hword hne =>
    obtain ⟨hon_ne, hon_chars⟩ := noSeparator_of_on hon
    refine read?_eq_event_iff.2 ⟨on, gap ++ (word ++ left), (takeWord_eq_iff hon_ne).2 ?_,
      lowercase_on_iff.2 hon, word, (takeWord_eq_iff hne).2 ⟨gap, rfl, hgap, hnot hword, hleft⟩, hne, rfl⟩
    refine ⟨blanks, by simp, hblanks, fun c hc => (hon_chars c hc).1, fun c hc => ?_⟩
    obtain ⟨d, more, rfl⟩ := List.exists_cons_of_ne_nil hapart
    cases hc
    exact hgap c List.mem_cons_self
  | @label blanks word hblanks hword =>
    refine read?_eq_label_iff.2 ⟨'>' :: '>' :: word, (takeWord_eq_iff (List.cons_ne_nil _ _)).2 ?_,
      lowercase_marked_iff.2 ⟨word, rfl, rfl⟩⟩
    refine ⟨blanks, by simp, hblanks, fun c hc => ?_, hleft⟩
    simp only [List.mem_cons] at hc
    rcases hc with rfl | rfl | hc
    · decide
    · decide
    · exact hnot hword c hc

/-- A header is read from a line where it is written, and nothing else is. -/
theorem read?_eq_some_iff (hline : '\n' ∉ line) :
    read? line = some (header, left) ↔
      ∃ written, line = written ++ left ∧ header.Written written ∧ ∀ c ∈ left.head?, isSeparator c = true := by
  constructor
  · exact written_of_read? hline
  · rintro ⟨written, rfl, hwritten, hleft⟩
    exact read?_of_written hwritten hleft

/-- What the index has at a line is what is written at its beginning. -/
theorem here?_eq_some_written :
    here? text cs = some (header, position) ↔
      ∃ written rest, cs = written ++ rest ∧ header.Written written ∧ StopsToken rest ∧
        position = positionOf text rest := by
  have hcs : cs.takeWhile (· != '\n') ++ dropLine cs = cs := List.takeWhile_append_dropWhile
  have hline : '\n' ∉ cs.takeWhile (· != '\n') := fun h => by simpa using List.mem_takeWhile_imp h
  rw [here?, Option.map_eq_some_iff]
  constructor
  · rintro ⟨⟨_, left⟩, hread, ⟨⟩⟩
    obtain ⟨written, hwritten, hheader, hleft⟩ := (read?_eq_some_iff hline).1 hread
    refine ⟨written, left ++ dropLine cs, ?_, hheader, fun c hc => ?_, rfl⟩
    · rw [← List.append_assoc, ← hwritten, hcs]
    · rw [List.head?_append, Option.mem_def, Option.or_eq_some_iff] at hc
      rcases hc with hc | ⟨-, hc⟩
      · simp [isWordChar, hleft c hc]
      · rw [lineOver_dropLine cs c hc]
        decide
  · rintro ⟨written, rest, rfl, hheader, hends, rfl⟩
    have hkeep : ∀ c ∈ written, (c != '\n') = true := fun c hc => by
      simpa using ne_of_mem_of_not_mem hc hheader.noBreak
    have hbelow : rest.takeWhile (· != '\n') ++ dropLine rest = rest := List.takeWhile_append_dropWhile
    rw [List.takeWhile_append_of_pos hkeep] at hline ⊢
    refine ⟨(header, rest.takeWhile (· != '\n')), (read?_eq_some_iff hline).2 ⟨written, rfl, hheader, ?_⟩, ?_⟩
    · intro c hc
      have hmem : c ∈ rest.head? := by
        rw [← hbelow]
        exact mem_head?_append hc
      have hbreak : c ≠ '\n' := by simpa using List.mem_takeWhile_imp (List.mem_of_mem_head? hc)
      simpa [isWordChar, hbreak] using hends c hmem
    · have hdrop : dropLine (written ++ rest) = dropLine rest := List.dropWhile_append_of_pos hkeep
      simp only [hdrop, hbelow]

theorem stands_iff {above written rest : List Char} :
    Stands text header above written rest ↔
      text = above ++ (written ++ rest) ∧ written ++ rest ∈ lineStarts text ∧ header.Written written ∧
        StopsToken rest := by
  rw [mem_lineStarts_iff]
  constructor
  · rintro ⟨htext, hline, hwritten, hends⟩
    exact ⟨htext, ⟨above, htext, hline⟩, hwritten, hends⟩
  · rintro ⟨htext, ⟨above', habove, hline⟩, hwritten, hends⟩
    obtain rfl : above' = above := List.append_cancel_right (habove.symm.trans htext)
    exact ⟨htext, hline, hwritten, hends⟩

theorem Stands.here? {above written rest : List Char} (h : Stands text header above written rest) :
    here? text (written ++ rest) = some (header, size (above ++ written)) := by
  refine here?_eq_some_written.2 ⟨written, rest, rfl, h.written, h.ends, ?_⟩
  rw [h.text_eq, ← List.append_assoc, positionOf_append]

/-- What begins further up leaves more of the text. -/
theorem Stands.length_le_iff {above written rest above' written' rest' : List Char}
    (h : Stands text header above written rest) (h' : Stands text header above' written' rest') :
    above.length ≤ above'.length ↔ (written' ++ rest').length ≤ (written ++ rest).length := by
  have htext := congrArg List.length (h.text_eq.symm.trans h'.text_eq)
  simp only [List.length_append] at htext ⊢
  omega

theorem stands_of_here? {start : List Char} (hstart : start ∈ lineStarts text)
    (h : Header.here? text start = some (header, position)) :
    ∃ above written rest, Stands text header above written rest ∧ start = written ++ rest ∧
      position = size (above ++ written) := by
  obtain ⟨written, rest, rfl, hwritten, hends, rfl⟩ := here?_eq_some_written.1 h
  obtain ⟨above, htext, hline⟩ := mem_lineStarts_iff.1 hstart
  refine ⟨above, written, rest, ⟨htext, hline, hwritten, hends⟩, rfl, ?_⟩
  rw [htext, ← List.append_assoc, positionOf_append]

theorem any_here?_iff {start : List Char} :
    (Header.here? text start).any (·.1 == header) = true ↔
      ∃ position, Header.here? text start = some (header, position) := by
  rw [Option.any_eq_true]
  constructor
  · rintro ⟨⟨found, position⟩, hhere, hfound⟩
    obtain rfl : found = header := by simpa using hfound
    exact ⟨position, hhere⟩
  · rintro ⟨position, hhere⟩
    exact ⟨_, hhere, by simp⟩

/-- A search line by line ends at the first header that stands in the text. -/
theorem find?_here?_eq_some_iff :
    (((lineStarts text).filterMap (here? text)).find? (·.1 == header)).map (·.2) = some position ↔
      FirstEndsAt text header position := by
  have horder := lineStarts_pairwise text
  rw [List.find?_filterMap, Option.map_eq_some_iff]
  constructor
  · rintro ⟨⟨found, _⟩, hfind, rfl⟩
    obtain ⟨start, hstart, hhere⟩ := Option.bind_eq_some_iff.1 hfind
    obtain ⟨hany, earlier, later, hlines, hnone⟩ := List.find?_eq_some_iff_append.1 hstart
    obtain ⟨position', hhere'⟩ := any_here?_iff.1 hany
    obtain ⟨rfl, rfl⟩ := Prod.mk.inj (Option.some.inj (hhere.symm.trans hhere'))
    obtain ⟨above, written, rest, hstands, rfl, hposition⟩ :=
      stands_of_here? (List.mem_of_find?_eq_some hstart) hhere
    refine ⟨above, written, rest, hstands, hposition, fun above' written' rest' hother => ?_⟩
    have hmem := (stands_iff.1 hother).2.1
    rw [hlines, List.pairwise_append, List.pairwise_cons] at horder
    rw [hlines, List.mem_append, List.mem_cons] at hmem
    refine (hstands.length_le_iff hother).2 ?_
    rcases hmem with hmem | heq | hmem
    · -- none of the lines further up has the header
      have hany' := any_here?_iff.2 ⟨_, hother.here?⟩
      have hnot := hnone _ hmem
      rw [hany'] at hnot
      cases hnot
    · exact heq ▸ Nat.le_refl _
    · exact Nat.le_of_lt (horder.2.1.1 _ hmem)
  · rintro ⟨above, written, rest, hstands, rfl, hfirst⟩
    obtain ⟨earlier, later, hlines⟩ := List.append_of_mem (stands_iff.1 hstands).2.1
    refine ⟨_, Option.bind_eq_some_iff.2 ⟨written ++ rest, ?_, hstands.here?⟩, rfl⟩
    refine List.find?_eq_some_iff_append.2 ⟨any_here?_iff.2 ⟨_, hstands.here?⟩, earlier, later, hlines, ?_⟩
    intro other hmem
    rw [Bool.not_eq_true', Bool.eq_false_iff, Ne, any_here?_iff]
    rintro ⟨position, hhere⟩
    have hother : other ∈ lineStarts text := hlines ▸ List.mem_append_left _ hmem
    obtain ⟨above', written', rest', hstands', rfl, -⟩ := stands_of_here? hother hhere
    rw [hlines, List.pairwise_append] at horder
    have hlonger := horder.2.2 _ hmem _ List.mem_cons_self
    have hle := (hstands.length_le_iff hstands').1 (hfirst _ _ _ hstands')
    omega

/-- The same lines further down in a text have the same headers. -/
theorem ofLines_add (start shift : Nat) (found : List (List Char)) :
    ofLines (shift + start) found = (ofLines start found).map fun (header, position) => (header, shift + position) := by
  induction found generalizing start with
  | nil => rfl
  | cons line more ih =>
    have hmore := ih (start + size line + 1)
    rw [ofLines, ofLines]
    have hstart : shift + start + size line + 1 = shift + (start + size line + 1) := by omega
    rw [hstart, hmore]
    cases read? line with
    | none => rfl
    | some found => simp [Nat.add_assoc]

theorem ofLines_append (start : Nat) (above below : List (List Char)) :
    ofLines start (above ++ below) = ofLines start above ++ ofLines (start + extent above) below := by
  induction above generalizing start with
  | nil => rfl
  | cons line above ih =>
    have hstart : start + extent (line :: above) = start + size line + 1 + extent above := by
      rw [extent]
      omega
    rw [List.cons_append, ofLines, ofLines, ih, hstart]
    cases read? line <;> rfl

/-- The headers of a text that goes on below are its own, and those of what stands there. -/
theorem all_append (cs ds : List Char) :
    all (cs ++ '\n' :: ds) = all cs ++ (all ds).map fun (header, position) => (header, size cs + 1 + position) := by
  have hlines : lines (cs ++ '\n' :: ds) = lines cs ++ lines ds := pieces_append (by decide) cs ds
  rw [all, hlines, ofLines_append, extent_lines, Nat.zero_add, all, all, ← ofLines_add 0 (size cs + 1)]

end Header

theorem Script.position?_eq_find? (name text : String) (header : Header) :
    (ofText name text).position? header =
      ((Header.all text.toList).find? (·.1 == header.bare.folded)).map (·.2) := by
  rw [position?_ofText, Header.all_eq]

/-- The index of a script leads to what a search of its text finds: the place behind the first line that
begins with the header, and nothing if no line does. A label may be asked for with its marker. What stands below
on later lines has a say about headers only that there were not before. -/
theorem Script.position?_rescan (name text : String) (header : Header) :
    (∀ more, header = .label (">>" ++ more) → header.bare = .label more) ∧
    ((∀ more, header ≠ .label (">>" ++ more)) → header.bare = header) ∧
    (∀ position, (ofText name text).position? header = some position ↔
      Header.FirstEndsAt text.toList header.bare.folded position) ∧
    ((ofText name text).position? header = none ↔
      ∀ above written rest, ¬Header.Stands text.toList header.bare.folded above written rest) ∧
    ∀ below, (ofText name (text ++ "\n" ++ below)).position? header =
      ((ofText name text).position? header).or
        (((ofText name below).position? header).map fun position => Text.size text.toList + 1 + position) := by
  refine ⟨fun more h => h ▸ Header.bare_marked more, Header.bare_eq_self, fun position => ?_, ?_, fun below => ?_⟩
  · rw [position?_ofText, Header.find?_here?_eq_some_iff]
  · rw [position?_ofText, Option.map_eq_none_iff, List.find?_eq_none]
    constructor
    · intro hnone above written rest hstands
      have hmem := List.mem_filterMap.2 ⟨_, (Header.stands_iff.1 hstands).2.1, hstands.here?⟩
      exact hnone _ hmem (by simp)
    · rintro hnone ⟨found, position⟩ hmem hfound
      obtain rfl : found = header.bare.folded := by simpa using hfound
      obtain ⟨start, hstart, hhere⟩ := List.mem_filterMap.1 hmem
      obtain ⟨above, written, rest, hstands, -⟩ := Header.stands_of_here? hstart hhere
      exact hnone _ _ _ hstands
  · have htext : (text ++ "\n" ++ below).toList = text.toList ++ '\n' :: below.toList := by simp
    rw [position?_eq_find?, position?_eq_find?, position?_eq_find?, htext, Header.all_append, List.find?_append,
      Option.map_or, List.find?_map]
    congr 1
    rw [Option.map_map, Option.map_map]
    rfl

/-- A label that is asked for with its marker and in another case. -/
theorem Script.position?_rescan_marked :
    (ofText "quay" " >>Top\non top\n>>top").position? (.label ">>TOP") = some 6 := by
  obtain ⟨hmarked, -, hfound, -⟩ := position?_rescan "quay" " >>Top\non top\n>>top" (.label ">>TOP")
  refine (hfound 6).2 ⟨[], " >>Top".toList, "\non top\n>>top".toList, ⟨by decide, .inl rfl, ?_, ?_⟩, by decide, ?_⟩
  · have hname : lowercase "TOP" = lowercase (String.ofList "Top".toList) := by decide +kernel
    rw [hmarked "TOP" (by decide), Header.folded, hname]
    exact @Header.Written.label [' '] "Top".toList (by decide) (by decide)
  · rintro _ ⟨⟩
    decide
  · intro above' written' rest' _
    exact Nat.zero_le _

end EntityScript
