import EntityScript.Proofs.Index
import EntityScript.Proofs.Letters

/-! The headers of a script as its index knows them, and as the cursor of a run comes upon them. The
index ends a word at separators only, the cursor at braces too, so the two agree on every header that
no brace is glued to. -/

namespace EntityScript

open Reading Text

namespace Reading

/-- A brace comes next. -/
def Glued (rest : List Char) : Prop := ∃ c ∈ rest.head?, IsBrace c

def LineOver (tail : List Char) : Prop := ∀ c ∈ tail.head?, c = '\n'

theorem lineOver_dropLine (cs : List Char) : LineOver (dropLine cs) := by
  intro c hc
  cases hdrop : dropLine cs with
  | nil =>
    rw [hdrop] at hc
    cases hc
  | cons d rest =>
    rw [hdrop] at hc
    cases hc
    exact eq_of_dropWhile_ne hdrop

theorem takeWhile_append_of_lineOver {p : Char → Bool} (hp : p '\n' = false) {tail : List Char}
    (htail : LineOver tail) (cs : List Char) :
    (cs ++ tail).takeWhile p = cs.takeWhile p ∧ (cs ++ tail).dropWhile p = cs.dropWhile p ++ tail := by
  induction cs with
  | nil =>
    cases tail with
    | nil => exact ⟨rfl, rfl⟩
    | cons c tail =>
      cases htail c rfl
      simp [hp]
  | cons c cs ih =>
    by_cases hc : p c = true
    · simp [hc, ih.1, ih.2]
    · simp [hc]

theorem atComment_append {tail : List Char} (htail : ∀ c ∈ tail.head?, c ≠ '/') (cs : List Char) :
    atComment (cs ++ tail) = atComment cs := by
  have hnone : atComment tail = false := by
    cases tail with
    | nil => rfl
    | cons c tail => exact atComment_of_ne (htail c rfl) tail
  match cs with
  | [] => exact hnone
  | [c] =>
    cases tail with
    | nil => rfl
    | cons d tail =>
      rw [Bool.eq_iff_iff, atComment_iff, atComment_iff]
      simp [htail d rfl]
  | c :: d :: cs =>
    rw [Bool.eq_iff_iff, atComment_iff, atComment_iff]
    simp

theorem dropLine_append_of_lineOver {line tail : List Char} (hline : '\n' ∉ line) (htail : LineOver tail) :
    dropLine (line ++ tail) = tail := by
  rw [dropLine, (takeWhile_append_of_lineOver (by decide) htail line).2,
    List.dropWhile_eq_nil_iff.2 fun c hc => by simpa using ne_of_mem_of_not_mem hc hline, List.nil_append]

/-- The cursor seeks a word on the line first. If there is none, or a comment, it goes on below. -/
theorem dropFiller_append {line tail : List Char} (hline : '\n' ∉ line) (htail : LineOver tail) :
    dropFiller false (line ++ tail) =
      if line.dropWhile isSeparator = [] ∨ atComment (line.dropWhile isSeparator) = true then
        dropFiller false tail
      else line.dropWhile isSeparator ++ tail := by
  induction line with
  | nil => simp
  | cons c line ih =>
    rw [List.mem_cons, not_or] at hline
    rw [List.cons_append, dropFiller, if_neg (Ne.symm hline.1), if_neg Bool.false_ne_true]
    by_cases hsep : isSeparator c = true
    · rw [if_pos hsep, List.dropWhile_cons_of_pos hsep]
      exact ih hline.2
    · rw [if_neg hsep, List.dropWhile_cons_of_neg hsep, ← List.cons_append,
        atComment_append fun d hd => htail d hd ▸ by decide]
      by_cases hcomment : atComment (c :: line) = true
      · rw [if_pos hcomment, if_pos (.inr hcomment), dropFiller_comment,
          dropLine_append_of_lineOver hline.2 htail]
      · rw [if_neg hcomment, if_neg (by simp [hcomment])]

theorem dropLine_of_onLine {cs rest : List Char} (h : OnLine cs rest) : dropLine cs = dropLine rest := by
  obtain ⟨front, rfl, hfront⟩ := h
  exact List.dropWhile_append_of_pos fun c hc => by simpa using ne_of_mem_of_not_mem hc hfront

theorem OnLine.of_suffix {cs mid rest : List Char} (h : OnLine cs rest) (hmid : mid <:+ cs)
    (hrest : rest <:+ mid) : OnLine cs mid ∧ OnLine mid rest := by
  obtain ⟨front, hcs, hfront⟩ := h
  obtain ⟨first, rfl⟩ := hmid
  obtain ⟨second, rfl⟩ := hrest
  rw [← List.append_assoc, List.append_cancel_right_eq] at hcs
  rw [← hcs, List.mem_append, not_or] at hfront
  exact ⟨⟨first, rfl, hfront.1⟩, ⟨second, rfl, hfront.2⟩⟩

theorem isSeparator_of_not_isCommandChar {c : Char} (h : isCommandChar c = false) (hbrace : ¬IsBrace c)
    (hbreak : c ≠ '\n') : isSeparator c = true := by
  obtain ⟨hopen, hclose⟩ := not_or.1 hbrace
  simpa [isCommandChar, isWordChar, hbreak, hopen, hclose] using h

theorem ne_break_of_isWordChar {c : Char} (h : isWordChar c = true) : c ≠ '\n' ∧ isSeparator c = false := by
  simpa [isWordChar, and_comm] using h

theorem isCommandChar_iff {c : Char} :
    isCommandChar c = true ↔ isSeparator c = false ∧ c ≠ '\n' ∧ ¬IsBrace c := by
  simp [isCommandChar, isWordChar, IsBrace, and_assoc]

/-- A command word is a brace, or as many characters as there are that belong in a word. -/
theorem takeCommand_cases {cs word rest : List Char} (h : takeCommand cs = (word, rest)) :
    (∃ c, IsBrace c ∧ word = [c]) ∨ (∀ c ∈ word, isCommandChar c = true) ∧ StopsWord rest := by
  have hreads := reads_iff.2 h
  clear h
  cases hreads with
  | nothing => exact .inr ⟨by simp, by simp [StopsWord]⟩
  | brace _ hc => exact .inl ⟨_, hc, rfl⟩
  | word _ _ hword =>
    obtain ⟨rfl, rfl⟩ := passes_iff.1 hword
    exact .inr ⟨fun c hc => List.mem_takeWhile_imp hc, fun c hc => head?_dropWhile hc⟩

/-- What the cursor comes upon is a command word, as far as there are characters that belong in one. -/
theorem takeCommand_of_dropFiller {cs word rest : List Char} (h : dropFiller false cs = word ++ rest)
    (hne : word ≠ []) (hchars : ∀ c ∈ word, isCommandChar c = true) (hstops : StopsWord rest) :
    takeCommand cs = (word, rest) := by
  obtain ⟨c, more, rfl⟩ := List.exists_cons_of_ne_nil hne
  obtain ⟨htake, hdrop⟩ := takeWhile_append_stop hchars hstops
  have hseeks := seeks cs
  rw [h] at hseeks
  have hc := (isCommandChar_iff.1 (hchars c List.mem_cons_self)).2.2
  exact reads_iff.1 (.word hseeks hc (passes_iff.2 ⟨htake.symm, hdrop.symm⟩))

theorem takeCommand_of_glued {rest : List Char} (h : Glued rest) :
    ∃ c, IsBrace c ∧ (takeCommand rest).1 = [c] := by
  obtain ⟨c, hc, hbrace⟩ := h
  obtain ⟨more, rfl⟩ : ∃ more, rest = c :: more := by
    cases rest with
    | nil => cases hc
    | cons d more =>
      cases hc
      exact ⟨more, rfl⟩
  refine ⟨c, hbrace, ?_⟩
  rcases hbrace with rfl | rfl <;> rfl

/-- From `cs` on the cursor reads a command word on the line that it is on, and no brace ends the word;
`rest` follows. -/
structure TakesWhole (cs word rest : List Char) : Prop where
  takes : takeCommand cs = (word, rest)
  ne_nil : word ≠ []
  noBrace : ∀ c ∈ word, ¬IsBrace c
  onLine : OnLine cs rest
  unglued : ¬Glued rest

theorem mem_head?_append {c : Char} {cs ds : List Char} (h : c ∈ cs.head?) : c ∈ (cs ++ ds).head? := by
  rw [List.head?_append, Option.mem_def.1 h]
  rfl

namespace TakesWhole

variable {line tail cs word rest : List Char}

theorem chars (h : TakesWhole cs word rest) :
    (∀ c ∈ word, isCommandChar c = true) ∧ StopsWord rest := by
  rcases takeCommand_cases h.takes with ⟨c, hc, hword⟩ | hchars
  · exact absurd hc (h.noBrace c (hword ▸ List.mem_singleton_self c))
  · exact hchars

/-- The word ends before a blank, or with its line. -/
theorem head?_rest (h : TakesWhole cs word rest) : ∀ c ∈ rest.head?, isSeparator c = true ∨ c = '\n' := by
  intro c hc
  by_cases hbreak : c = '\n'
  · exact .inr hbreak
  · exact .inl (isSeparator_of_not_isCommandChar (h.chars.2 c hc) (fun hb => h.unglued ⟨c, hc, hb⟩) hbreak)

/-- The cursor finds the word on the line and does not go on below. -/
theorem found (h : TakesWhole (line ++ tail) word rest) (hline : '\n' ∉ line) (htail : LineOver tail) :
    word ++ rest = line.dropWhile isSeparator ++ tail ∧ atComment (line.dropWhile isSeparator) = false := by
  have happend : word ++ rest = dropFiller false (line ++ tail) := by
    rw [← takeCommand_append, h.takes]
  rw [dropFiller_append hline htail] at happend
  split at happend
  · -- what is left would have to hold all that is below, and yet be shorter by the word
    have htail' : tail <:+ rest := by
      rw [← dropLine_append_of_lineOver hline htail, dropLine_of_onLine h.onLine]
      exact dropLine_suffix rest
    have hlonger := congrArg List.length happend
    rw [List.length_append] at hlonger
    have hpos := List.length_pos_iff.2 h.ne_nil
    have hshorter := (dropFiller_suffix false tail).length_le
    have hback := htail'.length_le
    omega
  · rename_i hfound
    exact ⟨happend, Bool.eq_false_iff.2 fun hcomment => hfound (.inr hcomment)⟩

/-- What the cursor takes whole the index takes too. -/
theorem takeWord (h : TakesWhole (line ++ tail) word rest) (hline : '\n' ∉ line) (htail : LineOver tail) :
    ∃ left, Header.takeWord line = (word, left) ∧ rest = left ++ tail ∧ atComment word = false := by
  obtain ⟨happend, hnot⟩ := h.found hline htail
  have hbreak : '\n' ∉ line.dropWhile isSeparator := fun h => hline ((List.dropWhile_suffix _).subset h)
  generalize hx : line.dropWhile isSeparator = found at happend hnot hbreak
  obtain ⟨htake, hdrop⟩ := takeWhile_append_stop h.chars.1 h.chars.2
  obtain ⟨htake', hdrop'⟩ := takeWhile_append_of_lineOver (p := isCommandChar) (by decide) htail found
  rw [happend, htake'] at htake
  rw [happend, hdrop'] at hdrop
  have hfound : found = word ++ found.dropWhile isCommandChar := by
    rw [← htake, List.takeWhile_append_dropWhile]
  generalize found.dropWhile isCommandChar = left at hdrop hfound
  have hword : ∀ c ∈ word, (!isSeparator c) = true := fun c hc => by
    simp [(isCommandChar_iff.1 (h.chars.1 c hc)).1]
  have hstop : ∀ c ∈ left.head?, (!isSeparator c) = false := fun c hc => by
    have hne : c ≠ '\n' := by
      rintro rfl
      exact hbreak (hfound ▸ List.mem_append_right _ (List.mem_of_mem_head? hc))
    simp [(h.head?_rest c (hdrop ▸ mem_head?_append hc)).resolve_right hne]
  obtain ⟨htakes, hleft⟩ := takeWhile_append_stop hword hstop
  refine ⟨left, ?_, hdrop.symm, Bool.eq_false_iff.2 fun hcomment => ?_⟩
  · rw [Header.takeWord, hx, hfound, htakes, hleft]
  · obtain ⟨more, rfl⟩ := atComment_iff.1 hcomment
    rw [hfound] at hnot
    exact absurd hnot (by simp [atComment])

/-- What the index takes the cursor takes whole, if no brace is in it and no comment begins with it. -/
theorem of_takeWord {left : List Char} (hline : '\n' ∉ line)
    (htail : LineOver tail) (htakes : Header.takeWord line = (word, left)) (hne : word ≠ [])
    (hbrace : ∀ c ∈ word, ¬IsBrace c) (hcomment : atComment word = false) :
    TakesWhole (line ++ tail) word (left ++ tail) := by
  rw [Header.takeWord, Prod.mk.injEq] at htakes
  have hfound : line.dropWhile isSeparator = word ++ left := by
    rw [← htakes.1, ← htakes.2, List.takeWhile_append_dropWhile]
  have hbreak : '\n' ∉ word ++ left := fun h => hline ((List.dropWhile_suffix _).subset (hfound ▸ h))
  have hsep : ∀ c ∈ word, isSeparator c = false := fun c hc => by
    rw [← htakes.1] at hc
    simpa using List.mem_takeWhile_imp hc
  have hleft : ∀ c ∈ left.head?, isSeparator c = true := fun c hc => by
    rw [← htakes.2] at hc
    simpa using head?_dropWhile hc
  have hstop : ∀ c ∈ (left ++ tail).head?, isSeparator c = true ∨ c = '\n' := fun c hc => by
    rw [List.head?_append, Option.mem_def, Option.or_eq_some_iff] at hc
    exact hc.imp (hleft c) fun h => htail c h.2
  have hseek : dropFiller false (line ++ tail) = word ++ (left ++ tail) := by
    have hslash : ∀ d ∈ left.head?, d ≠ '/' := fun d hd h => absurd (hleft d hd) (h ▸ by decide)
    have hno : atComment (word ++ left) = false := by rw [atComment_append hslash, hcomment]
    rw [dropFiller_append hline htail, hfound, if_neg (by simp [hno, hne]), List.append_assoc]
  refine ⟨takeCommand_of_dropFiller hseek hne ?_ ?_, hne, hbrace, ?_, ?_⟩
  · exact fun c hc =>
      isCommandChar_iff.2 ⟨hsep c hc, fun h => hbreak (h ▸ List.mem_append_left _ hc), hbrace c hc⟩
  · intro c hc
    rw [Bool.eq_false_iff, Ne, isCommandChar_iff]
    rintro ⟨hnot, hne, -⟩
    rcases hstop c hc with h | h
    · rw [h] at hnot
      cases hnot
    · exact hne h
  · obtain ⟨front, hfront⟩ := List.dropWhile_suffix isSeparator (l := line)
    rw [hfound] at hfront
    refine ⟨front ++ word, by rw [← hfront]; simp, fun h => hline ?_⟩
    rw [← hfront, ← List.append_assoc]
    exact List.mem_append_left _ h
  · rintro ⟨d, hd, hb⟩
    rcases hstop d hd with h | rfl
    · exact isBrace_of_isSeparator h hb
    · revert hb
      decide

end TakesWhole

/-- Where no brace has a part in it, the cursor takes the word that the index takes, unless it begins a
comment. -/
theorem takesWhole_iff {line tail word rest : List Char} (hline : '\n' ∉ line) (htail : LineOver tail) :
    TakesWhole (line ++ tail) word rest ↔ ∃ left, Header.takeWord line = (word, left) ∧
      rest = left ++ tail ∧ word ≠ [] ∧ (∀ c ∈ word, ¬IsBrace c) ∧ atComment word = false := by
  constructor
  · intro h
    obtain ⟨left, hleft, hrest, hcomment⟩ := h.takeWord hline htail
    exact ⟨left, hleft, hrest, h.ne_nil, h.noBrace, hcomment⟩
  · rintro ⟨left, htakes, rfl, hne, hbrace, hcomment⟩
    exact .of_takeWord hline htail htakes hne hbrace hcomment

theorem readCommand_iff {cs rest : List Char} {name : String} :
    readCommand cs = (name, rest) ↔
      ∃ word, takeCommand cs = (word, rest) ∧ lowercase (String.ofList word) = name := by
  constructor
  · rintro ⟨⟩
    exact ⟨_, rfl, rfl⟩
  · rintro ⟨word, hword, rfl⟩
    rw [readCommand, hword]

/-- A brace is a word of its own, and no other word has one in it. -/
theorem noBrace_of_takeCommand {cs word rest : List Char} (h : takeCommand cs = (word, rest))
    (hopen : lowercase (String.ofList word) ≠ "\x7b") (hclose : lowercase (String.ofList word) ≠ "\x7d") :
    ∀ c ∈ word, ¬IsBrace c := by
  rcases takeCommand_cases h with ⟨c, hc, rfl⟩ | ⟨hchars, -⟩
  · rw [Block.lowercase_brace hc] at hopen hclose
    rcases hc with rfl | rfl
    · exact absurd rfl hopen
    · exact absurd rfl hclose
  · exact fun c hc => (isCommandChar_iff.1 (hchars c hc)).2.2

/-- The words that the cursor takes whole are those that it reads on one line, up to no brace. -/
theorem exists_takesWhole_iff {cs rest : List Char} {name : String} :
    (∃ word, TakesWhole cs word rest ∧ lowercase (String.ofList word) = name) ↔
      readCommand cs = (name, rest) ∧ name ≠ "" ∧ name ≠ "\x7b" ∧ name ≠ "\x7d" ∧ OnLine cs rest ∧
        ¬Glued rest := by
  rw [readCommand_iff]
  constructor
  · rintro ⟨word, h, rfl⟩
    refine ⟨⟨word, h.takes, rfl⟩, fun hempty => h.ne_nil ?_, ?_, ?_, h.onLine, h.unglued⟩
    · rw [lowercase_ofList, ← String.toList_inj, String.toList_ofList] at hempty
      exact lowerFrom_eq_nil_iff.1 hempty
    · exact Block.lowercase_noBrace h.noBrace (.inl rfl)
    · exact Block.lowercase_noBrace h.noBrace (.inr rfl)
  · rintro ⟨⟨word, hword, rfl⟩, hne, hopen, hclose, honLine, hglued⟩
    refine ⟨word, ⟨hword, ?_, ?_, honLine, hglued⟩, rfl⟩
    · rintro rfl
      exact hne rfl
    · exact noBrace_of_takeCommand hword hopen hclose

end Reading

namespace Header

variable {cs rest line left : List Char} {name : String} {header : Header}

/-- The cursor, at `cs`, where a line begins, comes upon the header on this line; `rest` follows. -/
inductive Shown (cs rest : List Char) : Header → Prop
  | event {mid : List Char} {name : String} (hon : readCommand cs = ("on", mid))
    (hname : readCommand mid = (name, rest)) (hne : name ≠ "") (hopen : name ≠ "\x7b")
    (hclose : name ≠ "\x7d") (hline : OnLine cs rest) : Shown cs rest (event name)
  | label {name : String} (hlabel : readCommand cs = (">>" ++ name, rest)) (hline : OnLine cs rest) :
    Shown cs rest (label name)

theorem shown_event_iff : Shown cs rest (event name) ∧ ¬Glued rest ↔
    ∃ on mid, TakesWhole cs on mid ∧ lowercase (String.ofList on) = "on" ∧
      ∃ word, TakesWhole mid word rest ∧ lowercase (String.ofList word) = name := by
  constructor
  · rintro ⟨h, hglued⟩
    cases h with
    | @event mid _ hon hname hne hopen hclose hline =>
      have hmid : mid <:+ cs := by
        have hsuffix := readCommand_suffix cs
        rwa [hon] at hsuffix
      have hrest : rest <:+ mid := by
        have hsuffix := readCommand_suffix mid
        rwa [hname] at hsuffix
      obtain ⟨hfirst, hsecond⟩ := hline.of_suffix hmid hrest
      have hapart : ¬Glued mid := fun h => by
        obtain ⟨c, hc, hword⟩ := takeCommand_of_glued h
        obtain ⟨word, hword', rfl⟩ := readCommand_iff.1 hname
        obtain rfl : word = [c] := by rw [← hword, hword']
        rw [Block.lowercase_brace hc] at hopen hclose
        rcases hc with rfl | rfl
        · exact hopen rfl
        · exact hclose rfl
      obtain ⟨on, hon, hlower⟩ :=
        exists_takesWhole_iff.2 ⟨hon, by decide, by decide, by decide, hfirst, hapart⟩
      exact ⟨on, mid, hon, hlower,
        exists_takesWhole_iff.2 ⟨hname, hne, hopen, hclose, hsecond, hglued⟩⟩
  · rintro ⟨on, mid, hon, hlower, hword⟩
    obtain ⟨hname, hne, hopen, hclose, hsecond, hglued⟩ := exists_takesWhole_iff.1 hword
    obtain ⟨hfirst, -, -, -, hline, -⟩ := exists_takesWhole_iff.1 ⟨on, hon, hlower⟩
    exact ⟨.event hfirst hname hne hopen hclose (hline.trans hsecond), hglued⟩

theorem shown_label_iff : Shown cs rest (label name) ∧ ¬Glued rest ↔
    ∃ word, TakesWhole cs word rest ∧ lowercase (String.ofList word) = ">>" ++ name := by
  rw [exists_takesWhole_iff]
  have hmarked : ∀ c : Char, c ≠ '>' → ">>" ++ name ≠ String.ofList [c] := fun c hc h => by
    rw [← String.toList_inj, String.toList_ofList, String.toList_append] at h
    exact hc (List.cons.inj h).1.symm
  constructor
  · rintro ⟨⟨⟩, hglued⟩
    rename_i hline hlabel
    exact ⟨hlabel, by simp, hmarked _ (by decide), hmarked _ (by decide), hline, hglued⟩
  · rintro ⟨hlabel, -, -, -, hline, hglued⟩
    exact ⟨.label hlabel hline, hglued⟩

theorem read?_eq_event_iff : read? line = some (event name, left) ↔
    ∃ on mid, takeWord line = (on, mid) ∧ lowercase (String.ofList on) = "on" ∧
      ∃ word, takeWord mid = (word, left) ∧ word ≠ [] ∧ lowercase (String.ofList word) = name := by
  unfold read?
  split
  · rename_i marked rest hword
    refine iff_of_false (by simp) ?_
    rintro ⟨on, mid, htakes, hon, -⟩
    obtain rfl : '>' :: '>' :: marked = on := by
      rw [hword] at htakes
      exact (Prod.mk.inj htakes).1
    rw [lowercase_marked_iff.2 ⟨marked, rfl, rfl⟩, ← String.toList_inj, String.toList_append] at hon
    exact absurd (List.cons.inj hon).1 (by decide)
  · rename_i on mid _ hword
    simp only [hword, lowercase_on_iff, Prod.mk.injEq]
    cases hafter : takeWord mid with
    | mk word after =>
      dsimp only
      constructor
      · intro h
        split at h
        · rename_i hheader
          rw [Bool.and_eq_true, Bool.not_eq_true', List.isEmpty_eq_false_iff] at hheader
          cases h
          exact ⟨on, mid, ⟨rfl, rfl⟩, hheader.1, word, hafter, hheader.2, rfl⟩
        · cases h
      · rintro ⟨_, _, ⟨rfl, rfl⟩, hon, _, hafter', hne, rfl⟩
        rw [hafter] at hafter'
        cases hafter'
        rw [if_pos (by simp [hon, hne])]

theorem read?_eq_label_iff : read? line = some (label name, left) ↔
    ∃ word, takeWord line = (word, left) ∧ lowercase (String.ofList word) = ">>" ++ name := by
  simp only [lowercase_marked_iff]
  unfold read?
  split
  · rename_i marked rest hword
    simp only [hword, Prod.mk.injEq, Option.some.injEq, Header.label.injEq]
    constructor
    · rintro ⟨rfl, rfl⟩
      exact ⟨_, ⟨rfl, rfl⟩, marked, rfl, rfl⟩
    · rintro ⟨_, ⟨rfl, rfl⟩, _, ⟨⟩, rfl⟩
      exact ⟨rfl, rfl⟩
  · rename_i on mid hmarked hword
    refine iff_of_false ?_ ?_
    · dsimp only
      split <;> simp
    · rintro ⟨word, htakes, more, rfl, -⟩
      rw [hword] at htakes
      exact hmarked more (Prod.mk.inj htakes).1

/-- The names of the header are such as the cursor reads: in lowercase, without braces, and not the
beginning of a comment. -/
def Readable : Header → Prop
  | event name => (∀ c ∈ name.toList, Settled c ∧ ¬IsBrace c) ∧ name ≠ "" ∧ atComment name.toList = false
  | label name => ∀ c ∈ name.toList, Settled c ∧ ¬IsBrace c

theorem whole_of_lowercase {word : List Char} (h : lowercase (String.ofList word) = name) (hne : name ≠ "")
    (hbrace : ∀ c ∈ name.toList, ¬IsBrace c) (hcomment : atComment name.toList = false) :
    word ≠ [] ∧ (∀ c ∈ word, ¬IsBrace c) ∧ atComment word = false := by
  have hlist : name.toList = lowerFrom [] word := by rw [← h, lowercase_ofList, String.toList_ofList]
  rw [hlist, atComment_lowerFrom] at hcomment
  rw [hlist, noBrace_lowerFrom_iff] at hbrace
  refine ⟨?_, hbrace, hcomment⟩
  rintro rfl
  exact hne h.symm

/-- The index has the headers that the cursor comes upon, unless a brace is glued to them, and no
others that the cursor can read. -/
theorem shown_iff (h : header.Readable) : Shown cs rest header ∧ ¬Glued rest ↔
    ∃ left, read? (cs.takeWhile (· != '\n')) = some (header, left) ∧ rest = left ++ dropLine cs := by
  have hline : '\n' ∉ cs.takeWhile (· != '\n') := fun h => by simpa using List.mem_takeWhile_imp h
  have hcs : cs.takeWhile (· != '\n') ++ dropLine cs = cs := List.takeWhile_append_dropWhile
  have htail := lineOver_dropLine cs
  generalize cs.takeWhile (· != '\n') = line at hline hcs
  generalize dropLine cs = tail at hcs htail
  subst hcs
  cases header with
  | event name =>
    have hbelow : ∀ {on mid}, takeWord line = (on, mid) → '\n' ∉ mid := fun {on mid} htakes h =>
      hline ((takeWord_suffix line).subset (by rwa [htakes]))
    rw [shown_event_iff]
    simp only [read?_eq_event_iff]
    constructor
    · rintro ⟨on, _, hon, hlower, word, hword, hname⟩
      obtain ⟨mid, htakes, rfl, -⟩ := (takesWhole_iff hline htail).1 hon
      obtain ⟨left, htakes', rfl, hne, -⟩ := (takesWhole_iff (hbelow htakes) htail).1 hword
      exact ⟨left, ⟨on, mid, htakes, hlower, word, htakes', hne, hname⟩, rfl⟩
    · rintro ⟨left, ⟨on, mid, htakes, hlower, word, htakes', -, hname⟩, rfl⟩
      have hon := whole_of_lowercase hlower (by decide) (by decide) (by decide)
      have hword := whole_of_lowercase hname h.2.1 (fun c hc => (h.1 c hc).2) h.2.2
      exact ⟨on, mid ++ tail, (takesWhole_iff hline htail).2 ⟨mid, htakes, rfl, hon⟩, hlower,
        word, (takesWhole_iff (hbelow htakes) htail).2 ⟨left, htakes', rfl, hword⟩, hname⟩
  | label name =>
    rw [shown_label_iff]
    simp only [read?_eq_label_iff, takesWhole_iff hline htail]
    constructor
    · rintro ⟨word, ⟨left, htakes, rfl, -⟩, hword⟩
      exact ⟨left, ⟨word, htakes, hword⟩, rfl⟩
    · rintro ⟨left, ⟨word, htakes, hword⟩, rfl⟩
      have hmarked : (">>" ++ name).toList = '>' :: '>' :: name.toList := by simp
      have hwhole := whole_of_lowercase hword (by simp)
        (by
          rw [hmarked]
          intro c hc
          simp only [List.mem_cons] at hc
          rcases hc with rfl | rfl | hc
          · decide
          · decide
          · exact (h c hc).2)
        (by rw [hmarked]; exact atComment_of_ne (by decide) _)
      exact ⟨word, ⟨left, htakes, rfl, hwhole⟩, hword⟩

theorem Readable.folded (h : header.Readable) : header.folded = header := by
  have hsettled : ∀ name : String, (∀ c ∈ name.toList, Settled c) → lowercase name = name :=
    fun name hname => by rw [lowercase, lowerFrom_of_settled hname, String.ofList_toList]
  cases header with
  | event name => exact congrArg event (hsettled name fun c hc => (h.1 c hc).1)
  | label name => exact congrArg label (hsettled name fun c hc => (h c hc).1)

theorem Readable.bare (h : header.Readable) : header.bare.Readable := by
  cases header with
  | event name => exact h
  | label name =>
    intro c hc
    unfold Script.bareLabel at hc
    split at hc
    · rename_i more hname
      rw [String.toList_ofList] at hc
      exact h c (hname ▸ List.mem_cons_of_mem _ (List.mem_cons_of_mem _ hc))
    · exact h c hc

theorem readable_of_readCommand (h : readCommand cs = (name, rest)) (hopen : name ≠ "\x7b")
    (hclose : name ≠ "\x7d") :
    (∀ c ∈ name.toList, Settled c ∧ ¬IsBrace c) ∧ atComment name.toList = false := by
  obtain ⟨word, hword, rfl⟩ := readCommand_iff.1 h
  have hbrace := noBrace_of_takeCommand hword hopen hclose
  rw [lowercase_ofList, String.toList_ofList, atComment_lowerFrom]
  refine ⟨fun c hc => ⟨settled_lowerFrom _ _ c hc, lowerFrom_noBrace hbrace _ c hc⟩, ?_⟩
  rw [Bool.eq_false_iff]
  intro hcomment
  obtain ⟨more, rfl⟩ := atComment_iff.1 hcomment
  have happend := takeCommand_append cs
  rw [hword] at happend
  have hhead := (seeks cs).head happend.symm
  exact absurd hhead.2.2 (by simp [atComment])

theorem Shown.readable (h : Shown cs rest header) : header.Readable := by
  cases h with
  | event hon hname hne hopen hclose hline =>
    obtain ⟨hchars, hcomment⟩ := readable_of_readCommand hname hopen hclose
    exact ⟨hchars, hne, hcomment⟩
  | @label name hlabel hline =>
    have hmarked : (">>" ++ name).toList = '>' :: '>' :: name.toList := by simp
    have hne : ∀ c : Char, c ≠ '>' → ">>" ++ name ≠ String.ofList [c] := fun c hc h => by
      rw [← String.toList_inj, String.toList_ofList, hmarked] at h
      exact hc (List.cons.inj h).1.symm
    obtain ⟨hchars, -⟩ :=
      readable_of_readCommand hlabel (hne '{' (by decide)) (hne '}' (by decide))
    rw [hmarked] at hchars
    exact fun c hc => hchars c (List.mem_cons_of_mem _ (List.mem_cons_of_mem _ hc))

theorem Shown.onLine (h : Shown cs rest header) : OnLine cs rest := by
  cases h <;> assumption

theorem Shown.not_marked (h : Shown cs rest (.label name)) : ¬Shown cs left (.label (">>" ++ name)) := by
  rintro ⟨⟩
  rename_i hline hlabel
  cases h with
  | label hlabel' =>
    rw [hlabel', Prod.mk.injEq, ← String.toList_inj] at hlabel
    simpa using congrArg List.length hlabel.1

/-- What the index has at a line, said of the cursor. -/
theorem here?_eq_some_iff {text : List Char} {position : Nat} (h : header.Readable) :
    here? text cs = some (header, position) ↔
      ∃ rest, Shown cs rest header ∧ ¬Glued rest ∧ position = positionOf text rest := by
  rw [here?, Option.map_eq_some_iff]
  constructor
  · rintro ⟨⟨_, left⟩, hread, ⟨⟩⟩
    obtain ⟨hshown, hglued⟩ := (shown_iff h).2 ⟨left, hread, rfl⟩
    exact ⟨_, hshown, hglued, rfl⟩
  · rintro ⟨rest, hshown, hglued, rfl⟩
    obtain ⟨left, hread, rfl⟩ := (shown_iff h).1 ⟨hshown, hglued⟩
    exact ⟨(header, left), hread, rfl⟩

end Header

namespace Script

open Header

variable {name text : String} {header : Header}

theorem position?_isSome_iff (name text : String) (h : header.Readable) :
    ((ofText name text).position? header).isSome = true ↔
      ∃ start ∈ lineStarts text.toList, ∃ left, Shown start left header.bare ∧ ¬Glued left := by
  rw [position?_ofText, h.bare.folded, Option.isSome_map, List.find?_isSome]
  constructor
  · rintro ⟨⟨found, position⟩, hmem, hfound⟩
    obtain rfl : found = header.bare := by simpa using hfound
    obtain ⟨start, hstart, hhere⟩ := List.mem_filterMap.1 hmem
    obtain ⟨left, hshown, hglued, -⟩ := (here?_eq_some_iff h.bare).1 hhere
    exact ⟨start, hstart, left, hshown, hglued⟩
  · rintro ⟨start, hstart, left, hshown, hglued⟩
    have hhere : here? text.toList start = some (header.bare, Text.positionOf text.toList left) :=
      (here?_eq_some_iff h.bare).2 ⟨left, hshown, hglued, rfl⟩
    exact ⟨_, List.mem_filterMap.2 ⟨start, hstart, hhere⟩, by simp⟩

theorem of_position?_eq_some {position : Nat} (h : header.Readable)
    (hfound : (ofText name text).position? header = some position) :
    ∃ start ∈ lineStarts text.toList, ∃ left, Shown start left header.bare ∧ ¬Glued left ∧
      position = Text.positionOf text.toList left := by
  rw [position?_ofText, h.bare.folded, Option.map_eq_some_iff] at hfound
  obtain ⟨⟨found, position⟩, hfind, rfl⟩ := hfound
  obtain rfl : found = header.bare := by simpa using List.find?_some hfind
  obtain ⟨start, hstart, hhere⟩ := List.mem_filterMap.1 (List.mem_of_find?_eq_some hfind)
  exact ⟨start, hstart, (here?_eq_some_iff h.bare).1 hhere⟩

/-- The first line that has the header is where the index finds it. -/
theorem position?_of_first {earlier later : List (List Char)} {cs rest : List Char}
    (hlines : lineStarts text.toList = earlier ++ cs :: later) (hshown : Shown cs rest header)
    (hglued : ¬Glued rest) (hbare : header.bare = header)
    (hfirst : ∀ start ∈ earlier, ∀ left, ¬Shown start left header) :
    (ofText name text).position? header = some (Text.positionOf text.toList rest) := by
  have hread := hshown.readable
  have hnone : (earlier.filterMap (here? text.toList)).find? (·.1 == header) = none := by
    rw [List.find?_eq_none]
    rintro ⟨found, position⟩ hmem hfound
    obtain rfl : found = header := by simpa using hfound
    obtain ⟨start, hstart, hhere⟩ := List.mem_filterMap.1 hmem
    obtain ⟨left, hleft, -⟩ := (here?_eq_some_iff hread).1 hhere
    exact hfirst start hstart left hleft
  have hhere : here? text.toList cs = some (header, Text.positionOf text.toList rest) :=
    (here?_eq_some_iff hread).2 ⟨rest, hshown, hglued, rfl⟩
  rw [position?_ofText, hbare, hread.folded, hlines, List.filterMap_append, List.find?_append, hnone,
    List.filterMap_cons_some hhere, List.find?_cons_of_pos (by simp)]
  rfl

/-- The cursor, at the beginning of a line, comes upon a header on this line. The index has such a header
if the cursor comes upon it on some line where no brace is glued to it; and what the index has is
the position where the cursor goes on from the first line with the header, exactly when no brace is
glued to it there, and it is not a label whose name begins with a marker. -/
theorem index_agrees_iff (name text : String) {earlier later : List (List Char)} {cs rest : List Char}
    (hlines : lineStarts text.toList = earlier ++ cs :: later) (hshown : Shown cs rest header) :
    let s := ofText name text
    ((s.position? header).isSome = true ↔
      ∃ start ∈ lineStarts text.toList, ∃ left, Shown start left header.bare ∧ ¬Glued left) ∧
    ((∀ start ∈ earlier, ∀ left, ¬Shown start left header) →
      (s.position? header = some (s.positionOf rest) ↔
        ¬Glued rest ∧ ∀ more, header ≠ .label (">>" ++ more))) := by
  intro s
  have hread := hshown.readable
  refine ⟨position?_isSome_iff name text hread, fun hfirst => ⟨fun hfound => ?_, ?_⟩⟩
  · obtain ⟨start, hstart, left, hleft, hglued, hposition⟩ := of_position?_eq_some hread hfound
    have hcs : cs ∈ lineStarts text.toList := hlines ▸ List.mem_append_right _ List.mem_cons_self
    obtain rfl : rest = left := eq_of_positionOf_eq
      (hshown.onLine.suffix.trans (suffix_of_mem_lineStarts hcs))
      (hleft.onLine.suffix.trans (suffix_of_mem_lineStarts hstart)) hposition
    refine ⟨hglued, ?_⟩
    rintro more rfl
    obtain rfl := eq_of_mem_lineStarts hcs hstart hshown.onLine hleft.onLine
    rw [Header.bare_marked] at hleft
    exact hleft.not_marked hshown
  · rintro ⟨hglued, hunmarked⟩
    exact position?_of_first hlines hshown hglued (Header.bare_eq_self hunmarked) hfirst

end Script

def porch : String := "ON Init \x7b\naccept\n\x7d\n"

theorem porch_shown : Header.Shown porch.toList " \x7b\naccept\n\x7d\n".toList (.event "init") := by
  refine @Header.Shown.event _ _ " Init \x7b\naccept\n\x7d\n".toList _ ?_ ?_ ?_ ?_ ?_ ⟨"ON Init".toList, ?_, ?_⟩
  all_goals decide +kernel

/-- The header that stands apart is found where the cursor goes on. -/
theorem index_agrees_porch :
    lineStarts porch.toList = [] ++ porch.toList :: startsBelow porch.toList ∧
      Header.Shown porch.toList " \x7b\naccept\n\x7d\n".toList (.event "init") ∧
      (Script.ofText "porch" porch).position? (.event "init") = some 7 := by
  have hlines : lineStarts porch.toList = [] ++ porch.toList :: startsBelow porch.toList := rfl
  refine ⟨hlines, porch_shown, ?_⟩
  obtain ⟨-, hfirst⟩ := Script.index_agrees_iff "porch" porch hlines porch_shown
  have hspace : ¬Glued " \x7b\naccept\n\x7d\n".toList := by
    rintro ⟨c, hc, hbrace⟩
    obtain rfl : ' ' = c := Option.some.inj hc
    rcases hbrace with hopen | hclose
    · exact absurd hopen (by decide)
    · exact absurd hclose (by decide)
  exact (hfirst (by simp)).2 ⟨hspace, by simp⟩

/-- The header with the brace glued to it is not found, though the cursor comes upon it. -/
theorem index_misses_glued :
    Header.Shown "on init\x7b\naccept\n\x7d\n".toList "\x7b\naccept\n\x7d\n".toList (.event "init") ∧
      (Script.ofText "porch" "on init\x7b\naccept\n\x7d\n").position? (.event "init") = none := by
  refine ⟨@Header.Shown.event _ _ " init\x7b\naccept\n\x7d\n".toList _ ?_ ?_ ?_ ?_ ?_ ⟨"on init".toList, ?_, ?_⟩, ?_⟩
  all_goals decide +kernel

end EntityScript
