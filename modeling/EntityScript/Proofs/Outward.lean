import EntityScript.Proofs.Lexemes
import Mathlib.Data.List.Infix

/-! Closing braces that skipping takes away from the blocks around. A block is skipped up to the brace
that closes it, and what lies between statements has no braces, but a command is skipped with its line
and an `if` with its words, and those may hold any. Skipping closes a block that it has not opened if
and only if these lines do, `skip_closesOutward_iff`. -/

namespace EntityScript.Reading

/-- What the text behind a character stands in. -/
def Inside.next : Inside → Char → List Char → Inside
  | .comment, c, _ => if c = '\n' then .code else .comment
  | .quotes, c, _ => if isQuotedChar c then .quotes else .code
  | .code, c, rest => if atComment (c :: rest) then .comment else if c = '"' then .quotes else .code

def Inside.after : Inside → List Char → Inside
  | inside, [] => inside
  | inside, c :: rest => (inside.next c rest).after rest

def Inside.braces : Inside → List Char → List Char
  | _, [] => []
  | inside, c :: rest => (if inside = .code ∧ IsBrace c then [c] else []) ++ (inside.next c rest).braces rest

/-- Where so many blocks are open, the braces close more. -/
def Overruns (blocks : Int) (braces : List Char) : Prop := ∃ front ∈ braces.inits, blocks + excess front < 0

instance (blocks : Int) (braces : List Char) : Decidable (Overruns blocks braces) := by
  unfold Overruns
  infer_instance

/-- The text closes a block that it has not opened. -/
def ClosesOutward (text : List Char) : Prop := Overruns 0 (Inside.code.braces text)

instance (text : List Char) : Decidable (ClosesOutward text) := by unfold ClosesOutward; infer_instance

def before (cs left : List Char) : List Char := cs.take (cs.length - left.length)

/-- What is read on a line when a statement is skipped: a command with the rest of its line, or the word
`if` with the operands behind it. -/
structure Passage where
  text : List Char
  isTest : Bool
deriving DecidableEq

namespace Passage

def braces (p : Passage) : List Char := Inside.code.braces p.text

/-- Operands end where they do for a reader who looks for braces. -/
def IsWhole (p : Passage) : Prop := p.isTest = true → Inside.code.after p.text = .code

instance (p : Passage) : Decidable p.IsWhole := by unfold IsWhole; infer_instance

end Passage

def passages (cs : List Char) : List Passage :=
  let start := dropFiller false cs
  let rest := (readCommand cs).2
  match h : Lead.of (readCommand cs).1 with
  | .nothing => []
  | .closingBrace => []
  | .openingBrace => []
  | .command => [⟨before start (dropLine start), false⟩]
  | .conditional =>
    have hlt : rest.length < cs.length :=
      readCommand_length_lt (Lead.of_ne_nothing (by rw [h]; decide))
    let operands := dropOperands rest
    have hguarded : operands.length < cs.length :=
      Nat.lt_of_le_of_lt (dropOperands_suffix rest).length_le hlt
    let branch := (readCommand (skipStatement operands)).2
    have hbranch : branch.length < cs.length :=
      Nat.lt_of_le_of_lt ((readCommand_suffix _).trans (skipStatement_suffix operands)).length_le hguarded
    ⟨before start operands, true⟩ ::
      (passages operands ++ if elseFollows (skipStatement operands) then passages branch else [])
termination_by cs.length
decreasing_by
  · exact hguarded
  · exact hbranch

variable {cs front left more rest xs ys : List Char} {c : Char} {n m : Int} {inside : Inside}

theorem passages_eq (cs : List Char) :
    passages cs =
      match Lead.of (readCommand cs).1 with
      | .nothing => []
      | .closingBrace => []
      | .openingBrace => []
      | .command => [⟨before (dropFiller false cs) (dropLine (dropFiller false cs)), false⟩]
      | .conditional =>
        let operands := dropOperands (readCommand cs).2
        ⟨before (dropFiller false cs) operands, true⟩ ::
          (passages operands ++
            if elseFollows (skipStatement operands) then passages (readCommand (skipStatement operands)).2
            else []) := by
  rw [passages]
  split
  all_goals rename_i h; simp only [h]

section Excess

theorem overruns_nil : Overruns n [] ↔ n < 0 := by
  simp [Overruns, excess]

theorem overruns_cons : Overruns n (c :: xs) ↔ n < 0 ∨ Overruns (n + excess [c]) xs := by
  have hcons : ∀ front, n + excess (c :: front) = n + excess [c] + excess front := fun front => by
    rw [← List.singleton_append, excess_append, Int.add_assoc]
  rw [Overruns, List.inits, List.exists_mem_cons_iff]
  refine or_congr (by simp [excess]) ⟨?_, ?_⟩
  · rintro ⟨_, hmem, hlow⟩
    obtain ⟨front, hfront, rfl⟩ := List.mem_map.1 hmem
    exact ⟨front, hfront, hcons front ▸ hlow⟩
  · rintro ⟨front, hfront, hlow⟩
    exact ⟨c :: front, List.mem_map_of_mem hfront, (hcons front).symm ▸ hlow⟩

theorem overruns_append : Overruns n (xs ++ ys) ↔ Overruns n xs ∨ Overruns (n + excess xs) ys := by
  induction xs generalizing n with
  | nil =>
    have hneg : n < 0 → Overruns n ys := fun hn => ⟨[], by simp, by simpa [excess] using hn⟩
    simp only [List.nil_append, overruns_nil]
    simpa [excess] using hneg
  | cons c xs ih =>
    have hcons : excess (c :: xs) = excess [c] + excess xs := excess_append [c] xs
    rw [List.cons_append, overruns_cons, ih, overruns_cons, hcons, Int.add_assoc, or_assoc]

theorem Overruns.mono (h : Overruns m xs) (hle : n ≤ m) : Overruns n xs := by
  obtain ⟨front, hfront, hlow⟩ := h
  exact ⟨front, hfront, by omega⟩

/-- Braces that close no more than is open leave nothing closed that is not. -/
theorem nonneg_of_not_overruns (h : ¬Overruns n xs) : 0 ≤ n + excess xs := by
  have hself : xs ∈ xs.inits := by simp
  by_contra hneg
  exact h ⟨xs, hself, by omega⟩

end Excess

/-- No comment begins across the seam. -/
def Seam (front left : List Char) : Prop := front.getLast? = some '/' → left.head? ≠ some '/'

theorem atComment_seam (h : Seam (c :: front) left) :
    atComment (c :: (front ++ left)) = atComment (c :: front) := by
  cases front with
  | cons d front =>
    rw [Bool.eq_iff_iff, atComment_iff, atComment_iff]
    simp
  | nil =>
    by_cases hslash : c = '/'
    · exact atComment_append (fun d hd he => h (by simp [hslash]) (he ▸ hd)) [c]
    · rw [atComment_of_ne hslash, atComment_of_ne hslash]

theorem next_seam (h : Seam (c :: front) left) : inside.next c (front ++ left) = inside.next c front := by
  cases inside with
  | comment | quotes => rfl
  | code => simp only [Inside.next, atComment_seam h]

theorem Seam.tail (h : Seam (c :: front) left) : Seam front left := by
  cases front with
  | nil => exact fun hnil => nomatch hnil
  | cons d front => exact h

theorem Seam.of_left (h : Seam front (more ++ left)) : Seam front more := by
  cases more with
  | nil => exact fun _ hnil => nomatch hnil
  | cons d more => exact h

theorem after_append (h : Seam front left) :
    inside.after (front ++ left) = (inside.after front).after left := by
  induction front generalizing inside with
  | nil => rfl
  | cons c front ih => rw [List.cons_append, Inside.after, next_seam h, ih h.tail, Inside.after]

theorem braces_append (h : Seam front left) :
    inside.braces (front ++ left) = inside.braces front ++ (inside.after front).braces left := by
  induction front generalizing inside with
  | nil => rfl
  | cons c front ih =>
    rw [List.cons_append, Inside.braces, next_seam h, ih h.tail, Inside.braces, Inside.after, List.append_assoc]

theorem next_quiet (h : IsQuiet c) (rest : List Char) : Inside.code.next c rest = .code := by
  rw [Inside.next, atComment_of_ne h.1, if_neg Bool.false_ne_true, if_neg h.2.1]

theorem quiet (h : ∀ c ∈ front, IsQuiet c) :
    Inside.code.braces front = [] ∧ Inside.code.after front = .code := by
  induction front with
  | nil => exact ⟨rfl, rfl⟩
  | cons c front ih =>
    obtain ⟨hc, hfront⟩ := List.forall_mem_cons.1 h
    have hbrace : ¬IsBrace c := not_or.2 hc.2.2
    rw [Inside.braces, Inside.after, next_quiet hc, if_neg fun hboth => hbrace hboth.2]
    exact ih hfront

/-- Comments and quotes end with their line. -/
theorem next_break (inside : Inside) (rest : List Char) : inside.next '\n' rest = .code := by
  cases inside <;> rfl

theorem AtBreak.braces (h : AtBreak cs) (inside : Inside) : inside.braces cs = Inside.code.braces cs := by
  cases cs with
  | nil => rfl
  | cons c cs =>
    obtain rfl := h c rfl
    have hbrace : ¬IsBrace '\n' := by decide
    simp only [Inside.braces, next_break, hbrace, and_false, if_false]

theorem AtBreak.after (h : AtBreak cs) (hne : cs ≠ []) (inside : Inside) :
    inside.after cs = Inside.code.after cs := by
  cases cs with
  | nil => exact absurd rfl hne
  | cons c cs =>
    obtain rfl := h c rfl
    simp only [Inside.after, next_break]

/-- A stretch of text before `left` that closes what these braces close. -/
structure Stretch (front left braces : List Char) : Prop where
  seam : Seam front left
  overruns : ∀ n, 0 ≤ n → (Overruns n (Inside.code.braces front) ↔ Overruns n braces)
  /-- A block that is not closed ends with the text. -/
  excess : left ≠ [] → excess (Inside.code.braces front) = excess braces
  ending : left ≠ [] → Inside.code.after front = .code ∨ AtBreak left

namespace Stretch

variable {braces braces' : List Char}

theorem self (hseam : Seam front left)
    (hending : left ≠ [] → Inside.code.after front = .code ∨ AtBreak left) :
    Stretch front left (Inside.code.braces front) :=
  ⟨hseam, fun _ _ => Iff.rfl, fun _ => rfl, hending⟩

theorem nil (left : List Char) : Stretch [] left [] := self (fun h => nomatch h) fun _ => .inl rfl

theorem quiet (hseam : Seam front left) (h : ∀ c ∈ front, IsQuiet c) : Stretch front left [] := by
  obtain ⟨hbraces, hafter⟩ := Reading.quiet h
  exact hbraces ▸ self hseam fun _ => .inl hafter

/-- The second stretch is read as if it were alone. -/
theorem braces_append (h : Stretch front (more ++ left) braces) :
    Inside.code.braces (front ++ more) = Inside.code.braces front ++ Inside.code.braces more := by
  rw [Reading.braces_append h.seam.of_left]
  cases more with
  | nil => rfl
  | cons c more =>
    rcases h.ending (List.cons_ne_nil _ _) with hcode | hbreak
    · rw [hcode]
    · have hmore : AtBreak (c :: more) := hbreak
      rw [hmore.braces]

theorem append (h : Stretch front (more ++ left) braces) (h' : Stretch more left braces') :
    Stretch (front ++ more) left (braces ++ braces') where
  seam := by
    cases more with
    | nil => rw [List.append_nil]; exact h.seam
    | cons c more =>
      intro hlast
      rw [List.getLast?_append_of_ne_nil _ (List.cons_ne_nil _ _)] at hlast
      exact h'.seam hlast
  overruns n hn := by
    rw [h.braces_append, overruns_append, overruns_append, h.overruns n hn]
    by_cases hover : Overruns n braces
    · simp [hover]
    have hleft := nonneg_of_not_overruns (mt (h.overruns n hn).1 hover)
    have hright := nonneg_of_not_overruns hover
    by_cases hend : more ++ left = []
    · -- behind a block that is not closed the depths differ, but nothing follows
      obtain ⟨rfl, rfl⟩ := List.append_eq_nil_iff.1 hend
      simp only [hover, false_or]
      rw [← h'.overruns _ hright]
      simp only [Inside.braces, overruns_nil]
      omega
    · rw [h.excess hend, h'.overruns _ hright]
  excess hne := by
    have hne' : more ++ left ≠ [] := List.append_ne_nil_of_right_ne_nil _ hne
    rw [h.braces_append, excess_append, excess_append, h.excess hne', h'.excess hne]
  ending hne := by
    have hne' : more ++ left ≠ [] := List.append_ne_nil_of_right_ne_nil _ hne
    cases more with
    | nil => rw [List.append_nil]; exact h.ending hne
    | cons c more =>
      have hrest := h'.ending hne
      rw [after_append h.seam.of_left]
      rcases h.ending hne' with hcode | hbreak
      · rwa [hcode]
      · have hmore : AtBreak (c :: more) := hbreak
        rwa [hmore.after (List.cons_ne_nil _ _)]

end Stretch

/-- Reading leads from the text to an ending of it over a stretch that closes what these braces close. -/
def Crosses (cs left braces : List Char) : Prop := ∃ front, cs = front ++ left ∧ Stretch front left braces

theorem Crosses.refl (cs : List Char) : Crosses cs cs [] := ⟨[], rfl, .nil cs⟩

theorem Crosses.trans {braces braces' : List Char} (h : Crosses cs more braces) (h' : Crosses more left braces') :
    Crosses cs left (braces ++ braces') := by
  obtain ⟨front, rfl, hfront⟩ := h
  obtain ⟨next, rfl, hnext⟩ := h'
  exact ⟨front ++ next, (List.append_assoc ..).symm, hfront.append hnext⟩

theorem before_eq (front left : List Char) : before (front ++ left) left = front := by
  simp [before]

theorem braces_comment {text : List Char} (h : '\n' ∉ text) : Inside.comment.braces text = [] := by
  induction text with
  | nil => rfl
  | cons c text ih =>
    obtain ⟨hc, htext⟩ := not_or.1 (mt List.mem_cons.2 h)
    have hnext : Inside.comment.next c text = .comment := if_neg (Ne.symm hc)
    rw [Inside.braces, hnext, ih htext]
    rfl

theorem Seam.of_last (h : front.getLast? ≠ some '/') (left : List Char) : Seam front left :=
  fun hlast => absurd hlast h

theorem Seam.of_break (h : AtBreak left) (front : List Char) : Seam front left :=
  fun _ hslash => absurd (h _ hslash) (by decide)

theorem Seam.of_stopsWord (h : StopsWord left) (front : List Char) : Seam front left :=
  fun _ hslash => absurd (h _ hslash) (by decide)

/-- A comment is read up to the end of its line, which ends it. -/
theorem comment_stretch (h : atComment cs = true) :
    Stretch (cs.takeWhile (· != '\n')) (dropLine cs) [] := by
  obtain ⟨rest, rfl⟩ := atComment_iff.1 h
  have htake : ('/' :: '/' :: rest).takeWhile (· != '\n') = '/' :: '/' :: rest.takeWhile (· != '\n') := by simp
  have hline : '\n' ∉ '/' :: rest.takeWhile (· != '\n') := by
    rw [List.mem_cons, not_or]
    exact ⟨by decide, fun hb => absurd (List.mem_takeWhile_imp hb) (by decide)⟩
  have hbraces : Inside.code.braces ('/' :: '/' :: rest.takeWhile (· != '\n')) = [] := braces_comment hline
  rw [htake, ← hbraces]
  exact .self (.of_break (lineOver_dropLine _) _) fun _ => .inr (lineOver_dropLine _)

/-- What lies between statements. -/
theorem filler_crosses (h : Seeks cs left) : Crosses cs left [] := by
  induction h with
  | atEnd | atWord => exact .refl _
  | @blank c cs _ hc _ ih =>
    have hquiet : IsQuiet c := (Blank.mk c hc).isQuiet
    have hseam : Seam [c] cs := .of_last (by simpa using hquiet.1) cs
    have hblank : Stretch [c] cs [] := .quiet hseam (by simpa using hquiet)
    exact Crosses.trans ⟨[c], rfl, hblank⟩ ih
  | comment hcomment hline _ ih =>
    obtain ⟨rfl, rfl⟩ := passes_iff.1 hline
    exact Crosses.trans ⟨_, List.takeWhile_append_dropWhile.symm, comment_stretch hcomment⟩ ih

theorem dropBlock_opened (n : Nat) (rest : List Char) :
    dropBlock .code n ('{' :: rest) = dropBlock .code (n + 1) rest := by
  simp [dropBlock, atComment]

theorem dropBlock_last (rest : List Char) : dropBlock .code 0 ('}' :: rest) = rest := by
  simp [dropBlock, atComment]

theorem dropBlock_closed (n : Nat) (rest : List Char) :
    dropBlock .code (n + 1) ('}' :: rest) = dropBlock .code n rest := by
  simp [dropBlock, atComment]

theorem dropBlock_next (h : ¬(inside = .code ∧ IsBrace c)) (n : Nat) (rest : List Char) :
    dropBlock inside n (c :: rest) = dropBlock (inside.next c rest) n rest := by
  cases inside with
  | comment | quotes => rfl
  | code =>
    obtain ⟨hopen, hclose⟩ := not_or.1 fun hbrace => h ⟨rfl, hbrace⟩
    rw [Inside.next, dropBlock.eq_def]
    simp only [hopen, hclose, if_false]
    split
    · rfl
    · split <;> rfl

/-- From within a block the text is read behind its closing brace, or to its end. -/
structure Quits (inside : Inside) (n : Nat) (body left : List Char) : Prop where
  stays : ¬Overruns (n + 1) (inside.braces body)
  closes : left ≠ [] → (n + 1) + excess (inside.braces body) = 0
  ending : left ≠ [] → inside.after body = .code
  last : left ≠ [] → body.getLast? = some '}'

namespace Quits

variable {body : List Char} {inside' : Inside} {k k' : Nat}

theorem last_cons (h : Quits inside k body left) (c : Char) (hleft : left ≠ []) :
    (c :: body).getLast? = some '}' := by
  rw [List.getLast?_cons, h.last hleft]
  rfl

theorem seam (h : Quits inside k body left) (c : Char) : Seam (c :: body) left := by
  cases left with
  | nil => exact fun _ hnil => nomatch hnil
  | cons d left => exact .of_last (by simp [h.last_cons c (List.cons_ne_nil _ _)]) _

/-- The character before the text is read. -/
theorem cons (h : Quits inside' k' body left) {first : List Char}
    (hfirst : (if inside = .code ∧ IsBrace c then [c] else []) = first) (hnext : inside.next c body = inside')
    (hstays : ¬Overruns (k + 1) first) (hopen : (k + 1) + excess first = k' + 1) :
    Quits inside k (c :: body) left where
  stays := by
    rw [Inside.braces, hfirst, hnext, overruns_append, hopen, not_or]
    exact ⟨hstays, h.stays⟩
  closes hleft := by
    rw [Inside.braces, hfirst, hnext, excess_append, ← Int.add_assoc, hopen]
    exact h.closes hleft
  ending hleft := by
    rw [Inside.after, hnext]
    exact h.ending hleft
  last hleft := h.last_cons c hleft

end Quits

theorem dropBlock_quits (inside : Inside) (k : Nat) (cs : List Char) :
    ∃ body, cs = body ++ dropBlock inside k cs ∧ Quits inside k body (dropBlock inside k cs) := by
  induction cs generalizing inside k with
  | nil =>
    have hnil : dropBlock inside k [] = [] := by simp [dropBlock]
    rw [hnil]
    have hne : ¬([] : List Char) ≠ [] := not_not.2 rfl
    refine ⟨[], rfl, ?_, fun h => absurd h hne, fun h => absurd h hne, fun h => absurd h hne⟩
    rw [Inside.braces, overruns_nil]
    omega
  | cons c cs ih =>
    by_cases hbrace : inside = .code ∧ IsBrace c
    · obtain ⟨rfl, rfl | rfl⟩ := hbrace
      · obtain ⟨body, hcs, hbody⟩ := ih .code (k + 1)
        rw [dropBlock_opened]
        have hone : excess ['{'] = 1 := rfl
        refine ⟨'{' :: body, congrArg _ hcs, hbody.cons (if_pos (by decide)) rfl ?_ ?_⟩
        · rw [overruns_cons, overruns_nil, hone]
          omega
        · omega
      · cases k with
        | zero =>
          rw [dropBlock_last]
          exact ⟨['}'], rfl, by decide, fun _ => by decide, fun _ => rfl, fun _ => rfl⟩
        | succ k =>
          obtain ⟨body, hcs, hbody⟩ := ih .code k
          rw [dropBlock_closed]
          have hone : excess ['}'] = -1 := rfl
          refine ⟨'}' :: body, congrArg _ hcs, hbody.cons (if_pos (by decide)) rfl ?_ ?_⟩
          · rw [overruns_cons, overruns_nil, hone]
            omega
          · omega
    · obtain ⟨body, hcs, hbody⟩ := ih (inside.next c cs) k
      rw [dropBlock_next hbrace]
      have hnext : inside.next c body = inside.next c cs := by
        conv_rhs => rw [hcs]
        exact (next_seam (hbody.seam c)).symm
      refine ⟨c :: body, congrArg _ hcs, hbody.cons (if_neg hbrace) hnext ?_ rfl⟩
      rw [overruns_nil]
      omega

/-- A block is skipped whole, and leaves the blocks around it as they are. -/
theorem block_crosses (rest : List Char) : Crosses ('{' :: rest) (dropBlock .code 0 rest) [] := by
  obtain ⟨body, hrest, hbody⟩ := dropBlock_quits .code 0 rest
  have hbraces : Inside.code.braces ('{' :: body) = '{' :: Inside.code.braces body := rfl
  have hone : excess ['{'] = 1 := rfl
  refine ⟨'{' :: body, congrArg _ hrest, hbody.seam '{', fun n hn => ?_, fun hleft => ?_, fun hleft => ?_⟩
  · have hstays : ¬Overruns (n + 1) (Inside.code.braces body) := fun h => hbody.stays (h.mono (by omega))
    rw [hbraces, overruns_cons, overruns_nil, hone]
    exact or_iff_left hstays
  · have hcloses := hbody.closes hleft
    rw [hbraces, ← List.singleton_append, excess_append, hone]
    simpa [excess] using hcloses
  · exact .inl (hbody.ending hleft)

/-- How the next statement begins, and what stands behind its first word. -/
inductive Start (cs : List Char) : Lead → Prop
  | nothing (hstart : dropFiller false cs = []) (hrest : (readCommand cs).2 = []) : Start cs .nothing
  | closingBrace : Start cs .closingBrace
  | openingBrace (hstart : dropFiller false cs = '{' :: (readCommand cs).2) : Start cs .openingBrace
  | word {lead : Lead} {word : List Char} (hlead : lead = .command ∨ lead = .conditional)
    (hstart : dropFiller false cs = word ++ (readCommand cs).2) (hstop : StopsWord (readCommand cs).2)
    (hword : ∀ c ∈ word, isCommandChar c = true)
    (hread : (readCommand cs).1 = Text.lowercase (String.ofList word)) : Start cs lead

theorem start (cs : List Char) : Start cs (Lead.of (readCommand cs).1) := by
  have hreads := reads cs
  have hrest : (readCommand cs).2 = (takeCommand cs).2 := rfl
  rw [(lead_of_reads hreads).1]
  generalize hword : (takeCommand cs).1 = word at hreads
  generalize hleft : (takeCommand cs).2 = left at hreads hrest
  cases hreads with
  | nothing hseeks => exact .nothing (seeks_iff.1 hseeks).symm hrest
  | @brace c _ _ hseeks hc =>
    rw [Block.lowercase_brace hc]
    rcases hc with rfl | rfl
    · exact .openingBrace (hrest ▸ (seeks_iff.1 hseeks).symm)
    · exact .closingBrace
  | @word c _ more _ _ hseeks hc hpasses =>
    have hfirst := isCommandChar_of_seeks hseeks hc
    obtain ⟨rfl, rfl⟩ := passes_iff.1 hpasses
    have hchars : ∀ d ∈ (c :: more).takeWhile isCommandChar, isCommandChar d = true :=
      fun d hd => List.mem_takeWhile_imp hd
    have hne : (c :: more).takeWhile isCommandChar ≠ [] := by
      rw [List.takeWhile_cons_of_pos hfirst]
      exact List.cons_ne_nil _ _
    have hbrace : ∀ d ∈ (c :: more).takeWhile isCommandChar, ¬IsBrace d :=
      fun d hd => (isCommandChar_iff.1 (hchars d hd)).2.2
    have hread : (readCommand cs).1 = Text.lowercase (String.ofList ((c :: more).takeWhile isCommandChar)) :=
      congrArg (fun word => Text.lowercase (String.ofList word)) hword
    refine .word ?_ ?_ ?_ hchars hread
    · by_cases hif : Text.lowercase (String.ofList ((c :: more).takeWhile isCommandChar)) = "if"
      · rw [hif]
        exact .inr rfl
      · exact .inl (lead_of_noBrace hne hbrace hif)
    · rw [hrest, List.takeWhile_append_dropWhile, seeks_iff.1 hseeks]
    · rw [hrest]
      exact fun d hd => head?_dropWhile hd

def CutAt (cs left : List Char) : Prop := ∃ front, cs = front ++ left ∧ Seam front left

theorem CutAt.of_head (h : left <:+ cs) (hhead : ∀ c ∈ left.head?, c ≠ '/') : CutAt cs left := by
  obtain ⟨front, rfl⟩ := h
  exact ⟨front, rfl, fun _ hslash => hhead _ hslash rfl⟩

theorem CutAt.of_quote (h : '"' :: left <:+ cs) : CutAt cs left := by
  obtain ⟨front, rfl⟩ := h
  exact ⟨front ++ ['"'], by simp, .of_last (by simp) _⟩

/-- No word ends between the slashes of a comment. -/
theorem CutAt.dropToken (h : CutAt cs left) : CutAt cs (dropToken left) := by
  obtain ⟨front, hcs, hseam⟩ := h
  have hleft : left <:+ cs := ⟨front, hcs.symm⟩
  have hpeeks := peeks left
  rw [Reading.dropToken]
  generalize nextToken left = token at hpeeks
  cases hpeeks with
  | nothing | lineEnd => exact ⟨front, hcs, hseam⟩
  | @quoted _ _ rest _ stop hblanks hword =>
    obtain ⟨-, rfl⟩ := passes_iff.1 hword
    have hrest : '"' :: rest <:+ left := (passes_iff.1 hblanks).2 ▸ List.dropWhile_suffix _
    have hstop := ((List.dropWhile_suffix isQuotedChar).trans (List.suffix_cons _ _)).trans (hrest.trans hleft)
    have hhead : ∀ d ∈ (rest.dropWhile isQuotedChar).head?, isQuotedChar d = false :=
      fun d hd => head?_dropWhile hd
    generalize rest.dropWhile isQuotedChar = stop at hstop hhead
    cases stop with
    | nil => exact .of_head hstop (by simp [dropQuote])
    | cons d stop =>
      by_cases hd : d = '"'
      · subst hd
        exact .of_quote hstop
      · have hbreak : d = '\n' := by simpa [isQuotedChar, hd] using hhead d rfl
        subst hbreak
        exact .of_head hstop (by simp [dropQuote])
  | @word c _ _ rest _ _ hblanks _ _ hword =>
    obtain ⟨-, rfl⟩ := passes_iff.1 hword
    have hrest : c :: rest <:+ left := (passes_iff.1 hblanks).2 ▸ List.dropWhile_suffix _
    refine .of_head ((List.dropWhile_suffix _).trans (hrest.trans hleft)) fun d hd hslash => ?_
    exact absurd (head?_dropWhile hd) (by rw [hslash]; decide)

theorem CutAt.dropOperands (h : CutAt cs left) : CutAt cs (dropOperands left) := h.dropToken.dropToken.dropToken

/-- What is read on a line is crossed with its braces. -/
theorem Passage.crosses (isTest : Bool) (hcut : CutAt cs left)
    (hending : left ≠ [] → Inside.code.after (before cs left) = .code ∨ AtBreak left) :
    Crosses cs left (Passage.braces ⟨before cs left, isTest⟩) := by
  obtain ⟨front, rfl, hseam⟩ := hcut
  rw [before_eq] at hending ⊢
  exact ⟨front, rfl, .self hseam hending⟩

theorem line_crosses (cs : List Char) :
    Crosses cs (dropLine cs) (Passage.braces ⟨before cs (dropLine cs), false⟩) := by
  have hbreak : AtBreak (dropLine cs) := lineOver_dropLine cs
  refine Passage.crosses false (.of_head (dropLine_suffix cs) ?_) fun _ => .inr hbreak
  intro c hc
  rw [hbreak c hc]
  decide

theorem else_crosses (h : elseFollows cs = true) : Crosses cs (readCommand cs).2 [] := by
  have hfiller := filler_crosses (seeks cs)
  have helse : (readCommand cs).1 = "else" := by simpa [elseFollows] using h
  have hstart := start cs
  rw [helse] at hstart
  generalize hlead : Lead.of "else" = lead at hstart
  cases hstart with
  | nothing | closingBrace | openingBrace => exact absurd hlead (by decide)
  | @word _ word _ hstart hstop _ hread =>
    have hmem : ∀ c ∈ word, Text.IsLower c → c ∈ "else".toList := by
      intro c hc hlower
      rw [← helse, hread, Text.lowercase_ofList, String.toList_ofList]
      exact Text.mem_lowerFrom hlower hc []
    have hquiet : ∀ c ∈ word, IsQuiet c := by
      refine fun c hc => ⟨?_, ?_, ?_, ?_⟩
      all_goals
        rintro rfl
        exact absurd (hmem _ hc (by decide)) (by decide)
    exact hfiller.trans ⟨word, hstart, .quiet (.of_stopsWord hstop _) hquiet⟩

/-- What is skipped has the braces of the lines that are passed over, and of whole blocks. -/
theorem skipStatement_crosses (cs : List Char) (h : ∀ p ∈ passages cs, p.IsWhole) :
    Crosses cs (skipStatement cs) ((passages cs).flatMap Passage.braces) := by
  have hfiller := filler_crosses (seeks cs)
  have hstart := start cs
  rw [passages_eq] at h ⊢
  rw [skipStatement_eq]
  generalize hlead : Lead.of (readCommand cs).1 = lead at hstart h ⊢
  cases hstart with
  | nothing hstart hrest =>
    rw [hstart] at hfiller
    rwa [hrest]
  | closingBrace => exact .refl cs
  | openingBrace hstart =>
    rw [hstart] at hfiller
    exact hfiller.trans (block_crosses _)
  | @word _ word hwhich hstart hstop hword =>
    rcases hwhich with rfl | rfl
    · have hbreak : '\n' ∉ word := fun hb => absurd (hword _ hb) (by decide)
      have hline : dropLine (dropFiller false cs) = dropLine (readCommand cs).2 := by
        rw [hstart, dropLine_of_onLine ⟨word, rfl, hbreak⟩]
      rw [← hline]
      simpa using hfiller.trans (line_crosses (dropFiller false cs))
    · -- the branches come after the word `if`, so they are shorter
      have hlt := readCommand_length_lt (Lead.of_ne_nothing (by rw [hlead]; decide))
      have hoperands := (dropOperands_suffix (readCommand cs).2).length_le
      have hguarded := (skipStatement_suffix (dropOperands (readCommand cs).2)).length_le
      have hbranch := (readCommand_suffix (skipStatement (dropOperands (readCommand cs).2))).length_le
      dsimp only at h ⊢
      obtain ⟨hwhole, hmore⟩ := List.forall_mem_cons.1 h
      obtain ⟨hfirst, hother⟩ := List.forall_mem_append.1 hmore
      have hcut : CutAt (dropFiller false cs) (readCommand cs).2 := ⟨word, hstart, .of_stopsWord hstop _⟩
      have htest := Passage.crosses true hcut.dropOperands fun _ => .inl (hwhole rfl)
      have hhead := hfiller.trans (htest.trans (skipStatement_crosses _ hfirst))
      rw [List.flatMap_cons, List.flatMap_append]
      by_cases helse : elseFollows (skipStatement (dropOperands (readCommand cs).2)) = true
      · rw [if_pos helse] at hother ⊢
        rw [if_pos helse]
        simpa using hhead.trans ((else_crosses helse).trans (skipStatement_crosses _ hother))
      · rw [if_neg helse, if_neg helse]
        simpa using hhead
termination_by cs.length
decreasing_by all_goals omega

theorem skipGuarded_crosses (cs : List Char) (h : ∀ p ∈ passages cs, p.IsWhole) :
    Crosses cs (skipGuarded cs) ((passages cs).flatMap Passage.braces) := by
  have hskips := skipStatement_crosses cs h
  rw [skipGuarded]
  by_cases helse : elseFollows (skipStatement cs) = true
  · rw [if_pos helse]
    simpa using hskips.trans (else_crosses helse)
  · rwa [if_neg helse]

theorem Crosses.closesOutward_iff {braces : List Char} (h : Crosses cs left braces) :
    ClosesOutward (before cs left) ↔ Overruns 0 braces := by
  obtain ⟨front, rfl, hfront⟩ := h
  rw [before_eq]
  exact hfront.overruns 0 (Int.le_refl 0)

/-- Skipping closes a block that it has not opened if and only if the lines that it passes over do. -/
theorem skip_closesOutward_iff (cs : List Char) (h : ∀ p ∈ passages cs, p.IsWhole) :
    (ClosesOutward (before cs (skipStatement cs)) ↔ Overruns 0 ((passages cs).flatMap Passage.braces)) ∧
      (ClosesOutward (before cs (skipGuarded cs)) ↔ Overruns 0 ((passages cs).flatMap Passage.braces)) :=
  ⟨(skipStatement_crosses cs h).closesOutward_iff, (skipGuarded_crosses cs h).closesOutward_iff⟩

def quietLines : List Char := "if a == \"\x7d\" nop // \x7d\n\x7d".toList

theorem passages_quietLines : passages quietLines =
    [⟨"if a == \"\x7d\"".toList, true⟩, ⟨"nop // \x7d".toList, false⟩] := by
  have hlead : Lead.of (readCommand quietLines).1 = .conditional := by decide
  have hoperands : dropOperands (readCommand quietLines).2 = " nop // \x7d\n\x7d".toList := by decide
  have hcommand : Lead.of (readCommand " nop // \x7d\n\x7d".toList).1 = .command := by decide
  have hskip : skipStatement " nop // \x7d\n\x7d".toList = "\n\x7d".toList := by
    rw [skipStatement_eq, hcommand]
    decide
  have helse : ¬elseFollows "\n\x7d".toList = true := by decide
  rw [passages_eq, hlead]
  dsimp only
  rw [hoperands, hskip, if_neg helse, passages_eq, hcommand]
  decide

theorem skip_closesOutward_iff_quietLines :
    (∀ p ∈ passages quietLines, p.IsWhole) ∧
      ¬ClosesOutward (before quietLines (skipStatement quietLines)) := by
  have hwhole : ∀ p ∈ passages quietLines, p.IsWhole := by
    rw [passages_quietLines]
    decide
  refine ⟨hwhole, fun h => ?_⟩
  have hover := (skip_closesOutward_iff quietLines hwhole).1.1 h
  rw [passages_quietLines] at hover
  exact absurd hover (by decide)

/-- A closing brace on the line of a command is skipped with it. -/
theorem skipStatement_closesOutward :
    ClosesOutward (before " nop \x7d\nrefuse\n".toList (skipStatement " nop \x7d\nrefuse\n".toList)) := by
  have hcommand : Lead.of (readCommand " nop \x7d\nrefuse\n".toList).1 = .command := by decide
  rw [skipStatement_eq, hcommand]
  decide

end EntityScript.Reading
