import EntityScript.Proofs.Keywords
import EntityScript.Proofs.Scans

/-! Blocks whose braces stand alone on their lines. What reads a line then meets no
brace behind the first word, and what skips a statement comes out as deep in blocks
as it went in, so a reader leaves such a block by its closing brace only. -/

namespace EntityScript

open Reading

def Reading.IsBrace (c : Char) : Prop := c = '{' ∨ c = '}'

instance (c : Char) : Decidable (IsBrace c) := by unfold IsBrace; infer_instance

namespace Text

theorem caseRuns_noBrace : ∀ run ∈ caseRuns, 0 ≤ run.first + run.shift ∧
    (run.last + run.shift < 0x7B ∨ 0x7D < run.first + run.shift) := by
  decide +kernel

theorem ofNat_noBrace {n : Nat} (h : n < 0x7B ∨ 0x7D < n) : ¬IsBrace (Char.ofNat n) := by
  intro hbrace
  have hn : (Char.ofNat n).toNat = n ∨ (Char.ofNat n).toNat = 0 := by
    by_cases hvalid : n.isValidChar
    · rw [Char.ofNat, dif_pos hvalid]
      exact .inl rfl
    · rw [Char.ofNat, dif_neg hvalid]
      exact .inr rfl
  rcases hbrace with hb | hb
  · rw [hb] at hn
    have : '{'.toNat = 0x7B := rfl
    omega
  · rw [hb] at hn
    have : '}'.toNat = 0x7D := rfl
    omega

theorem lowerChar_noBrace {c : Char} (h : ¬IsBrace c) : ∀ d ∈ lowerChar c, ¬IsBrace d := by
  intro d hd
  unfold lowerChar at hd
  split at hd
  · revert d
    decide
  split at hd
  · rename_i run hfind
    obtain ⟨hpos, hrange⟩ := caseRuns_noBrace run (List.mem_of_find?_eq_some hfind)
    have hcovers := List.find?_some hfind
    simp only [CaseRun.covers, Bool.and_eq_true, decide_eq_true_eq] at hcovers
    obtain ⟨⟨hfirst, hlast⟩, -⟩ := hcovers
    rw [List.mem_singleton.1 hd]
    apply ofNat_noBrace
    omega
  · rw [List.mem_singleton.1 hd]
    exact h

/-- No other character has a brace for its lowercase form. -/
theorem lowerFrom_noBrace {cs : List Char} (h : ∀ c ∈ cs, ¬IsBrace c) (before : List Char) :
    ∀ d ∈ lowerFrom before cs, ¬IsBrace d := by
  induction cs generalizing before with
  | nil => exact fun _ hd => absurd hd List.not_mem_nil
  | cons c cs ih =>
    obtain ⟨hc, hcs⟩ := List.forall_mem_cons.1 h
    intro d hd
    rcases List.mem_append.1 hd with hd | hd
    · split at hd
      · rw [List.mem_singleton.1 hd]
        split <;> decide
      · exact lowerChar_noBrace hc d hd
    · exact ih hcs _ d hd

theorem lines_eq (cs : List Char) : ∃ more, lines cs = cs.takeWhile (· != '\n') :: more := by
  induction cs with
  | nil => exact ⟨[], rfl⟩
  | cons c cs ih =>
    obtain ⟨more, hmore⟩ := ih
    rw [lines] at hmore ⊢
    by_cases hc : c = '\n'
    · exact ⟨pieces (· == '\n') cs, by simp [pieces, hc]⟩
    · exact ⟨more, by simp [pieces, hc, hmore]⟩

end Text

namespace Reading

theorem isBrace_of_isSeparator {c : Char} (h : isSeparator c = true) : ¬IsBrace c := by
  rintro (rfl | rfl)
  · exact absurd h (by decide)
  · exact absurd h (by decide)

theorem noBrace_of_isCommandChar {c : Char} (h : isCommandChar c = true) : ¬IsBrace c := by
  rintro (rfl | rfl)
  · exact absurd h (by decide)
  · exact absurd h (by decide)

/-- A line has no brace, or else nothing but separators besides. -/
def BracesAlone (cs : List Char) : Prop := ∀ line ∈ Text.lines cs,
  (∀ c ∈ line, ¬IsBrace c) ∨ line.filter (!isSeparator ·) = ['{'] ∨ line.filter (!isSeparator ·) = ['}']

instance (cs : List Char) : Decidable (BracesAlone cs) := by unfold BracesAlone; infer_instance

def ClearLine (cs : List Char) : Prop := ∀ c ∈ cs.takeWhile (· != '\n'), ¬IsBrace c

theorem noBrace_of_filter {line : List Char} (h : line.filter (!isSeparator ·) = []) :
    ∀ c ∈ line, ¬IsBrace c := by
  intro c hc
  have hnot := List.filter_eq_nil_iff.1 h c hc
  exact isBrace_of_isSeparator (by simpa using hnot)

namespace BracesAlone

variable {c : Char} {cs ds : List Char}

theorem tail (h : BracesAlone (c :: cs)) : BracesAlone cs := by
  obtain ⟨more, hmore⟩ := Text.lines_eq cs
  by_cases hc : c = '\n'
  · intro line hline
    apply h
    rw [Text.lines, Text.pieces, if_pos (by simp [hc])]
    exact List.mem_cons_of_mem _ hline
  have hlines : Text.lines (c :: cs) = (c :: cs.takeWhile (· != '\n')) :: more := by
    rw [Text.lines] at hmore ⊢
    simp [Text.pieces, hc, hmore]
  rw [BracesAlone, hlines] at h
  obtain ⟨hfirst, hothers⟩ := List.forall_mem_cons.1 h
  rw [BracesAlone, hmore, List.forall_mem_cons]
  refine ⟨?_, hothers⟩
  rcases hfirst with hnone | halone
  · exact .inl (List.forall_mem_cons.1 hnone).2
  cases hsep : isSeparator c with
  | true => simpa [hsep] using Or.inr halone
  | false =>
    left
    apply noBrace_of_filter
    rcases halone with ha | ha
    · simpa [hsep] using congrArg List.tail ha
    · simpa [hsep] using congrArg List.tail ha

theorem suffix (h : BracesAlone cs) (hs : ds <:+ cs) : BracesAlone ds := by
  obtain ⟨front, rfl⟩ := hs
  induction front with
  | nil => exact h
  | cons c front ih => exact ih h.tail

/-- Behind a word or a brace the line is clear. -/
theorem clearLine (h : BracesAlone (c :: cs)) (hbreak : c ≠ '\n') (hsep : isSeparator c = false) :
    ClearLine cs := by
  obtain ⟨more, hmore⟩ := Text.lines_eq (c :: cs)
  have hfirst := h _ (hmore ▸ List.mem_cons_self)
  rw [List.takeWhile_cons_of_pos (by simpa using hbreak)] at hfirst
  rcases hfirst with hnone | ha | ha
  · exact (List.forall_mem_cons.1 hnone).2
  · exact noBrace_of_filter (by simpa [hsep] using congrArg List.tail ha)
  · exact noBrace_of_filter (by simpa [hsep] using congrArg List.tail ha)

end BracesAlone

theorem ClearLine.onLine {cs ds : List Char} (h : ClearLine cs) (hon : OnLine cs ds) :
    ClearLine ds ∧ ∃ front, cs = front ++ ds ∧ ∀ c ∈ front, ¬IsBrace c := by
  obtain ⟨front, rfl, hfront⟩ := hon
  have htake : ∀ c ∈ front, (c != '\n') = true := by
    intro c hc
    rw [bne_iff_ne]
    rintro rfl
    exact hfront hc
  rw [ClearLine, List.takeWhile_append_of_pos htake] at h
  exact ⟨fun c hc => h c (List.mem_append_right _ hc), front, rfl,
    fun c hc => h c (List.mem_append_left _ hc)⟩

/-- Blocks that the text opens, less those that it closes. -/
def excess (cs : List Char) : Int := cs.count '{' - cs.count '}'

section Excess

variable (cs ds : List Char)

theorem excess_append : excess (cs ++ ds) = excess cs + excess ds := by
  simp only [excess, List.count_append]
  omega

theorem excess_opened : excess ('{' :: cs) = excess cs + 1 := by
  simp only [excess, List.count_cons]
  simp
  omega

theorem excess_closed : excess ('}' :: cs) = excess cs - 1 := by
  simp only [excess, List.count_cons]
  simp
  omega

theorem excess_noBrace {cs : List Char} (h : ∀ c ∈ cs, ¬IsBrace c) : excess cs = 0 := by
  have hopen : '{' ∉ cs := fun hc => h _ hc (.inl rfl)
  have hclose : '}' ∉ cs := fun hc => h _ hc (.inr rfl)
  rw [excess, List.count_eq_zero_of_not_mem hopen, List.count_eq_zero_of_not_mem hclose]
  rfl

end Excess

structure Block where
  body : List Char
  after : List Char
  alone : BracesAlone (body ++ '}' :: after)
  balanced : excess body = 0
  /-- The body closes no block that it has not opened. -/
  nested : ∀ front, front <+: body → 0 ≤ excess front

namespace Block

variable (B : Block)

def close : List Char := '}' :: B.after

def text : List Char := B.body ++ B.close

/-- The text begins in the block, its closing brace still to come. -/
def Inside (cs : List Char) : Prop := B.close <:+ cs ∧ cs <:+ B.text

/-- How many blocks are open before the text, this one and those in it. -/
def nesting (cs : List Char) : Int := 1 + excess B.text - excess cs

/-- The text begins in the block, so many blocks deep. -/
def Holds (cs : List Char) (n : Int) : Prop := B.Inside cs ∧ B.nesting cs = n

variable {B : Block} {cs ds front left chars rest : List Char} {c : Char}
  {n : Int} {k : Nat} {word : String}

theorem holds_text : B.Holds B.text 1 := by
  refine ⟨⟨List.suffix_append _ _, List.suffix_refl _⟩, ?_⟩
  rw [nesting]
  omega

theorem nesting_close : B.nesting B.close = 1 := by
  rw [nesting, text, excess_append, B.balanced]
  omega

namespace Holds

theorem one_le (h : B.Holds cs n) : 1 ≤ n := by
  obtain ⟨⟨⟨ds, rfl⟩, us, htext⟩, hn⟩ := h
  rw [text, ← List.append_assoc, List.append_left_inj] at htext
  have hfront := B.nested us ⟨ds, htext⟩
  have hbody := B.balanced
  rw [← htext, excess_append] at hbody
  rw [nesting, text, excess_append, B.balanced, excess_append] at hn
  omega

theorem ne_nil (h : B.Holds cs n) : cs ≠ [] := by
  rintro rfl
  exact absurd (List.suffix_nil.1 h.1.1) (List.cons_ne_nil _ _)

/-- What is not a brace leads to no other depth, and not out of the block. -/
theorem move (h : B.Holds (front ++ cs) n) (hfront : ∀ c ∈ front, ¬IsBrace c) : B.Holds cs n := by
  obtain ⟨⟨hahead, hwithin⟩, hn⟩ := h
  have hs : cs <:+ front ++ cs := List.suffix_append front cs
  refine ⟨⟨?_, hs.trans hwithin⟩, ?_⟩
  · rcases List.suffix_or_suffix_of_suffix hahead hs with hc | ⟨ds, hds⟩
    · exact hc
    cases ds with
    | nil => rw [← hds]; exact List.suffix_refl _
    | cons d ds =>
      -- the closing brace would be a character of `front`
      obtain ⟨us, hus⟩ := hahead
      rw [← hds, ← List.append_assoc, List.append_left_inj] at hus
      have hd : d = '}' := (List.cons.inj hds).1
      exact absurd (.inr hd) (hfront d (by simp [← hus]))
  · rw [nesting, excess_append, excess_noBrace hfront, Int.zero_add] at hn
    exact hn

theorem skipChar (h : B.Holds (c :: cs) n) (hc : ¬IsBrace c) : B.Holds cs n := by
  have hfront : B.Holds ([c] ++ cs) n := h
  exact hfront.move (by simpa using hc)

theorem opened (h : B.Holds ('{' :: cs) n) : B.Holds cs (n + 1) := by
  obtain ⟨⟨hahead, hwithin⟩, hn⟩ := h
  refine ⟨⟨?_, (List.suffix_cons _ _).trans hwithin⟩, ?_⟩
  · rcases List.suffix_cons_iff.1 hahead with hc | hc
    · exact absurd (List.cons.inj hc).1 (by decide)
    · exact hc
  · rw [nesting, excess_opened] at hn
    rw [nesting]
    omega

theorem closed (h : B.Holds ('}' :: cs) n) : cs = B.after ∧ n = 1 ∨ B.Holds cs (n - 1) := by
  obtain ⟨⟨hahead, hwithin⟩, hn⟩ := h
  rcases List.suffix_cons_iff.1 hahead with hc | hc
  · left
    rw [← hc, nesting_close] at hn
    exact ⟨(List.cons.inj hc).2.symm, hn.symm⟩
  · right
    refine ⟨⟨hc, (List.suffix_cons _ _).trans hwithin⟩, ?_⟩
    rw [nesting, excess_closed] at hn
    rw [nesting]
    omega

theorem clearLine (h : B.Holds (c :: cs) n) (hbreak : c ≠ '\n') (hsep : isSeparator c = false) :
    ClearLine cs :=
  (B.alone.suffix h.1.2).clearLine hbreak hsep

theorem onLine (h : B.Holds cs n) (hclear : ClearLine cs) (hon : OnLine cs ds) :
    B.Holds ds n ∧ ClearLine ds := by
  obtain ⟨hleft, front, rfl, hfront⟩ := hclear.onLine hon
  exact ⟨h.move hfront, hleft⟩

theorem passesComment (h : B.Holds cs n) (hcomment : atComment cs = true)
    (hline : Passes (· != '\n') cs front left) : B.Holds left n := by
  obtain ⟨rest, rfl⟩ := atComment_iff.1 hcomment
  have hrest := h.skipChar (by decide)
  have hclear := h.clearLine (by decide) (by decide)
  have hleft := (passes_iff.1 hline).2
  rw [List.dropWhile_cons_of_pos (by decide)] at hleft
  rw [hleft]
  exact (hrest.onLine hclear (OnLine.dropWhile (by decide) _)).1

theorem seeks (h : B.Holds cs n) (hseeks : Seeks cs left) : B.Holds left n := by
  induction hseeks with
  | atEnd => exact h
  | atWord => exact h
  | @blank c _ _ hc _ ih =>
    refine ih (h.skipChar ?_)
    rcases hc with rfl | hsep
    · decide
    · exact isBrace_of_isSeparator hsep
  | comment hcomment hline _ ih => exact ih (h.passesComment hcomment hline)

end Holds

/-- What a command word is that is read in the block, `n` blocks deep, and where it leads. -/
inductive Finds (B : Block) (n : Int) (word : String) (rest : List Char) : Prop
  | opened (hword : word = "\x7b") (h : B.Holds rest (n + 1))
  | closed (hword : word = "\x7d") (h : B.Holds rest (n - 1))
  | ended (hword : word = "\x7d") (hrest : rest = B.after) (h : n = 1)
  | command (hopen : word ≠ "\x7b") (hclose : word ≠ "\x7d") (h : B.Holds rest n) (hclear : ClearLine rest)

theorem lowercase_brace (hc : IsBrace c) :
    Text.lowercase (String.ofList [c]) = String.ofList [c] := by
  apply Text.lowercase_of_isLower
  rcases hc with rfl | rfl <;> decide

theorem lowercase_noBrace (h : ∀ c ∈ chars, ¬IsBrace c) (hc : IsBrace c) :
    Text.lowercase (String.ofList chars) ≠ String.ofList [c] := by
  intro he
  rw [Text.lowercase, String.toList_ofList, String.ofList_inj] at he
  exact Text.lowerFrom_noBrace h [] c (by simp [he]) hc

namespace Finds

theorem of_command (h : B.Finds n word rest) (hopen : word ≠ "\x7b") (hclose : word ≠ "\x7d") :
    B.Holds rest n ∧ ClearLine rest := by
  cases h with
  | opened hword => exact absurd hword hopen
  | closed hword | ended hword => exact absurd hword hclose
  | command _ _ h hclear => exact ⟨h, hclear⟩

/-- Only a word without braces begins a statement that is not a block. -/
theorem of_lead {lead : Lead} (h : B.Finds n word rest) (hlead : Lead.of word = lead)
    (hopen : lead ≠ .openingBrace) (hclose : lead ≠ .closingBrace) : B.Holds rest n ∧ ClearLine rest := by
  refine h.of_command ?_ ?_
  · rintro rfl
    exact hopen hlead.symm
  · rintro rfl
    exact hclose hlead.symm

theorem of_openingBrace (h : B.Finds n word rest) (hlead : Lead.of word = .openingBrace) :
    B.Holds rest (n + 1) := by
  cases h with
  | opened _ h => exact h
  | closed hword | ended hword =>
    rw [hword] at hlead
    exact absurd hlead (by decide)
  | command hopen =>
    unfold Lead.of at hlead
    split_ifs at hlead

end Finds

namespace Holds

theorem finds (h : B.Holds cs n) (hreads : Reads cs chars rest) :
    B.Finds n (Text.lowercase (String.ofList chars)) rest := by
  cases hreads with
  | nothing hseeks => exact absurd rfl (h.seeks hseeks).ne_nil
  | @brace c _ _ hseeks hc =>
    have hat := h.seeks hseeks
    rw [lowercase_brace hc]
    rcases hc with rfl | rfl
    · exact .opened rfl hat.opened
    · rcases hat.closed with ⟨rfl, hn⟩ | hrest
      · exact .ended rfl rfl hn
      · exact .closed rfl hrest
  | @word c _ left _ _ hseeks hc hword =>
    have hat := h.seeks hseeks
    obtain ⟨hbreak, hsep, -⟩ := hseeks.head rfl
    have hfirst := isCommandChar_of_seeks hseeks hc
    have hclear := hat.clearLine hbreak hsep
    obtain ⟨rfl, rfl⟩ := passes_iff.1 hword
    have hnone : ∀ d ∈ (c :: left).takeWhile isCommandChar, ¬IsBrace d :=
      fun d hd => noBrace_of_isCommandChar (List.mem_takeWhile_imp hd)
    rw [List.dropWhile_cons_of_pos hfirst]
    obtain ⟨hrest, hleft⟩ :=
      (hat.skipChar hc).onLine hclear (OnLine.dropWhile (p := isCommandChar) (by decide) left)
    exact .command (lowercase_noBrace hnone (.inl rfl)) (lowercase_noBrace hnone (.inr rfl)) hrest hleft

theorem readCommand (h : B.Holds cs n) :
    B.Finds n (Reading.readCommand cs).1 (Reading.readCommand cs).2 := h.finds (reads cs)

/-- Leaving the block that was entered last, and `k` more around it, leads as many blocks outwards. -/
theorem leaves (h : B.Holds cs n) (hleaves : Leaves k cs left) (hk : k + 2 ≤ n) :
    B.Holds left (n - (k + 1)) := by
  induction hleaves generalizing n with
  | atEnd => exact absurd rfl h.ne_nil
  | comment hcomment hline _ ih => exact ih (h.passesComment hcomment hline) hk
  | @quotes k rest word stop _ hword _ ih =>
    have hclear := h.clearLine (by decide) (by decide)
    obtain ⟨-, rfl⟩ := passes_iff.1 hword
    obtain ⟨hstop, -⟩ :=
      (h.skipChar (by decide)).onLine hclear (OnLine.dropWhile (p := isQuotedChar) (by decide) rest)
    refine ih ?_ hk
    cases hd : rest.dropWhile isQuotedChar with
    | nil => exact absurd hd hstop.ne_nil
    | cons c tail =>
      rw [hd] at hstop
      have hc := List.head?_dropWhile_not isQuotedChar rest
      simp only [hd, List.head?_cons] at hc
      refine hstop.skipChar ?_
      rintro (rfl | rfl)
      · exact absurd hc (by decide)
      · exact absurd hc (by decide)
  | @opened k _ _ _ ih =>
    have hlevel : n + 1 - ((k + 1 : Nat) + 1 : Int) = n - (k + 1) := by omega
    exact hlevel ▸ ih h.opened (by omega)
  | last =>
    rcases h.closed with ⟨-, hn⟩ | hrest
    · omega
    · simpa using hrest
  | @closed k _ _ _ ih =>
    have hlevel : n - 1 - ((k : Int) + 1) = n - ((k + 1 : Nat) + 1 : Int) := by omega
    rcases h.closed with ⟨-, hn⟩ | hrest
    · omega
    · exact hlevel ▸ ih hrest (by omega)
  | other _ hc _ ih => exact ih (h.skipChar (not_or.2 hc.2)) hk

theorem skips (h : B.Holds cs n) (hskips : Skips cs left) : B.Holds left n := by
  induction hskips with
  | nothing hreads hlead => exact ((h.finds hreads).of_lead hlead (by decide) (by decide)).1
  | closingBrace => exact h
  | block hreads hlead hblock =>
    have hle := h.one_le
    have hleft := ((h.finds hreads).of_openingBrace hlead).leaves hblock (by omega)
    simpa using hleft
  | line hreads hlead hline =>
    obtain ⟨hrest, hclear⟩ := (h.finds hreads).of_lead hlead (by decide) (by decide)
    obtain ⟨-, rfl⟩ := passes_iff.1 hline
    exact (hrest.onLine hclear (OnLine.dropWhile (by decide) _)).1
  | guarded hreads hlead hoperands _ _ _ ih =>
    obtain ⟨hrest, hclear⟩ := (h.finds hreads).of_lead hlead (by decide) (by decide)
    rw [dropOperands_of_drops hoperands] at ih
    exact ih (hrest.onLine hclear (dropOperands_onLine _)).1
  | branches hreads hlead hoperands _ hnext helse _ ih ihBranch =>
    obtain ⟨hrest, hclear⟩ := (h.finds hreads).of_lead hlead (by decide) (by decide)
    rw [dropOperands_of_drops hoperands] at ih
    have hguarded := ih (hrest.onLine hclear (dropOperands_onLine _)).1
    exact ihBranch ((hguarded.finds hnext).of_lead (congrArg Lead.of helse) (by decide) (by decide)).1

/-- A statement that is skipped leaves as many blocks open as it found. -/
theorem skipStatement (h : B.Holds cs n) : B.Holds (Reading.skipStatement cs) n := h.skips (Reading.skips cs)

theorem skipGuarded (h : B.Holds cs n) : B.Holds (Reading.skipGuarded cs) n := by
  have hskipped := h.skipStatement
  rw [Reading.skipGuarded]
  split
  · rename_i helse
    have hreads := reads (Reading.skipStatement cs)
    rw [elseFollows_of_reads hreads, beq_iff_eq] at helse
    exact ((hskipped.finds hreads).of_lead (congrArg Lead.of helse) (by decide) (by decide)).1
  · exact hskipped

end Holds

end Block

end Reading

end EntityScript
