import EntityScript.Proofs.Calm
import EntityScript.Proofs.Rescan
import Mathlib.Data.List.Infix

/-! The words that stand in a text. A run reads on from one word to the next and never begins within one, so the
commands that it meets are among those words, and a script is calm if none of them names another command. -/

namespace EntityScript

open Text

namespace Reading

/-- No reader stops between two of these characters. -/
def isPlain (c : Char) : Bool := isCommandChar c && c != '"'

/-- The ending of the text begins no word in the middle. -/
structure Unbroken (cs rest : List Char) : Prop where
  suffix : rest <:+ cs
  apart : ∀ c, c :: rest <:+ cs → isPlain c = true → ∀ d ∈ rest.head?, isPlain d = false

/-- The word stands in the text by itself. -/
def Mentions (text word : List Char) : Prop :=
  ∃ rest, Unbroken text (word ++ rest) ∧ word ≠ [] ∧ (∀ c ∈ word, isCommandChar c = true) ∧ StopsWord rest

theorem isPlain_of_stop {c : Char} (h : isCommandChar c = false) : isPlain c = false := by
  simp [isPlain, h]

namespace Unbroken

variable {cs mid rest : List Char} {c : Char} {p : Char → Bool}

theorem refl (cs : List Char) : Unbroken cs cs :=
  ⟨List.suffix_refl cs, fun c h => absurd h.length_le (by simp)⟩

theorem trans (h : Unbroken cs mid) (h' : Unbroken mid rest) : Unbroken cs rest := by
  refine ⟨h'.suffix.trans h.suffix, fun c hc hplain => ?_⟩
  rcases List.suffix_or_suffix_of_suffix hc h.suffix with hshorter | hlonger
  · exact h'.apart c hshorter hplain
  · rcases List.suffix_cons_iff.1 hlonger with rfl | hmid
    · exact h'.apart c (List.suffix_refl _) hplain
    · obtain rfl := hmid.eq_of_length (Nat.le_antisymm hmid.length_le h'.suffix.length_le)
      exact h.apart c hc hplain

theorem of_stop (hsuffix : rest <:+ cs) (h : ∀ d ∈ rest.head?, isPlain d = false) : Unbroken cs rest :=
  ⟨hsuffix, fun _ _ _ => h⟩

theorem nil (cs : List Char) : Unbroken cs [] := .of_stop List.nil_suffix (by simp)

theorem behind (h : c :: rest <:+ cs) (hc : isPlain c = false) : Unbroken cs rest := by
  refine ⟨(List.suffix_cons c rest).trans h, fun d hd hplain => ?_⟩
  have hsame : d :: rest = c :: rest := by
    rcases List.suffix_or_suffix_of_suffix hd h with hle | hle
    · exact hle.eq_of_length rfl
    · exact (hle.eq_of_length rfl).symm
  cases hsame
  cases hc.symm.trans hplain

theorem cons (hc : isPlain c = false) : Unbroken (c :: cs) cs := .behind (List.suffix_refl _) hc

/-- What a reader passes over ends where such a character stands. -/
theorem of_passes {front : List Char} (h : Passes p cs front rest) (hp : ∀ d, p d = false → isPlain d = false) :
    Unbroken cs rest := by
  obtain ⟨-, rfl⟩ := passes_iff.1 h
  exact .of_stop (List.dropWhile_suffix p) fun d hd => hp d (head?_dropWhile hd)

end Unbroken

variable {cs word rest left : List Char} {n : Nat}

theorem Passes.unbroken_of_plain {p : Char → Bool} {front : List Char} (h : Passes p cs front rest)
    (hp : ∀ d, p d = true → isPlain d = false) : Unbroken cs rest := by
  induction h with
  | atEnd => exact .refl _
  | stopped => exact .refl _
  | onward hc _ ih => exact (Unbroken.cons (hp _ hc)).trans ih

theorem isPlain_of_separator {c : Char} (h : isSeparator c = true) : isPlain c = false := by
  simp [isPlain, isCommandChar, isWordChar, h]

theorem Passes.unbroken_line {front : List Char} (h : Passes (· != '\n') cs front rest) : Unbroken cs rest :=
  .of_passes h fun d hd => by
    obtain rfl : d = '\n' := by simpa using hd
    decide

theorem Seeks.unbroken (h : Seeks cs rest) : Unbroken cs rest := by
  induction h with
  | atEnd => exact .refl _
  | atWord => exact .refl _
  | blank hc _ ih =>
    refine (Unbroken.cons ?_).trans ih
    rcases hc with rfl | hc
    · decide
    · exact isPlain_of_separator hc
  | comment _ hline _ ih => exact hline.unbroken_line.trans ih

theorem Reads.unbroken (h : Reads cs word rest) : Unbroken cs rest := by
  cases h with
  | nothing h => exact .nil cs
  | brace h hc =>
    refine h.unbroken.trans (.cons ?_)
    rcases hc with rfl | rfl <;> decide
  | word h _ hword => exact h.unbroken.trans (.of_passes hword fun _ => isPlain_of_stop)

theorem Peeks.unbroken {token : Token} (h : Peeks cs (some token)) : Unbroken cs token.rest := by
  cases h with
  | quoted h hword =>
    have hstart := h.unbroken_of_plain fun _ => isPlain_of_separator
    have hstop : ∀ d, isQuotedChar d = false → isPlain d = false := by
      intro d hd
      obtain rfl | rfl : d = '"' ∨ d = '\n' := by simpa [isQuotedChar, or_iff_not_imp_left] using hd
      · decide
      · decide
    refine (hstart.trans (.cons (by decide))).trans ((Unbroken.of_passes hword hstop).trans ?_)
    unfold dropQuote
    split
    · exact .cons (by decide)
    · exact .refl _
  | word h _ _ hword =>
    have hstart := h.unbroken_of_plain fun _ => isPlain_of_separator
    refine hstart.trans (.of_passes hword fun d hd => ?_)
    simp [isPlain, isCommandChar, hd]

/-- A block is left behind its brace, or where the text ends. -/
theorem Leaves.brace_suffix (h : Leaves n cs left) : left = [] ∨ '}' :: left <:+ cs := by
  induction h with
  | atEnd => exact .inl rfl
  | comment _ hline _ ih => exact ih.imp_right fun hleft => hleft.trans hline.unbroken_line.suffix
  | quotes hword _ ih =>
    obtain ⟨-, rfl⟩ := passes_iff.1 hword
    refine ih.imp_right fun hleft => hleft.trans ?_
    exact ((List.tail_suffix _).trans (List.dropWhile_suffix _)).trans (List.suffix_cons _ _)
  | last => exact .inr (List.suffix_refl _)
  | opened _ ih | closed _ ih | other _ _ _ ih => exact ih.imp_right fun hleft => hleft.trans (List.suffix_cons _ _)

theorem Leaves.unbroken (h : Leaves n cs left) : Unbroken cs left := by
  rcases h.brace_suffix with rfl | hleft
  · exact .nil cs
  · exact .behind hleft (by decide)

theorem Drops.unbroken (h : Drops n cs left) : Unbroken cs left := by
  induction h with
  | done => exact .refl _
  | token h _ ih => exact h.unbroken.trans ih
  | nothing _ _ ih => exact ih

theorem Skips.unbroken (h : Skips cs left) : Unbroken cs left := by
  induction h with
  | nothing h => exact h.unbroken
  | closingBrace => exact .refl _
  | block h _ hblock => exact h.unbroken.trans hblock.unbroken
  | line h _ hline => exact h.unbroken.trans hline.unbroken_line
  | guarded h _ hoperands _ _ _ ih => exact (h.unbroken.trans hoperands.unbroken).trans ih
  | branches h _ hoperands _ hnext _ _ ih ih' =>
    exact (((h.unbroken.trans hoperands.unbroken).trans ih).trans hnext.unbroken).trans ih'

theorem unbroken_dropToken (cs : List Char) : Unbroken cs (dropToken cs) := (drops 1 cs).unbroken

theorem unbroken_dropOperands (cs : List Char) : Unbroken cs (dropOperands cs) := (drops 3 cs).unbroken

theorem unbroken_dropLine (cs : List Char) : Unbroken cs (dropLine cs) := (passes _ cs).unbroken_line

theorem unbroken_readCommand (cs : List Char) : Unbroken cs (readCommand cs).2 := (reads cs).unbroken

theorem unbroken_skipGuarded (cs : List Char) : Unbroken cs (skipGuarded cs) := by
  unfold skipGuarded
  dsimp only
  split
  · exact (skips cs).unbroken.trans (unbroken_readCommand _)
  · exact (skips cs).unbroken

/-- A word that names a command stands in the text. -/
theorem mentions_of_names {text : List Char} (h : Unbroken text cs) (hnames : NamesCommand (readCommand cs).1) :
    Mentions text (takeCommand cs).1 := by
  have hreads := reads cs
  change NamesCommand (lowercase (String.ofList (takeCommand cs).1)) at hnames
  revert hreads hnames
  generalize (takeCommand cs).1 = word
  generalize (takeCommand cs).2 = rest
  rintro hreads ⟨hne, -, hopen, hclose, -⟩
  cases hreads with
  | nothing => exact absurd (by decide +kernel) hne
  | brace hseeks hc =>
    rcases hc with rfl | rfl
    · exact absurd (by decide +kernel) hopen
    · exact absurd (by decide +kernel) hclose
  | @word c _ more _ _ hseeks hc hword =>
    have hfirst := isCommandChar_of_seeks hseeks hc
    obtain ⟨rfl, rfl⟩ := passes_iff.1 hword
    refine ⟨(c :: more).dropWhile isCommandChar, ?_, ?_, fun d hd => List.mem_takeWhile_imp hd,
      fun d hd => head?_dropWhile hd⟩
    · rw [List.takeWhile_append_dropWhile]
      exact h.trans hseeks.unbroken
    · simp [hfirst]

end Reading

open Reading

theorem Command.unbroken_of_leavings {command : Command} {cs rest : List Char} (h : rest ∈ command.leavings cs) :
    Unbroken cs rest := by
  cases command with
  | nop | stop | random | timer | sendEvent | say | assign | add | probe =>
    exact List.mem_singleton.1 h ▸ .refl cs
  | jump | setMainEvent | stopwatch => exact List.mem_singleton.1 h ▸ unbroken_dropToken cs
  | comeBack => cases h
  | setEvent =>
    rw [List.mem_singleton.1 h]
    exact (unbroken_dropToken cs).trans (unbroken_dropToken _)
  | conditional =>
    obtain rfl | h := List.mem_cons.1 h
    · exact unbroken_dropOperands cs
    · obtain rfl := List.mem_singleton.1 h
      exact (unbroken_dropOperands cs).trans (unbroken_skipGuarded _)
  | otherwise =>
    obtain rfl := List.mem_singleton.1 h
    exact (skips cs).unbroken

theorem CommandTable.unbroken_of_ways {table : CommandTable} {cs rest : List Char} (h : rest ∈ table.ways cs) :
    Unbroken cs rest := by
  have hread := unbroken_readCommand cs
  unfold ways at h
  dsimp only at h
  split at h
  · obtain rfl | h := List.mem_cons.1 h
    · exact hread.trans (unbroken_dropLine _)
    · cases hcommand : table.commandAt? cs with
      | none =>
        rw [hcommand] at h
        cases h
      | some command =>
        rw [hcommand] at h
        exact hread.trans (Command.unbroken_of_leavings h)
  · obtain rfl := List.mem_singleton.1 h
    exact hread

/-- Headers end where no word goes on. -/
theorem Header.unbroken_of_mem {text : List Char} {header : Header} {position : Nat}
    (h : (header, position) ∈ all text) : Unbroken text (Place.ofPosition position text).rest := by
  rw [all_eq] at h
  obtain ⟨start, hstart, hhere⟩ := List.mem_filterMap.1 h
  obtain ⟨above, written, rest, hstands, -, rfl⟩ := stands_of_here? hstart hhere
  have htext : text = above ++ written ++ rest := by rw [hstands.text_eq, List.append_assoc]
  rw [htext, Place.ofPosition_size_append]
  refine .of_stop (List.suffix_append _ _) fun c hc => isPlain_of_stop ?_
  simp [isCommandChar, hstands.ends c hc]

namespace Script

variable {name text : String} {table : CommandTable}

theorem unbroken_of_indexed {p : String × Nat}
    (h : p ∈ (ofText name text).events.entries ∨ p ∈ (ofText name text).labels.entries) :
    Unbroken text.toList ((ofText name text).placeAt p.2).rest := by
  obtain ⟨header, hmem⟩ := header_of_position (h.imp Dict.get?_of_mem_entries Dict.get?_of_mem_entries)
  exact Header.unbroken_of_mem hmem

/-- A script is calm if no word of its text names a command that is not. -/
theorem calm_of_mentions
    (h : ∀ word, Mentions text.toList word → table.CalmWord (lowercase (String.ofList word))) :
    (ofText name text).Calm table := by
  classical
  let places := text.toList.tails.filter fun cs => Unbroken text.toList cs
  have hplaces : ∀ cs, cs ∈ places ↔ Unbroken text.toList cs := fun cs => by
    simp only [places, List.mem_filter, List.mem_tails, decide_eq_true_eq]
    exact and_iff_right_of_imp Unbroken.suffix
  have hcovers : (ofText name text).Covers table places := {
    handlers := fun p hp => (hplaces _).2 (unbroken_of_indexed (.inl hp))
    labels := fun p hp => (hplaces _).2 (unbroken_of_indexed (.inr hp))
    ways := fun cs hcs rest hrest => (hplaces _).2 (((hplaces cs).1 hcs).trans (CommandTable.unbroken_of_ways hrest))
    calm := fun cs hcs command hcommand => by
      unfold CommandTable.commandAt? at hcommand
      split at hcommand
      · rename_i hnames
        obtain ⟨⟨name, command⟩, hlookup, rfl⟩ := Option.map_eq_some_iff.1 hcommand
        exact h _ (mentions_of_names ((hplaces cs).1 hcs) hnames) name command hlookup
      · cases hcommand }
  exact hcovers.script_calm

end Script

end EntityScript
