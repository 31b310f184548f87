import EntityScript.Command.Console
import Mathlib.Data.List.TakeWhile

/-! Words are read within a line: whatever a reader of words takes, the text it
leaves is an ending of the text it was given, and no line break lies between. The
words that are left on the line are then the last ones of those there were. -/

namespace EntityScript.Reading

/-- What holds of all characters of a text is decided on the text, not on all characters there are. -/
instance (priority := high) decidableForallMem {p : Char → Prop} [DecidablePred p] (cs : List Char) :
    Decidable (∀ c ∈ cs, p c) := List.decidableBAll p cs

/-- The text `ds` is what `cs` leaves at a later place of its line. -/
def OnLine (cs ds : List Char) : Prop := ∃ front, cs = front ++ ds ∧ '\n' ∉ front

namespace OnLine

theorem refl (cs : List Char) : OnLine cs cs := ⟨[], rfl, by simp⟩

theorem trans {as bs cs : List Char} (h₁ : OnLine as bs) (h₂ : OnLine bs cs) : OnLine as cs := by
  obtain ⟨front₁, rfl, hn₁⟩ := h₁
  obtain ⟨front₂, rfl, hn₂⟩ := h₂
  exact ⟨front₁ ++ front₂, by simp, by simp [hn₁, hn₂]⟩

theorem suffix {cs ds : List Char} (h : OnLine cs ds) : ds <:+ cs := by
  obtain ⟨front, rfl, -⟩ := h
  exact List.suffix_append front ds

theorem cons {c : Char} (hc : c ≠ '\n') (cs : List Char) : OnLine (c :: cs) cs :=
  ⟨[c], rfl, by simpa using hc.symm⟩

theorem dropWhile {p : Char → Bool} (hp : p '\n' = false) (cs : List Char) :
    OnLine cs (cs.dropWhile p) := by
  refine ⟨cs.takeWhile p, List.takeWhile_append_dropWhile.symm, fun h => ?_⟩
  rw [List.mem_takeWhile_imp h] at hp
  cases hp

/-- Whatever is read on a line, its break is still to come. -/
theorem keeps_break {cs ds below : List Char} (h : OnLine cs ds) (hbreak : '\n' :: below <:+ cs) :
    '\n' :: below <:+ ds := by
  obtain ⟨front, rfl, hfront⟩ := h
  obtain ⟨above, hsplit⟩ := hbreak
  rcases List.append_eq_append_iff.1 hsplit with ⟨mid, hmid, hbelow⟩ | ⟨mid, -, hds⟩
  · cases mid with
    | nil => exact ⟨[], hbelow⟩
    | cons c mid =>
      -- the break would be in front
      obtain ⟨rfl, -⟩ := List.cons.inj hbelow
      exact absurd (by simp [hmid]) hfront
  · exact ⟨mid, hds.symm⟩

end OnLine

theorem head?_dropWhile {p : Char → Bool} {c : Char} {cs : List Char} (h : c ∈ (cs.dropWhile p).head?) :
    p c = false := by
  have hhead := List.head?_dropWhile_not p cs
  rwa [Option.mem_def.1 h] at hhead

/-- A search for a character ends at it, or at the end of the text. -/
theorem eq_of_dropWhile_ne {c d : Char} {cs rest : List Char} (h : cs.dropWhile (· != d) = c :: rest) : c = d := by
  have hhead := List.head?_dropWhile_not (· != d) cs
  simpa [h] using hhead

theorem takeWhile_append_stop {p : Char → Bool} {word rest : List Char} (hword : ∀ c ∈ word, p c = true)
    (hstop : ∀ c ∈ rest.head?, p c = false) :
    (word ++ rest).takeWhile p = word ∧ (word ++ rest).dropWhile p = rest := by
  rw [List.takeWhile_append_of_pos hword, List.dropWhile_append_of_pos hword]
  cases rest with
  | nil => simp
  | cons c rest =>
    have hc : p c = false := hstop c rfl
    simp [hc]

theorem dropQuote_onLine (cs : List Char) : OnLine cs (dropQuote cs) := by
  unfold dropQuote
  split
  · exact OnLine.cons (by decide) _
  · exact OnLine.refl _

theorem nextToken_onLine {cs : List Char} {token : Token} (h : nextToken cs = some token) :
    OnLine cs token.rest := by
  have hs := OnLine.dropWhile (p := isSeparator) (by decide) cs
  obtain ⟨c, rest, hc, hn, htoken⟩ := nextToken_cases h
  rw [hc] at hs
  have hrest := hs.trans (OnLine.cons hn rest)
  obtain ⟨-, rfl⟩ | ⟨-, rfl⟩ := htoken
  · exact (hrest.trans (OnLine.dropWhile (by decide) rest)).trans (dropQuote_onLine _)
  · exact hrest.trans (OnLine.dropWhile (by decide) rest)

theorem start_onLine {cs : List Char} {token : Token} (h : nextToken cs = some token) :
    OnLine cs token.start := by
  have hs := OnLine.dropWhile (p := isSeparator) (by decide) cs
  obtain ⟨c, rest, hc, -, ⟨-, rfl⟩ | ⟨-, rfl⟩⟩ := nextToken_cases h
  · rwa [hc] at hs
  · rwa [hc] at hs

theorem dropToken_onLine (cs : List Char) : OnLine cs (dropToken cs) := by
  unfold dropToken
  split
  · rename_i h; exact nextToken_onLine h
  · exact OnLine.refl cs

theorem dropOperands_onLine (cs : List Char) : OnLine cs (dropOperands cs) :=
  ((dropToken_onLine _).trans (dropToken_onLine _)).trans (dropToken_onLine _)

theorem dropLine_onLine (cs : List Char) : OnLine cs (dropLine cs) :=
  OnLine.dropWhile (by decide) cs

theorem ne_of_dropFiller {inComment : Bool} {cs rest : List Char} {c : Char}
    (h : dropFiller inComment cs = c :: rest) : c ≠ '\n' := by
  induction cs generalizing inComment with
  | nil => cases h
  | cons d cs ih =>
    rw [dropFiller] at h
    split_ifs at h with hbreak
    any_goals exact ih h
    cases h
    exact hbreak

/-- A command word stands on one line. -/
theorem readCommand_onLine (cs : List Char) : OnLine (dropFiller false cs) (readCommand cs).2 := by
  change OnLine (dropFiller false cs) (takeCommand cs).2
  unfold takeCommand
  split
  · rename_i hnil
    rw [hnil]
    exact .refl _
  · rename_i c rest hcons
    rw [hcons]
    have hrest := OnLine.cons (ne_of_dropFiller hcons) rest
    split
    · exact hrest
    · exact hrest.trans (OnLine.dropWhile (by decide) rest)

theorem lineWords_onLine (cs : List Char) : OnLine cs (lineWords cs).2 := by
  unfold lineWords
  split
  · exact OnLine.refl cs
  · rename_i token h
    have := nextToken_length_lt h
    exact (nextToken_onLine h).trans (lineWords_onLine token.rest)
termination_by cs.length

theorem lineWords_eq (cs : List Char) :
    (lineWords cs).1 =
      match nextToken cs with
      | none => []
      | some token => token.word :: (lineWords token.rest).1 := by
  rw [lineWords]
  split
  · rename_i h
    rw [h]
  · rename_i token h
    simp only [h]

theorem lineWords_of_none {cs : List Char} (h : nextToken cs = none) : (lineWords cs).1 = [] := by
  rw [lineWords_eq, h]

theorem lineWords_of_some {cs : List Char} {token : Token} (h : nextToken cs = some token) :
    (lineWords cs).1 = token.word :: (lineWords token.rest).1 := by
  rw [lineWords_eq, h]

/-- Readers of words go along the line: the words that are left are the last ones of those there were. -/
structure Along (cs ds : List Char) : Prop where
  onLine : OnLine cs ds
  words : (lineWords ds).1 <:+ (lineWords cs).1

namespace Along

theorem refl (cs : List Char) : Along cs cs := ⟨OnLine.refl cs, List.suffix_refl _⟩

theorem trans {as bs cs : List Char} (h₁ : Along as bs) (h₂ : Along bs cs) : Along as cs :=
  ⟨h₁.onLine.trans h₂.onLine, h₂.words.trans h₁.words⟩

theorem of_none {cs ds : List Char} (h : OnLine cs ds) (hnone : nextToken ds = none) : Along cs ds :=
  ⟨h, lineWords_of_none hnone ▸ List.nil_suffix⟩

end Along

theorem nextToken_along {cs : List Char} {token : Token} (h : nextToken cs = some token) : Along cs token.rest :=
  ⟨nextToken_onLine h, lineWords_of_some h ▸ List.suffix_cons _ _⟩

theorem nextToken_dropLine (cs : List Char) : nextToken (dropLine cs) = none := by
  cases hd : dropLine cs with
  | nil => rfl
  | cons c rest =>
    obtain rfl := eq_of_dropWhile_ne hd
    rw [nextToken, List.dropWhile_cons_of_neg (by decide)]
    rfl

theorem dropLine_along (cs : List Char) : Along cs (dropLine cs) :=
  .of_none (dropLine_onLine cs) (nextToken_dropLine cs)

/-- No word is left behind the last one. -/
theorem nextToken_lineWords (cs : List Char) : nextToken (lineWords cs).2 = none := by
  rw [lineWords]
  split
  · assumption
  · rename_i token h
    have := nextToken_length_lt h
    exact nextToken_lineWords token.rest
termination_by cs.length

theorem lineWords_along (cs : List Char) : Along cs (lineWords cs).2 :=
  .of_none (lineWords_onLine cs) (nextToken_lineWords cs)

end EntityScript.Reading
