import EntityScript.Proofs.Actions
import EntityScript.Proofs.Lexemes

/-! Words that are written on a line are read back. Each was written bare or between quotes, apart from the
one before it, and a comment may follow the last. While words are left the line does not end; behind the
last one it does, and what is read there is empty and passes over nothing. -/

namespace EntityScript

open Reading

namespace Reading

structure WordLine where
  words : List Argument
  apart : ∀ a ∈ words.tail, a.blanks ≠ []
  /-- A word has no variables to fill in. -/
  plain : ∀ a ∈ words, '~' ∉ a.lexeme.word
  ending : LineEnd
  /-- A comment does not begin in the last word. -/
  setOff : ending.comment.isSome → words = [] ∨ ending.blanks ≠ []

namespace WordLine

def read (l : WordLine) : List String := l.words.map fun a => String.ofList a.lexeme.word

def text (l : WordLine) : List Char := Argument.written l.words ++ l.ending.text

end WordLine

variable {rest : List Char}

namespace LineEnd

theorem nextToken_text (e : LineEnd) (hrest : AtBreak rest) : nextToken (e.text ++ rest) = none := by
  have hblanks : (e.text ++ rest).dropWhile isSeparator =
      (e.comment.elim [] (fun comment => '/' :: '/' :: comment.1) ++ rest).dropWhile isSeparator := by
    rw [text, List.append_assoc, List.dropWhile_append_of_pos e.separating]
  rw [nextToken, hblanks]
  cases e.comment with
  | some comment => rfl
  | none =>
    cases rest with
    | nil => rfl
    | cons c rest =>
      rw [hrest c rfl]
      rfl

theorem stopsToken_text {e : LineEnd} (hset : e.comment.isSome → e.blanks ≠ []) (hrest : AtBreak rest) :
    StopsToken (e.text ++ rest) := by
  unfold text
  cases hblanks : e.blanks with
  | nil =>
    have hcomment : e.comment = none := by
      rw [Option.eq_none_iff_forall_ne_some]
      intro comment hsome
      exact hset (by rw [hsome]; rfl) hblanks
    rw [hcomment]
    exact hrest.stopsToken
  | cons c blanks =>
    have hc : isSeparator c = true := e.separating c (by rw [hblanks]; exact List.mem_cons_self)
    intro d hd
    cases hd
    simp [isWordChar, hc]

end LineEnd

/-- Words apart from one another end where they should, if the last one does. -/
theorem Argument.spaced_of_apart {words : List Argument} (hapart : ∀ a ∈ words.tail, a.blanks ≠ [])
    (hrest : words ≠ [] → StopsToken rest) : Spaced words rest := by
  induction words with
  | nil => trivial
  | cons a more ih =>
    have hstop : StopsToken rest := hrest (List.cons_ne_nil _ _)
    have hnext : StopsToken (written more ++ rest) := by
      cases more with
      | nil => exact hstop
      | cons b more => exact stopsToken_written (hapart b List.mem_cons_self) more rest
    have hfits : a.lexeme.Fits (written more ++ rest) := by
      cases a.lexeme with
      | bare w => exact hnext
      | quoted text h => trivial
    exact ⟨hfits, ih (fun b hb => hapart b (List.mem_of_mem_tail hb)) fun _ => hstop⟩

theorem WordLine.spaced (l : WordLine) (hrest : AtBreak rest) :
    Argument.Spaced l.words (l.ending.text ++ rest) := by
  refine Argument.spaced_of_apart l.apart fun hwords => LineEnd.stopsToken_text (fun hcomment => ?_) hrest
  exact (l.setOff hcomment).resolve_left hwords

end Reading

namespace Exec

def readAsked : Nat → Exec (List (Bool × String))
  | 0 => pure []
  | n + 1 => do
    let ended ← atLineEnd
    let word ← readWord
    return (ended, word) :: (← readAsked n)

variable {r : Run} {rest : List Char}

theorem atLineEnd_run (h : r.place.insideChar = false) :
    atLineEnd.run r = (Reading.atLineEnd r.rest, r) := by
  have hrun : atLineEnd.run r = (!r.place.insideChar && Reading.atLineEnd r.rest, r) := rfl
  rw [hrun, h]
  rfl

theorem readAsked_succ {word : String} {s : Run} (hplace : r.place.insideChar = false)
    (hword : readWord.run r = (word, s)) (n : Nat) :
    (readAsked (n + 1)).run r =
      ((Reading.atLineEnd r.rest, word) :: ((readAsked n).run s).1, ((readAsked n).run s).2) := by
  rw [readAsked, run_bind_of (atLineEnd_run hplace), run_bind_of hword]
  rfl

/-- Nothing more is read from a line that has ended. -/
theorem readAsked_of_none (hplace : r.place.insideChar = false) (h : nextToken r.rest = none) (n : Nat) :
    (readAsked n).run r = (List.replicate n (true, ""), r) := by
  have hword : readWord.run r = ("", r) := by rw [readWord_run, h]
  induction n with
  | zero => rfl
  | succ n ih =>
    rw [readAsked_succ hplace hword, ih, Reading.atLineEnd, h]
    rfl

/-- The words are read one by one, before whatever is read behind them. -/
theorem readAsked_written {words : List Argument} (hplain : ∀ a ∈ words, '~' ∉ a.lexeme.word)
    (hspaced : Argument.Spaced words rest) (hplace : r.place.insideChar = false)
    (hr : r.rest = Argument.written words ++ rest) (n : Nat) :
    (readAsked (words.length + n)).run r =
      (words.map (fun a => (false, String.ofList a.lexeme.word)) ++ ((readAsked n).run (r.readTo rest)).1,
        ((readAsked n).run (r.readTo rest)).2) := by
  induction words generalizing r with
  | nil =>
    have hstay : r.readTo rest = r := by
      have hread := Text.Place.readTo_rest hplace
      have hrest : r.place.rest = rest := hr
      rw [hrest] at hread
      rw [Run.readTo, hread]
    rw [hstay, List.length_nil, Nat.zero_add]
    rfl
  | cons a words ih =>
    obtain ⟨hfits, hmore⟩ := hspaced
    obtain ⟨ha, hwords⟩ := List.forall_mem_cons.1 hplain
    have htoken : nextToken r.rest =
        some ⟨a.lexeme.word, a.lexeme.chars ++ (Argument.written words ++ rest), Argument.written words ++ rest⟩ := by
      rw [hr, Argument.written_cons, Argument.nextToken_text hfits]
    have hword : readWord.run r =
        (String.ofList a.lexeme.word, r.readTo (Argument.written words ++ rest)) := by
      rw [readWord_run, htoken]
      exact expand_plain ha _
    have hsuffix : Argument.written words ++ rest <:+ r.rest := by
      rw [hr, Argument.written_cons]
      exact List.suffix_append _ _
    have hlater := ih (r := r.readTo (Argument.written words ++ rest)) hwords hmore
      (Text.Place.insideChar_readTo _ _) (Run.rest_readTo _ _)
    rw [Run.readTo_readTo hsuffix (List.suffix_append _ _)] at hlater
    rw [List.length_cons, Nat.add_right_comm, readAsked_succ hplace hword, hlater, Reading.atLineEnd, htoken]
    rfl

/-- The words of the line are read as they are, and it ends behind the last one and not before. What is
asked for there is empty, and the line break stays ahead. -/
theorem readAsked_wordLine {l : WordLine} (hplace : r.place.insideChar = false) (hr : r.rest = l.text ++ rest)
    (hrest : AtBreak rest) (more : Nat) :
    (readAsked (l.words.length + more)).run r =
      (l.read.map (fun word => (false, word)) ++ List.replicate more (true, ""),
        r.readTo (l.ending.text ++ rest)) := by
  rw [WordLine.text, List.append_assoc] at hr
  have hends := readAsked_of_none (r := r.readTo (l.ending.text ++ rest)) (Text.Place.insideChar_readTo _ _)
    (by rw [Run.rest_readTo]; exact l.ending.nextToken_text hrest) more
  rw [readAsked_written l.plain (l.spaced hrest) hplace hr, hends, WordLine.read, List.map_map]
  rfl

theorem isQuotedChar_nil : ∀ c ∈ ([] : List Char), isQuotedChar c = true := nofun

def proclamation : WordLine where
  words :=
    [spacedWord "say".toList, ⟨[' '], isSeparator_blank, .quoted "oyez, (one) // {all}".toList (by decide)⟩,
      ⟨['\t', ','], by decide, .quoted [] isQuotedChar_nil⟩, spacedWord "north//gate".toList, spacedWord "fête".toList]
  apart := by decide
  plain := by decide
  ending := ⟨[' '], isSeparator_blank, some ⟨" \"noon\"".toList, by decide⟩⟩
  setOff := fun _ => .inr (List.cons_ne_nil _ _)

def proclaimed : String := " say \"oyez, (one) // {all}\"\t,\"\" north//gate fête // \"noon\"\nnop"

def bellman : Run where
  script := .ofText "bellman" proclaimed
  place := { rest := proclaimed.toList }
  own := .fresh 0
  shared := { globals := .withCapacity 0, timers := .withCapacity 0, random := .ofSeed 0, maxCallDepth := 1 }
  world := {}
  owner := none
  sender := none

theorem readAsked_bellman :
    (readAsked 7).run bellman =
      ([(false, "say"), (false, "oyez, (one) // {all}"), (false, ""), (false, "north//gate"), (false, "fête"),
          (true, ""), (true, "")],
        bellman.readTo " // \"noon\"\nnop".toList) := by
  have hrest : bellman.rest = proclamation.text ++ "\nnop".toList := by decide +kernel
  exact readAsked_wordLine (l := proclamation) rfl hrest (by simp [AtBreak]) 2

end Exec

end EntityScript
