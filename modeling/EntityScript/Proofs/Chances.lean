import EntityScript.Proofs.Branches
import EntityScript.Proofs.Layouts

/-! Statements that run by chance. A roll that fails passes over the statement behind the chance word, up to
its end. Skipping does not know `random` for a word that another statement follows, and passes over the
rest of its line only. So the two agree where the whole statement stands on one line, and elsewhere an `if`
that does not hold goes on with the second line of the statement. -/

namespace EntityScript

open Reading

namespace Reading

structure Alternative where
  gap : List Filler
  word : Spelling "else"
  branch : Layout

structure Chance where
  gap : List Filler
  word : Spelling "random"
  chance : Argument
  apart : chance.blanks ≠ []
  branch : Layout
  otherwise : Option Alternative

variable {rest : List Char}

namespace Alternative

def text (before : Layout) (a : Alternative) : List Char :=
  Filler.text (before.ending ++ a.gap) ++ (a.word.chars ++ a.branch.front)

theorem text_append (before : Layout) (a : Alternative) (rest : List Char) :
    a.text before ++ rest = Filler.text (before.ending ++ a.gap) ++ (a.word.chars ++ (a.branch.front ++ rest)) := by
  simp [text]

end Alternative

namespace Chance

def guarded (c : Chance) : List Char := c.branch.front ++ c.otherwise.elim [] (·.text c.branch)

def text (c : Chance) : List Char := Filler.text c.gap ++ (c.word.chars ++ (c.chance.text ++ c.guarded))

def endsLine (c : Chance) : Bool := c.otherwise.elim c.branch.endsLine (·.branch.endsLine)

def isOpen (c : Chance) : Bool := c.otherwise.elim true (·.branch.isOpen)

/-- Words end before what follows them, and every `else` belongs to the nearest statement that has one. -/
def LaidOut (c : Chance) : Prop :=
  c.chance.lexeme.Fits c.guarded ∧ c.branch.LaidOut ∧
    ∀ a ∈ c.otherwise, c.branch.isOpen = false ∧ StopsWord a.branch.front ∧ a.branch.LaidOut

def ClearInside (c : Chance) : Prop := c.branch.ClearInside ∧ ∀ a ∈ c.otherwise, a.branch.ClearInside

/-- Where a roll that fails goes on in the end: behind the other branch, if there is one. -/
def afterFailedRoll (c : Chance) (rest : List Char) : List Char :=
  let behind := skipGuarded (c.guarded ++ rest)
  if c.otherwise.isSome then skipStatement behind else behind

variable {c : Chance}

theorem guarded_of_none (h : c.otherwise = none) (rest : List Char) :
    c.guarded ++ rest = c.branch.front ++ rest := by
  simp [guarded, h]

theorem guarded_of_some {a : Alternative} (h : c.otherwise = some a) (rest : List Char) :
    c.guarded ++ rest = c.branch.front ++ (a.text c.branch ++ rest) := by
  simp [guarded, h]

theorem text_append (c : Chance) (rest : List Char) :
    c.text ++ rest = Filler.text c.gap ++ (c.word.chars ++ (c.chance.text ++ (c.guarded ++ rest))) := by
  simp [text]

/-- A roll that fails goes on behind the statement. -/
theorem afterFailedRoll_eq (hlaid : c.LaidOut) (hclear : c.ClearInside)
    (hrest : c.endsLine = true → AtBreak rest) (helse : c.isOpen = true → elseFollows rest = false) :
    c.afterFailedRoll rest = rest := by
  obtain ⟨-, hbranch, hother⟩ := hlaid
  rw [afterFailedRoll]
  unfold endsLine at hrest
  unfold isOpen at helse
  cases hotherwise : c.otherwise with
  | none =>
    rw [hotherwise] at hrest helse
    have hnone := helse rfl
    have hskip := c.branch.skipStatement_front hbranch hclear.1 hrest fun _ => hnone
    rw [guarded_of_none hotherwise, skipGuarded, hskip, hnone]
    rfl
  | some a =>
    rw [hotherwise] at hrest helse
    obtain ⟨hclosed, hstops, hlaid⟩ := hother a hotherwise
    have hbreak : c.branch.endsLine = true → AtBreak (a.text c.branch ++ rest) := by
      intro h
      rw [Alternative.text_append]
      exact Layout.atBreak_ending_append h _ _
    have hskip := c.branch.skipStatement_front hbranch hclear.1 hbreak fun h => absurd h (by simp [hclosed])
    have hread : readCommand (a.text c.branch ++ rest) = ("else", a.branch.front ++ rest) := by
      rw [Alternative.text_append]
      exact (Alike.gap _ _).readCommand.trans (Layout.readCommand_else a.word hstops rest)
    have hlast := a.branch.skipStatement_front hlaid (hclear.2 a hotherwise) hrest helse
    have hguarded : skipGuarded (c.guarded ++ rest) = a.branch.front ++ rest := by
      rw [guarded_of_some hotherwise, skipGuarded, hskip, elseFollows, hread]
      rfl
    rw [hguarded]
    exact hlast

theorem readCommand_chance (c : Chance) (rest : List Char) :
    readCommand (c.word.chars ++ (c.chance.text ++ rest)) = ("random", c.chance.text ++ rest) := by
  refine c.word.readCommand_chars (by decide) ?_
  have hstops := Argument.stopsWord_written c.apart [] rest
  rwa [Argument.written_cons] at hstops

/-- Skipping passes over the line of the word `random`. -/
theorem skipStatement_eq_dropLine (c : Chance) (rest : List Char) :
    skipStatement (c.text ++ rest) = dropLine (c.guarded ++ rest) := by
  have hread := c.readCommand_chance (c.guarded ++ rest)
  have hlead : Lead.of (readCommand (c.word.chars ++ (c.chance.text ++ (c.guarded ++ rest)))).1 = .command := by
    rw [hread]
    rfl
  have hchance : '\n' ∉ c.chance.text := by
    rw [Argument.text, List.mem_append, not_or]
    exact ⟨c.chance.noBreak_blanks, c.chance.lexeme.noBreak⟩
  rw [text_append, (Alike.gap c.gap _).skipStatement (by rw [hlead]; decide), skipStatement_eq, hlead, hread]
  exact dropLine_of_onLine ⟨_, rfl, hchance⟩

end Chance

/-- The line of a text ends where the text does only if there is no line break before. -/
theorem dropLine_append_iff {cs : List Char} : dropLine (cs ++ rest) = rest ↔ '\n' ∉ cs ∧ AtBreak rest := by
  refine ⟨fun h => ?_, fun h => dropLine_append h.1 h.2⟩
  by_cases hbreak : '\n' ∈ cs
  · obtain ⟨front, back, rfl, hfront⟩ := List.eq_append_cons_of_mem hbreak
    rw [List.append_assoc, dropLine_append hfront (by simp)] at h
    have hlength : back.length + rest.length + 1 = rest.length := by simpa using congrArg List.length h
    omega
  · refine ⟨hbreak, fun c hc => ?_⟩
    rw [dropLine_of_onLine ⟨cs, rfl, hbreak⟩] at h
    obtain ⟨more, rfl⟩ := List.head?_eq_some_iff.1 hc
    exact eq_of_dropWhile_ne h

/-- Skipping a statement that runs by chance ends where a roll that fails goes on in the end, if and only
if what it guards stands on one line. -/
theorem Chance.skipStatement_eq_iff {c : Chance} (hlaid : c.LaidOut) (hclear : c.ClearInside)
    (hrest : c.endsLine = true → AtBreak rest) (helse : c.isOpen = true → elseFollows rest = false) :
    skipStatement (c.text ++ rest) = c.afterFailedRoll rest ↔ '\n' ∉ c.guarded ∧ AtBreak rest := by
  rw [c.afterFailedRoll_eq hlaid hclear hrest helse, skipStatement_eq_dropLine]
  exact dropLine_append_iff

/-- Where the run goes on that stands before an `else` of its own, or before anything else. -/
def behindElse (cs : List Char) : List Char := if elseFollows cs then (readCommand cs).2 else cs

end Reading

namespace Loop

variable {table : CommandTable} {policy : WrongTypePolicy} {depth : Int} {r : Run} {l : Loop} {rest : List Char}

/-- An `if` that does not hold goes on behind the line of the `random` that it guards. -/
theorem At.skipsChance (hknows : table.Knows policy) {word : Spelling "if"} {t : Test} {c : Chance}
    (hfits : t.right.lexeme.Fits (c.text ++ rest)) (hfails : t.holds policy r = false)
    (h : At r depth (word.chars ++ (t.text ++ (c.text ++ rest))) l) :
    ∃ m, Takes table 1 l m ∧ At r depth (behindElse (dropLine (c.guarded ++ rest))) m := by
  have htests := h.tests hknows hfits
  rwa [hfails, if_neg Bool.false_ne_true, skipGuarded, Chance.skipStatement_eq_dropLine] at htests

end Loop

/-- Where skipping a statement that runs by chance ends, and where a roll that fails goes on in the end. It
is the same place if and only if what the statement guards stands on one line with its end. An `if` that does
not hold then runs nothing of it, and otherwise it goes on with the next line of the statement. -/
theorem chance_skipped {c : Chance} {rest : List Char} (hlaid : c.LaidOut) (hclear : c.ClearInside)
    (hrest : c.endsLine = true → AtBreak rest) (helse : c.isOpen = true → elseFollows rest = false) :
    c.afterFailedRoll rest = rest ∧ skipStatement (c.text ++ rest) = dropLine (c.guarded ++ rest) ∧
      (skipStatement (c.text ++ rest) = c.afterFailedRoll rest ↔ '\n' ∉ c.guarded ∧ AtBreak rest) ∧
      ∀ (table : CommandTable) (policy : WrongTypePolicy), table.Knows policy →
        ∀ (word : Spelling "if") (t : Test) (r : Run) (depth : Int) (l : Loop),
          t.right.lexeme.Fits (c.text ++ rest) → t.holds policy r = false →
          Loop.At r depth (word.chars ++ (t.text ++ (c.text ++ rest))) l →
          ∃ m, Loop.Takes table 1 l m ∧ Loop.At r depth (behindElse (dropLine (c.guarded ++ rest))) m ∧
            ('\n' ∉ c.guarded → AtBreak rest → Loop.At r depth (behindElse rest) m) := by
  refine ⟨c.afterFailedRoll_eq hlaid hclear hrest helse, c.skipStatement_eq_dropLine rest,
    Chance.skipStatement_eq_iff hlaid hclear hrest helse, ?_⟩
  intro table policy hknows word t r depth l hfits hfails h
  obtain ⟨m, htakes, hm⟩ := h.skipsChance hknows hfits hfails
  refine ⟨m, htakes, hm, fun hline hbreak => ?_⟩
  rwa [dropLine_append hline hbreak] at hm

def gamble (branch : Layout) : Chance where
  gap := [blankSpace]
  word := ⟨['r', 'a', 'n', 'd', 'o', 'm'], by decide, by decide⟩
  chance := spacedWord ['1', '0', '0']
  apart := by decide
  branch
  otherwise := none

def refuseLine : Line where
  first := .bare ⟨['r', 'e', 'f', 'u', 's', 'e'], by decide, by decide, by decide, by decide⟩
  arguments := []
  last := .bare
  tidy := ⟨by decide, by decide⟩
  spaced := ⟨by decide, trivial⟩
  notIf := by decide
  notElse := by decide

def unequal : Test := ⟨spacedWord ['1'], spacedWord ['!', '='], spacedWord ['1'], by decide, by decide⟩

def gambler (branch : Layout) : Run where
  script := .ofText "gambler" ""
  place := { rest := Spelling.plainIf.chars ++ (unequal.text ++ ((gamble branch).text ++ ['\n'])) }
  owner := none
  own := .fresh 0
  shared :=
    { globals := .withCapacity 0, timers := .withCapacity 0, random := .ofSeed 0, maxCallDepth := 1 }
  world := {}
  sender := none

theorem gambler_at (branch : Layout) :
    Loop.At (gambler branch) 0 (Spelling.plainIf.chars ++ (unequal.text ++ ((gamble branch).text ++ ['\n'])))
      (.begin (gambler branch) .block) :=
  ⟨rfl, rfl, .refl _, Eq.refl _⟩

theorem gamble_otherwise (branch : Layout) (a : Alternative) : a ∉ (gamble branch).otherwise :=
  Option.not_mem_none a

theorem gambler_fails (branch : Layout) : unequal.holds .legacy (gambler branch) = false := by
  have hscene : SameScene (gambler (.block [] [] [])) (gambler branch) := ⟨rfl, rfl, rfl, rfl, rfl, rfl, rfl⟩
  rw [hscene.test]
  decide +kernel

/-- On one line nothing of the statement is left to read. -/
theorem chance_skipped_gambler :
    let branch := Layout.line [blankSpace] refuseLine
    skipStatement " random 100 refuse\n".toList = ['\n'] ∧
      ∃ m, Loop.Takes (.builtin .legacy) 1 (.begin (gambler branch) .block) m ∧ readCommand m.run.rest = ("", []) := by
  intro branch
  have hlaid : (gamble branch).LaidOut := ⟨by decide, trivial, fun a ha => absurd ha (gamble_otherwise _ a)⟩
  have hclear : (gamble branch).ClearInside := ⟨trivial, fun a ha => absurd ha (gamble_otherwise _ a)⟩
  have hnone : elseFollows ['\n'] = false := by decide
  have hbreak : AtBreak ['\n'] := by simp [AtBreak]
  obtain ⟨hroll, -, hsame, hruns⟩ := chance_skipped hlaid hclear (fun _ => hbreak) (fun _ => hnone)
  obtain ⟨m, htakes, -, hm⟩ := hruns _ _ (CommandTable.builtin_knows .legacy) .plainIf unequal (gambler branch) 0 _
    (by decide) (gambler_fails branch) (gambler_at branch)
  have hskip := (hsame.2 ⟨by decide, hbreak⟩).trans hroll
  have hat := hm (by decide) hbreak
  rw [behindElse, hnone, if_neg Bool.false_ne_true] at hat
  exact ⟨hskip, m, htakes, hat.ahead.readCommand⟩

/-- The comparison does not hold, a roll that fails would go on behind the block, and the run goes on in it. -/
theorem chance_strays_gambler :
    let branch := Layout.block [blankSpace] [.line [newLine] refuseLine] []
    (gamble branch).LaidOut ∧ (gamble branch).ClearInside ∧
      (gamble branch).text ++ ['\n'] = " random 100 \x7b\nrefuse\n\x7d\n".toList ∧
      (gamble branch).afterFailedRoll ['\n'] = ['\n'] ∧
      skipStatement ((gamble branch).text ++ ['\n']) = "\nrefuse\n\x7d\n".toList ∧
      ∃ m, Loop.Takes (.builtin .legacy) 1 (.begin (gambler branch) .block) m ∧
        m.turn = .met "refuse" "\n\x7d\n".toList := by
  intro branch
  have hlaid : (gamble branch).LaidOut := ⟨by decide, ⟨trivial, trivial⟩, fun a ha => absurd ha (gamble_otherwise _ a)⟩
  have hclear : (gamble branch).ClearInside := ⟨⟨trivial, trivial⟩, fun a ha => absurd ha (gamble_otherwise _ a)⟩
  have hnone : elseFollows ['\n'] = false := by decide
  have hroll : (gamble branch).afterFailedRoll ['\n'] = ['\n'] :=
    Chance.afterFailedRoll_eq hlaid hclear (fun _ => by simp [AtBreak]) (fun _ => hnone)
  obtain ⟨m, htakes, hm⟩ := (gambler_at branch).skipsChance (CommandTable.builtin_knows .legacy) (by decide)
    (gambler_fails branch)
  refine ⟨hlaid, hclear, by decide, hroll, ?_, m, htakes, hm.met (by decide) (by decide)⟩
  rw [Chance.skipStatement_eq_dropLine]
  decide

end EntityScript
