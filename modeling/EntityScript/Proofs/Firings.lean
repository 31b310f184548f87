import EntityScript.Proofs.Calls
import EntityScript.Proofs.Letters
import EntityScript.Proofs.Refinement

/-! Timers that come due. The run of a timer begins at the place that was saved for it and ends with that
line. If the line has no braces, no `goto` and no branches, a call is all that leads off it, and a call comes
back to where it was made, with the depth of braces from before and still bound to the line. So whatever the
subroutines do, all that is carried out outside of them stands on the line. -/

namespace EntityScript

open Reading Relation

namespace Reading

variable {cs : List Char} {token : Token}

/-- On a line without braces command words end where other words do. -/
theorem takeWhile_of_clear (h : ClearLine cs) :
    cs.takeWhile isCommandChar = cs.takeWhile isWordChar ∧
      cs.dropWhile isCommandChar = cs.dropWhile isWordChar := by
  induction cs with
  | nil => exact ⟨rfl, rfl⟩
  | cons c cs ih =>
    cases hword : isWordChar c with
    | false => simp [isCommandChar, hword]
    | true =>
      have hbreak : c ≠ '\n' := by
        rintro rfl
        exact absurd hword (by decide)
      rw [ClearLine, List.takeWhile_cons_of_pos (by simpa using hbreak), List.forall_mem_cons] at h
      obtain ⟨hopen, hclose⟩ := not_or.1 h.1
      have hcommand : isCommandChar c = true := by simp [isCommandChar, hword, hopen, hclose]
      obtain ⟨htake, hdrop⟩ := ih h.2
      simp [hcommand, hword, htake, hdrop]

/-- On a line without braces a command word is the next word of the line, if that one is not quoted. -/
theorem readCommand_of_clear (hclear : ClearLine cs) (h : nextToken cs = some token) :
    (readCommand cs = (Text.lowercase (String.ofList token.word), token.rest) ∧ ∀ c ∈ token.word, ¬IsBrace c) ∨
      (readCommand cs).1.toList.head? = some '"' := by
  have hfiller := dropFiller_of_some h
  have hstart := (hclear.onLine (start_onLine h)).1
  have hpeeks := peeks cs
  rw [h] at hpeeks
  cases hpeeks with
  | @quoted _ _ rest _ _ _ _ =>
    right
    rw [readCommand, takeCommand, hfiller]
    dsimp only
    rw [if_neg (by decide), Text.lowercase_ofList, Text.lowerFrom_cons_of_isLower (by decide), String.toList_ofList]
    rfl
  | @word c _ _ _ _ _ hs hc _ hword =>
    left
    dsimp only at hfiller hstart ⊢
    obtain ⟨hbreak, -⟩ := not_or.1 hc
    have hfirst : isWordChar c = true := by simp [isWordChar, hs.head, hbreak]
    rw [ClearLine, List.takeWhile_cons_of_pos (by simpa using hbreak)] at hstart
    obtain ⟨hbrace, hrest⟩ := List.forall_mem_cons.1 hstart
    obtain ⟨htake, hdrop⟩ := takeWhile_of_clear hrest
    obtain ⟨rfl, rfl⟩ := passes_iff.1 hword
    rw [List.takeWhile_cons_of_pos hfirst, List.dropWhile_cons_of_pos hfirst]
    constructor
    · rw [readCommand, takeCommand, hfiller]
      dsimp only
      rw [if_neg (by simpa using not_or.1 hbrace), htake, hdrop]
    · rw [← htake, List.forall_mem_cons]
      exact ⟨hbrace, fun d hd => noBrace_of_isCommandChar (List.mem_takeWhile_imp hd)⟩

/-- The words that may lead a run off its line, or over a part of it. -/
def leadingAway : List String := ["goto", "if", "else", "random"]

/-- The line has no braces and none of the words that lead away from it. -/
structure Straight (cs : List Char) : Prop where
  clear : ClearLine cs
  words : ∀ word ∈ (lineWords cs).1, Text.lowercase (String.ofList word) ∉ leadingAway

namespace Straight

theorem along {ds : List Char} (h : Straight cs) (hon : Along cs ds) : Straight ds :=
  ⟨(h.clear.onLine hon.onLine).1, fun word hword => h.words word (hon.words.subset hword)⟩

/-- A command word of the line is not a brace. It does not lead away, or it stands in quotes. -/
theorem readCommand (h : Straight cs) (htoken : nextToken cs = some token) :
    ((readCommand cs).1 ≠ "\x7b" ∧ (readCommand cs).1 ≠ "\x7d") ∧
      (Along cs (readCommand cs).2 ∧ (readCommand cs).1 ∉ leadingAway ∨
        (readCommand cs).1.toList.head? = some '"') := by
  rcases readCommand_of_clear h.clear htoken with ⟨hread, hbraces⟩ | hquoted
  · rw [hread]
    have hmem : token.word ∈ (lineWords cs).1 := lineWords_of_some htoken ▸ List.mem_cons_self
    exact ⟨⟨Block.lowercase_noBrace hbraces (.inl rfl), Block.lowercase_noBrace hbraces (.inr rfl)⟩,
      .inl ⟨nextToken_along htoken, h.words _ hmem⟩⟩
  · refine ⟨⟨fun hopen => ?_, fun hclose => ?_⟩, .inr hquoted⟩
    · rw [hopen] at hquoted
      cases hquoted
    · rw [hclose] at hquoted
      cases hquoted

end Straight

end Reading

namespace CommandTable

variable {policy : WrongTypePolicy} {word name : String} {command : Command}

theorem language_stays (policy : WrongTypePolicy) : ∀ p ∈ language policy,
    p.1 ∉ leadingAway → p.2 ≠ .jump false ∧ p.2 ≠ .stop .jumped ∧ p.2.branches = false := by
  cases policy <;> decide

theorem language_unquoted (policy : WrongTypePolicy) : ∀ p ∈ language policy, p.1.toList.head? ≠ some '"' := by
  cases policy <;> decide

/-- Any other command of the language jumps for a call only, and does not branch. -/
theorem builtin_stays (h : (builtin policy).lookup word = some (name, command)) (hword : word ∉ leadingAway) :
    command ≠ .jump false ∧ command ≠ .stop .jumped ∧ command.branches = false := by
  refine language_stays policy _ (mem_language_of_lookup h) ?_
  rcases (lookup_cases h).2 with rfl | ⟨rfl, -⟩
  · exact hword
  · exact (by decide : "timer" ∉ leadingAway)

theorem builtin_quoted (hword : word.toList.head? = some '"') : (builtin policy).lookup word = none := by
  rw [Option.eq_none_iff_forall_not_mem]
  rintro ⟨name, command⟩ h
  rcases (lookup_cases h).2 with rfl | ⟨-, more, hmore⟩
  · exact language_unquoted policy _ (mem_language_of_lookup h) hword
  · rw [← hmore] at hword
    cases hword

end CommandTable

namespace Exec

theorem rest_passOver (d : Diagnostic) (r : Run) : ((passOver d).run r).2.rest = dropLine r.rest :=
  Run.rest_readTo r _

section

variable {policy : WrongTypePolicy} {word : String} {r : Run}

/-- A word that does not lead away goes on along the line, if it is no call and no return. -/
theorem runWord_along (hword : word ∉ leadingAway)
    (hcall : ∀ name, (CommandTable.builtin policy).lookup word ≠ some (name, .jump true))
    (hback : ∀ name, (CommandTable.builtin policy).lookup word ≠ some (name, .comeBack)) :
    Along r.rest ((runWord (.builtin policy) word).run r).2.rest ∧
      ((runWord (.builtin policy) word).run r).1 ≠ .jumped := by
  rw [runWord_run]
  split
  · exact ⟨rest_passOver _ r ▸ dropLine_along r.rest, passOver_noJump _ r⟩
  rename_i name command hlookup
  split
  · exact ⟨rest_passOver _ r ▸ dropLine_along r.rest, passOver_noJump _ r⟩
  obtain ⟨hgoto, hstop, hbranch⟩ := CommandTable.builtin_stays hlookup hword
  have hjump : ∀ call, command ≠ .jump call := by
    rintro (_ | _) rfl
    · exact hgoto rfl
    · exact hcall name hlookup
  have hreturn : command ≠ .comeBack := by
    rintro rfl
    exact hback name hlookup
  exact ⟨along_of_changes (r := { r with command := word }) (execute_gradual hjump hreturn hbranch _),
    execute_noJump hjump hstop _⟩

/-- A word in quotes is no command, and the rest of its line is passed over. -/
theorem runWord_quoted (hword : word.toList.head? = some '"') :
    ((runWord (.builtin policy) word).run r).2.rest = dropLine r.rest ∧
      ((runWord (.builtin policy) word).run r).1 ≠ .jumped := by
  rw [runWord_run, CommandTable.builtin_quoted hword]
  exact ⟨rest_passOver _ r, passOver_noJump _ r⟩

end

end Exec

namespace Loop

variable {table : CommandTable} {policy : WrongTypePolicy} {saved : List Char}
  {l m next entered last start : Loop} {word : String} {rest : List Char} {outcome : Outcome} {place : Text.Place}

/-- The loop is on the saved line and outside of all calls. It has opened no block and ends with the line. -/
structure OnSaved (saved : List Char) (l : Loop) : Prop where
  mode : l.mode = .line
  depth : l.depth = 0
  noCall : l.run.callDepth = 0
  along : Along saved l.run.rest

namespace OnSaved

theorem ended (h : OnSaved saved l) (hend : atLineEnd l.run.rest) : l.turn = .ended l.run.rest :=
  if_pos ⟨h.mode, Int.le_of_eq h.depth, h.noCall, hend⟩

/-- A turn that goes on finds a word on the line. -/
theorem exists_token (h : OnSaved saved l) (hgoes : ∀ rest, l.turn ≠ .ended rest) :
    ∃ token, nextToken l.run.rest = some token := by
  cases htoken : nextToken l.run.rest with
  | some token => exact ⟨token, rfl⟩
  | none => exact absurd (h.ended (by rw [atLineEnd, htoken]; rfl)) (hgoes _)

theorem met (h : OnSaved saved l) (hmet : l.turn = .met word rest) :
    OnLine saved (dropFiller false l.run.rest) ∧ OnLine saved rest := by
  obtain ⟨token, htoken⟩ := h.exists_token (by simp [hmet])
  obtain ⟨hstart, hrest⟩ := command_onLine htoken
  rw [(eq_of_met hmet).1] at hrest
  exact ⟨h.along.onLine.trans hstart, h.along.onLine.trans hrest⟩

variable (hs : Straight saved)
include hs

/-- What is passed over on the line is a label. -/
theorem passed (h : OnSaved saved l) (hpassed : l.turn = .passed next) : OnSaved saved next := by
  obtain ⟨token, htoken⟩ := h.exists_token (by simp [hpassed])
  obtain ⟨⟨hopen, hclose⟩, hword⟩ := (hs.along h.along).readCommand htoken
  obtain ⟨hnext, ⟨hbrace, -⟩ | ⟨hbrace, -⟩ | ⟨hlabel, hdepth⟩⟩ := cases_of_passed hpassed
  · exact absurd hbrace hopen
  · exact absurd hbrace hclose
  · rcases hword with ⟨hon, -⟩ | hquoted
    · rw [hnext]
      exact ⟨h.mode, hdepth.trans h.depth, h.noCall, h.along.trans ((l.run.rest_readTo _).symm ▸ hon)⟩
    · -- a label begins with another mark than a quote
      obtain ⟨more, hmore⟩ := List.isPrefixOf_iff_prefix.1 hlabel
      rw [← hmore] at hquoted
      cases hquoted

/-- A command on the line is carried out within the line, if it is no call and no return. -/
theorem carried (h : OnSaved saved l) (hmet : l.turn = .met word rest)
    (hcarry : l.carryOut (.builtin policy) word rest = (outcome, next))
    (hcall : ∀ name, (CommandTable.builtin policy).lookup word ≠ some (name, .jump true))
    (hback : ∀ name, (CommandTable.builtin policy).lookup word ≠ some (name, .comeBack)) :
    Along saved next.run.rest ∧ outcome ≠ .jumped := by
  obtain ⟨token, htoken⟩ := h.exists_token (by simp [hmet])
  obtain ⟨-, hword⟩ := (hs.along h.along).readCommand htoken
  obtain ⟨-, hrest⟩ := command_onLine htoken
  rw [(eq_of_met hmet).1] at hword hrest
  have houtcome : ((Exec.runWord (.builtin policy) word).run (l.run.readTo rest)).1 = outcome := by
    rw [← carryOut_outcome, hcarry]
  have hnext : ((Exec.runWord (.builtin policy) word).run (l.run.readTo rest)).2 = next.run := by
    rw [← carryOut_run, hcarry]
  rw [← houtcome, ← hnext]
  rcases hword with ⟨hon, haway⟩ | hquoted
  · obtain ⟨hrun, hjump⟩ := Exec.runWord_along (r := l.run.readTo rest) haway hcall hback
    rw [Run.rest_readTo] at hrun
    exact ⟨h.along.trans (hon.trans hrun), hjump⟩
  · obtain ⟨hrun, hjump⟩ := @Exec.runWord_quoted policy word (l.run.readTo rest) hquoted
    rw [hrun, Run.rest_readTo]
    exact ⟨h.along.trans (.of_none (hrest.trans (dropLine_onLine rest)) (nextToken_dropLine rest)), hjump⟩

theorem step (h : OnSaved saved l) (hstep : Step (.builtin policy) l next)
    (hcall : ∀ place, ¬Calls (.builtin policy) l place next) (hreturn : ¬Returns (.builtin policy) l next) :
    OnSaved saved next := by
  have hsame := hstep.sameCalls hcall hreturn
  cases hstep with
  | passed hpassed => exact h.passed hs hpassed
  | @carried word rest outcome hmet hcarry hon =>
    have heffect := effect_of_carryOut hcarry
    have hno : outcome ≠ .abortError := by
      rintro rfl
      cases hon
    -- a call or a return after which the run goes on would be one that is excluded here
    obtain ⟨halong, hjump⟩ := h.carried hs hmet hcarry
      (fun name hlookup => hcall _ ⟨word, rest, name, hmet, hlookup, (heffect.of_call hlookup hno).1 ▸ hcarry, rfl⟩)
      (fun name hlookup => hreturn ⟨word, rest, name, hmet, hlookup, (heffect.of_return hlookup hno).1 ▸ hcarry⟩)
    have hdeep : next.run.callDepth = l.run.callDepth := congrArg CallStack.depth hsame.calls
    have hsettled := settled_of_carryOut hcarry
    rw [hdeep, settleDepth_self] at hsettled
    exact ⟨(mode_of_carryOut hcarry (.inl hjump)).trans h.mode, (Prod.ext_iff.1 hsettled).1.trans h.depth,
      hdeep.trans h.noCall, halong⟩

/-- A call comes back to the line, behind the label that it has read. -/
theorem back (h : OnSaved saved l) (hcall : Calls (.builtin policy) l place entered)
    (hinner : Balanced (.builtin policy) entered last) (hreturn : Returns (.builtin policy) last next) :
    OnSaved saved next := by
  have hback := hreturn.back hcall hinner
  -- the two stacks say nothing about the mode, which jumps in the subroutine could have changed
  have hmode : next.mode = l.mode :=
    (hreturn.mode.trans (hinner.mode hcall.callDepth_ne_zero)).trans hcall.mode
  obtain ⟨word, rest, name, hmet, hlookup, -, rfl⟩ := hcall
  obtain ⟨token, htoken⟩ := h.exists_token (by simp [hmet])
  obtain ⟨-, ⟨hon, -⟩ | hquoted⟩ := (hs.along h.along).readCommand htoken
  · rw [(eq_of_met hmet).1] at hon
    have hlabel : Along rest next.run.rest := by
      have hread : Along (l.run.readTo rest).rest (Exec.readLabel word (l.run.readTo rest)).2.rest :=
        along_of_changes (r := { l.run.readTo rest with command := word }) (Exec.readWord_gradual _)
      rw [Run.rest_readTo] at hread
      rw [Run.rest, hback.place]
      exact hread
    exact ⟨hmode.trans h.mode, hback.depth.trans h.depth, (congrArg CallStack.depth hback.calls).trans h.noCall,
      h.along.trans (hon.trans hlabel)⟩
  · -- what stands in quotes is no command, so it has called nothing
    rw [(eq_of_met hmet).1] at hquoted
    cases (CommandTable.builtin_quoted hquoted).symm.trans hlookup

/-- Turns that leave no call open end on the line they began on. -/
theorem balanced (h : OnSaved saved l) (hturns : Balanced (.builtin policy) l m) : OnSaved saved m := by
  induction hturns with
  | refl => exact h
  | plain _ hstep hcall hreturn ih => exact (ih h).step hs hstep hcall hreturn
  | nested _ hcall hinner hreturn ih => exact (ih h).back hs hcall hinner hreturn

end OnSaved

end Loop

/-- The text of the script from the statement of the timer on. -/
def Timer.saved (t : Timer) : List Char := (t.script.placeAt t.resumeAt).rest

namespace Session

variable {s : Session} {t : Timer} {i : Instance} {policy : WrongTypePolicy}

def firing (s : Session) (t : Timer) (i : Instance) : Loop where
  run := s.startRun t.owner i.state t.script t.resumeAt []
  mode := .line

theorem fire_eq_finish (hfound : s.engine.instance? t.owner = some i) :
    s.fire t = s.finishRun t.owner ((s.firing t i).finish s.engine.commands s.engine.config.maxSteps
      s.engine.config.maxSteps).2 := by
  rw [fire, hfound]
  rfl

theorem onSaved_firing (s : Session) (t : Timer) (i : Instance) : (s.firing t i).OnSaved t.saved :=
  ⟨rfl, rfl, rfl, .refl _⟩

/-- A timer that runs stays on its saved line, if that has no braces and none of the words that lead away
from it. Outside of the subroutines that are called every command begins on the line, and at the end of the
line the run is over. -/
theorem fire_stays (hcommands : s.engine.commands = .builtin policy)
    (hfound : s.engine.instance? t.owner = some i) (hline : Straight t.saved) :
    s.fire t = s.finishRun t.owner ((s.firing t i).finish s.engine.commands s.engine.config.maxSteps
        s.engine.config.maxSteps).2 ∧
      ∀ l, Loop.Reaches s.engine.commands (s.firing t i) l → l.run.callDepth = 0 →
        (∀ word rest, l.turn = .met word rest → OnLine t.saved (dropFiller false l.run.rest) ∧ OnLine t.saved rest) ∧
        (atLineEnd l.run.rest → l.turn = .ended l.run.rest ∧
          ∀ limit left, l.finish s.engine.commands limit left = (.success, l.run.readTo l.run.rest)) := by
  refine ⟨fire_eq_finish hfound, fun l hreaches hempty => ?_⟩
  rw [hcommands] at hreaches ⊢
  have hsaved : l.OnSaved t.saved := by
    cases Loop.Within.of_reaches hreaches rfl with
    | outside hturns => exact (onSaved_firing s t i).balanced hline hturns
    | inside _ hcall hturns =>
      -- a call is still open
      refine absurd hempty ?_
      rw [Run.callDepth, hturns.sameCalls.calls]
      exact hcall.callDepth_ne_zero
  refine ⟨fun word rest hmet => hsaved.met hmet, fun hend => ⟨hsaved.ended hend, fun limit left => ?_⟩⟩
  rw [Loop.finish_eq, hsaved.ended hend]

end Session

/-- A script whose timer calls a subroutine that opens a block and does not close it. -/
def ringing : Script := .ofText "ringing" "timer 0 1 gosub bells\nrefuse\n>>bells \x7b return\n"

def ringer : Instance := { script := ringing, state := .fresh 0 }

def toll : Timer where
  name := "001"
  script := ringing
  owner := some 1
  times := 0
  period := 1000
  resumeAt := 9
  started := 0
  idleOnly := false

def belfry : Session := { engine := { Engine.new {} 0 with instances := Dict.empty.set 1 ringer } }

theorem belfry_commands : belfry.engine.commands = .builtin (.ofLegacy true) := by
  simp only [belfry, Engine.new]

theorem toll_straight : Straight toll.saved where
  clear := by
    unfold ClearLine
    decide +kernel
  words := by
    have hwords : (lineWords toll.saved).1 = ["gosub".toList, "bells".toList] := by decide +kernel
    have hlower : ∀ word ∈ (lineWords toll.saved).1, ∀ c ∈ word, Text.IsLower c := by
      rw [hwords]
      decide
    intro word hword
    rw [Text.lowercase_of_isLower (by simpa using hlower word hword)]
    revert word
    rw [hwords]
    decide

namespace Loop

def tolling : Loop := belfry.firing toll ringer

def bellsRest : List Char := ' ' :: "bells\nrefuse\n>>bells \x7b return\n".toList

theorem gosub_lookup : belfry.engine.commands.lookup "gosub" = some ("gosub", .jump true) := by
  rw [belfry_commands]
  exact CommandTable.builtin_knows _ _ _ (by decide)

theorem tolling_met : tolling.turn = .met "gosub" bellsRest := by
  have hrest : tolling.run.rest = ' ' :: ("gosub".toList ++ bellsRest) := by decide +kernel
  have hblank : ∀ cs, readCommand (' ' :: cs) = readCommand cs := fun _ => rfl
  have hstop : StopsWord bellsRest := by
    rintro c ⟨⟩
    decide
  have hread : readCommand tolling.run.rest = ("gosub", bellsRest) := by
    rw [hrest, hblank, readCommand_keyword (by decide) hstop]
    rfl
  exact met_of_read hread (by decide +kernel) fun h => absurd h.2.2.2 (by decide +kernel)

/-- The run is led into the subroutine. -/
theorem tolling_jumps :
    ((Exec.runWord belfry.engine.commands "gosub").run (tolling.run.readTo bellsRest)).1 = .jumped ∧
      ((Exec.runWord belfry.engine.commands "gosub").run (tolling.run.readTo bellsRest)).2.rest =
        " \x7b return\n".toList := by
  rw [Exec.runWord_of_lookup gosub_lookup rfl]
  decide +kernel

theorem tolling_calls : ∃ pealing, Calls belfry.engine.commands tolling
    (Exec.readLabel "gosub" (tolling.run.readTo bellsRest)).2.place pealing ∧
      pealing.run.rest = " \x7b return\n".toList := by
  obtain ⟨hjumped, hrest⟩ := tolling_jumps
  rw [← carryOut_outcome] at hjumped
  rw [← carryOut_run] at hrest
  have hcarry := (Prod.eta _).symm.trans (congrArg (Prod.mk · _) hjumped)
  exact ⟨_, ⟨"gosub", bellsRest, "gosub", tolling_met, gosub_lookup, hcarry, rfl⟩, hrest⟩

/-- The subroutine opens a block and comes back. -/
theorem bells_return {l pealing : Loop} {place : Text.Place} (hcall : Calls belfry.engine.commands l place pealing)
    (hrest : pealing.run.rest = " \x7b return\n".toList) :
    ∃ last, Reaches belfry.engine.commands pealing last ∧ Back l place last := by
  have hdeep := hcall.callDepth_ne_zero
  have hread : readCommand pealing.run.rest = ("\x7b", " return\n".toList) := by
    rw [hrest]
    decide +kernel
  have hopens := turn_opened hread fun h => hdeep h.2.2.1
  generalize hopened : ({ pealing with run := _, depth := _ } : Loop) = opened at hopens
  have hopenedRest : opened.run.rest = " return\n".toList := by
    rw [← hopened, Run.rest_readTo]
  have hopenedDeep : opened.run.callDepth ≠ 0 := by
    rw [← hopened, Run.callDepth_readTo]
    exact hdeep
  have hmet : opened.turn = .met "return" "\n".toList := by
    refine met_of_read ?_ (by decide +kernel) fun h => hopenedDeep h.2.2.1
    rw [hopenedRest]
    decide +kernel
  have hlookup : belfry.engine.commands.lookup "return" = some ("return", .comeBack) := by
    rw [belfry_commands]
    exact CommandTable.builtin_knows _ _ _ (by decide)
  have hreturns := returns_of_lookup hmet hlookup hopenedDeep
  have hpassed : ∀ word rest, pealing.turn ≠ .met word rest := by simp [hopens]
  refine ⟨_, (ReflTransGen.single (.passed hopens)).tail hreturns.step, hreturns.back hcall ?_⟩
  refine .plain (.refl _) (.passed hopens) ?_ ?_
  · rintro place ⟨word, rest, name, hmet, -⟩
    exact hpassed word rest hmet
  · rintro ⟨word, rest, name, hmet, -⟩
    exact hpassed word rest hmet

end Loop

/-- The subroutine leaves its block open, and yet the run ends where the line of the timer does. -/
theorem fire_stays_belfry :
    Straight toll.saved ∧ ∃ l, Loop.Reaches belfry.engine.commands (belfry.firing toll ringer) l ∧
      l.turn = .ended "\nrefuse\n>>bells \x7b return\n".toList := by
  obtain ⟨-, hstays⟩ := Session.fire_stays belfry_commands (i := ringer) rfl toll_straight
  obtain ⟨pealing, hcall, hpealing⟩ := Loop.tolling_calls
  obtain ⟨l, hreturns, hback⟩ := Loop.bells_return hcall hpealing
  have hreaches := (ReflTransGen.single hcall.step).trans hreturns
  have hempty : l.run.callDepth = 0 := by
    rw [Run.callDepth, hback.calls]
    rfl
  have hrest : l.run.rest = "\nrefuse\n>>bells \x7b return\n".toList := by
    rw [Run.rest, hback.place]
    decide +kernel
  obtain ⟨-, hends⟩ := hstays l hreaches hempty
  obtain ⟨hturn, -⟩ := hends (by rw [hrest]; decide +kernel)
  exact ⟨toll_straight, l, hreaches, hrest ▸ hturn⟩

end EntityScript
