import EntityScript.Proofs.Effects

/-! The loop of a run, one word at a time. A turn ends the run, passes over a brace
or a label, or meets a command, which is then carried out. `finish_eq` says that a
run is its turns one after another, so what holds of every turn holds of runs. -/

namespace EntityScript

open Reading Relation

/-- A run between two words, with what its loop keeps besides. -/
structure Loop where
  run : Run
  mode : Mode
  /-- The depth of braces, without bounds as in `Next.of`. -/
  depth : Int := 0
  /-- The depths saved for the calls that are open. -/
  saved : List Int := []

inductive Turn
  | ended (rest : List Char)
  | passed (next : Loop)
  | met (word : String) (rest : List Char)

namespace Next

/-- The text that is left before a command is carried out, or in the end. -/
def rest : Next → List Char
  | finished rest => rest
  | command _ rest _ => rest

theorem rest_suffix (mode : Mode) (inCall : Bool) (depth : Int) (cs : List Char) :
    (Next.of mode inCall depth cs).rest <:+ cs := by
  fun_induction Next.of mode inCall depth cs with
  | case1 => exact List.suffix_refl _
  | case4 => rename_i ih; exact ih.trans (readCommand_suffix _)
  | case6 => rename_i ih; exact ih.trans (readCommand_suffix _)
  | case7 => rename_i ih; exact ih.trans (readCommand_suffix _)
  | _ => exact readCommand_suffix _

end Next

/-- The word is met as a command: it neither ends the run nor is passed over. -/
def NamesCommand (word : String) : Prop :=
  word ≠ "" ∧ word ≠ "on" ∧ word ≠ "\x7b" ∧ word ≠ "\x7d" ∧ ¬isLabelWord word

instance (word : String) : Decidable (NamesCommand word) := by unfold NamesCommand; infer_instance

namespace Loop

/-- A line is over at its end, unless a block or a call was begun on it. -/
def LineOver (l : Loop) : Prop :=
  l.mode = .line ∧ l.depth ≤ 0 ∧ l.run.callDepth = 0 ∧ atLineEnd l.run.rest

instance (l : Loop) : Decidable l.LineOver := by unfold LineOver; infer_instance

def turn (l : Loop) : Turn :=
  let word := (readCommand l.run.rest).1
  let rest := (readCommand l.run.rest).2
  if l.LineOver then .ended l.run.rest
  else if word = "" then .ended rest
  else if word = "on" then .ended rest
  else if word = "\x7b" then .passed { l with run := l.run.readTo rest, depth := l.depth + 1 }
  else if word = "\x7d" then
    if l.depth - 1 ≤ 0 ∧ l.mode = .block then .ended rest
    else .passed { l with run := l.run.readTo rest, depth := l.depth - 1 }
  else if isLabelWord word then .passed { l with run := l.run.readTo rest }
  else .met word rest

def carryOut (table : CommandTable) (l : Loop) (word : String) (rest : List Char) :
    Outcome × Loop :=
  let (outcome, run) := (Exec.runWord table word).run (l.run.readTo rest)
  let (depth, saved) := Exec.settleDepth l.run.callDepth run.callDepth l.depth l.saved
  let mode := if outcome = .jumped ∧ l.mode = .line ∧ run.callDepth = 0 then .block else l.mode
  (outcome, { run, mode, depth, saved })

/-- Goes on to the end of the run, with `left` steps left of `limit`. -/
def finish (table : CommandTable) (limit left : Nat) (l : Loop) : Outcome × Run :=
  (Exec.runSteps table limit left l.mode l.depth l.saved).run l.run

/-- The next word to meet, as the turns of the loop find it. -/
theorem next_eq (l : Loop) :
    Next.of l.mode (l.run.callDepth != 0) l.depth l.run.rest =
      match l.turn with
      | .ended rest => .finished rest
      | .passed next => Next.of next.mode (next.run.callDepth != 0) next.depth next.run.rest
      | .met word rest => .command word rest l.depth := by
  have hline : (l.mode = .line ∧ l.depth ≤ 0 ∧ (!(l.run.callDepth != 0)) = true ∧
      atLineEnd l.run.rest = true) ↔ l.LineOver := by
    simp [LineOver]
  rw [Next.of, turn]
  simp only [hline]
  by_cases hover : l.LineOver
  · simp only [hover, if_true]
  by_cases hend : (readCommand l.run.rest).1 = ""
  · simp only [hover, hend, if_true, if_false, dite_true]
  by_cases hon : (readCommand l.run.rest).1 = "on"
  · simp [hover, hon]
  by_cases hopen : (readCommand l.run.rest).1 = "\x7b"
  · simp [hover, hopen]
  by_cases hclose : (readCommand l.run.rest).1 = "\x7d"
  · by_cases hblock : l.depth - 1 ≤ 0 ∧ l.mode = .block
    · simp [hover, hclose, hblock]
    · simp only [hover, hclose, hblock, if_true, if_false, String.reduceEq, dite_false, Run.rest_readTo]
      rfl
  by_cases hlabel : isLabelWord (readCommand l.run.rest).1
  · simp [hover, hend, hon, hopen, hclose, hlabel]
  · simp [hover, hend, hon, hopen, hclose, hlabel]

theorem finish_eq_next (table : CommandTable) (limit left : Nat) (l : Loop) :
    l.finish table limit left =
      match Next.of l.mode (l.run.callDepth != 0) l.depth l.run.rest with
      | .finished rest => (.success, l.run.readTo rest)
      | .command word rest depth =>
        match left with
        | 0 => (Exec.abort (.outOfSteps limit)).run (l.run.readTo rest)
        | left + 1 =>
          let (outcome, next) := { l with depth }.carryOut table word rest
          if outcome.isAbort then (outcome, next.run) else next.finish table limit left := by
  rw [finish, Exec.runSteps.eq_def]
  change StateT.run (match Next.of l.mode (l.run.callDepth != 0) l.depth l.run.rest with
    | .finished rest => _
    | .command word rest depth => _) l.run = _
  cases Next.of l.mode (l.run.callDepth != 0) l.depth l.run.rest with
  | finished rest => rfl
  | command word rest depth =>
    cases left with
    | zero => rfl
    | succ left =>
      dsimp only
      rw [StateT.run_bind]
      change StateT.run (Exec.runWord table word >>= _) (l.run.readTo rest) = _
      rw [StateT.run_bind, carryOut]
      generalize (Exec.runWord table word).run (l.run.readTo rest) = result
      obtain ⟨outcome, run⟩ := result
      change StateT.run (if _ then _ else if _ then _ else _) run = _
      dsimp only
      split
      · rfl
      · simp only [finish]
        split <;> rfl

/-- What is passed over is a brace, which counts, or a label. -/
theorem cases_of_passed {l next : Loop} (h : l.turn = .passed next) :
    next = { l with run := l.run.readTo (readCommand l.run.rest).2, depth := next.depth } ∧
      ((readCommand l.run.rest).1 = "\x7b" ∧ next.depth = l.depth + 1 ∨
        (readCommand l.run.rest).1 = "\x7d" ∧ next.depth = l.depth - 1 ∧
          ¬(l.depth - 1 ≤ 0 ∧ l.mode = .block) ∨
        isLabelWord (readCommand l.run.rest).1 ∧ next.depth = l.depth) := by
  unfold turn at h
  dsimp only at h
  split_ifs at h with hover hend hon hopen hclose hblock hlabel <;> cases h
  · exact ⟨rfl, .inl ⟨hopen, rfl⟩⟩
  · exact ⟨rfl, .inr (.inl ⟨hclose, rfl, hblock⟩)⟩
  · exact ⟨rfl, .inr (.inr ⟨hlabel, rfl⟩)⟩

theorem eq_of_passed {l next : Loop} (h : l.turn = .passed next) :
    ∃ depth, next = { l with run := l.run.readTo (readCommand l.run.rest).2, depth } :=
  ⟨next.depth, (cases_of_passed h).1⟩

/-- A run is its turns, one after another. -/
theorem finish_eq (table : CommandTable) (limit left : Nat) (l : Loop) :
    l.finish table limit left =
      match l.turn with
      | .ended rest => (.success, l.run.readTo rest)
      | .passed next => next.finish table limit left
      | .met word rest =>
        match left with
        | 0 => (Exec.abort (.outOfSteps limit)).run (l.run.readTo rest)
        | left + 1 =>
          let (outcome, next) := l.carryOut table word rest
          if outcome.isAbort then (outcome, next.run) else next.finish table limit left := by
  rw [finish_eq_next, next_eq]
  cases hturn : l.turn with
  | ended rest => rfl
  | met word rest => rfl
  | passed next =>
    dsimp only
    rw [finish_eq_next]
    obtain ⟨depth, rfl⟩ := eq_of_passed hturn
    have hmid := readCommand_suffix l.run.rest
    have hsuffix := Next.rest_suffix l.mode (l.run.callDepth != 0) depth (readCommand l.run.rest).2
    simp only [Run.rest_readTo, Run.callDepth_readTo]
    generalize Next.of l.mode (l.run.callDepth != 0) depth (readCommand l.run.rest).2 = next at *
    have hread : (l.run.readTo (readCommand l.run.rest).2).readTo next.rest = l.run.readTo next.rest :=
      Run.readTo_readTo hmid hsuffix
    cases next with
    | finished rest =>
      change _ = l.run.readTo rest at hread
      exact congrArg (Prod.mk Outcome.success) hread.symm
    | command word rest d =>
      change (l.run.readTo (readCommand l.run.rest).2).readTo rest = l.run.readTo rest at hread
      cases left with
      | zero => dsimp only; rw [hread]
      | succ left => simp only [carryOut, Run.callDepth_readTo, hread]

/-- A run from its beginning is the loop from its beginning. -/
theorem runAll_eq_finish (table : CommandTable) (maxSteps : Nat) (mode : Mode) (r : Run) :
    (Exec.runAll table maxSteps mode).run r = finish table maxSteps maxSteps { run := r, mode } :=
  rfl

/-- The loop before its first turn. No call is open then. -/
def begin (r : Run) (mode : Mode) : Loop := { run := { r with calls := .empty }, mode }

/-- One turn after which the run goes on. -/
inductive Step (table : CommandTable) : Loop → Loop → Prop
  | passed {l next : Loop} (h : l.turn = .passed next) : Step table l next
  | carried {l next : Loop} {word : String} {rest : List Char} {outcome : Outcome}
    (hmet : l.turn = .met word rest) (h : l.carryOut table word rest = (outcome, next))
    (hon : outcome.isAbort = false) : Step table l next

/-- Turns that a run can take, whatever the limit of its steps. -/
abbrev Reaches (table : CommandTable) : Loop → Loop → Prop := ReflTransGen (Step table)

theorem eq_of_met {l : Loop} {word : String} {rest : List Char} (h : l.turn = .met word rest) :
    readCommand l.run.rest = (word, rest) ∧ NamesCommand word ∧ ¬l.LineOver := by
  unfold turn at h
  dsimp only at h
  split_ifs at h with hover hend hon hopen hclose _ hlabel
  cases h
  exact ⟨rfl, ⟨hend, hon, hopen, hclose, hlabel⟩, hover⟩

theorem met_of_read {l : Loop} {word : String} {rest : List Char}
    (hread : readCommand l.run.rest = (word, rest)) (hword : NamesCommand word)
    (hover : ¬l.LineOver) : l.turn = .met word rest := by
  obtain ⟨hend, hon, hopen, hclose, hlabel⟩ := hword
  unfold turn
  rw [hread]
  dsimp only
  rw [if_neg hover, if_neg hend, if_neg hon, if_neg hopen, if_neg hclose, if_neg hlabel]

theorem run_of_passed {l next : Loop} (h : l.turn = .passed next) :
    next.run = l.run.readTo (readCommand l.run.rest).2 := by
  obtain ⟨depth, rfl⟩ := eq_of_passed h
  rfl

section

variable {table : CommandTable} {l next : Loop} {word : String} {rest : List Char} {outcome : Outcome}

/-- A command that is carried out does one of the things that `Exec.Effect` lists. -/
theorem carryOut_effect (table : CommandTable) (l : Loop) (word : String) (rest : List Char) :
    Exec.Effect table word (l.run.readTo rest) (l.carryOut table word rest).1
      (l.carryOut table word rest).2.run :=
  Exec.runWord_effect table word (l.run.readTo rest)

theorem carryOut_run (table : CommandTable) (l : Loop) (word : String) (rest : List Char) :
    (l.carryOut table word rest).2.run = ((Exec.runWord table word).run (l.run.readTo rest)).2 := rfl

theorem carryOut_outcome (table : CommandTable) (l : Loop) (word : String) (rest : List Char) :
    (l.carryOut table word rest).1 = ((Exec.runWord table word).run (l.run.readTo rest)).1 := rfl

theorem carryOut_mode (table : CommandTable) (l : Loop) (word : String) (rest : List Char)
    (h : l.mode = .block) : (l.carryOut table word rest).2.mode = .block := by
  change (if _ ∧ l.mode = .line ∧ _ then Mode.block else l.mode) = .block
  rw [h]
  exact ite_self _

/-- Only a jump outside of all calls frees a line from its end. -/
theorem mode_of_carryOut (h : l.carryOut table word rest = (outcome, next))
    (hbound : outcome ≠ .jumped ∨ next.run.callDepth ≠ 0) : next.mode = l.mode := by
  cases h
  exact if_neg fun hfree => hbound.elim (fun hjump => hjump hfree.1) fun hdeep => hdeep hfree.2.2

theorem carryOut_settled (table : CommandTable) (l : Loop) (word : String) (rest : List Char) :
    ((l.carryOut table word rest).2.depth, (l.carryOut table word rest).2.saved) =
      Exec.settleDepth l.run.callDepth (l.carryOut table word rest).2.run.callDepth l.depth l.saved :=
  rfl

theorem effect_of_carryOut (h : l.carryOut table word rest = (outcome, next)) :
    Exec.Effect table word (l.run.readTo rest) outcome next.run := by
  have heffect := carryOut_effect table l word rest
  rw [h] at heffect
  exact heffect

theorem settled_of_carryOut (h : l.carryOut table word rest = (outcome, next)) :
    (next.depth, next.saved) =
      Exec.settleDepth l.run.callDepth next.run.callDepth l.depth l.saved := by
  have hsettled := carryOut_settled table l word rest
  rw [h] at hsettled
  exact hsettled

end

end Loop

end EntityScript
