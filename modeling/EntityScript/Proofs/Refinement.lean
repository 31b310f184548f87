import EntityScript.Proofs.Actions
import EntityScript.Proofs.Turns
import EntityScript.Session

/-! The loop refines the trees. Wherever a run stands before a statement it takes the
steps that the tree takes and comes to stand behind the statement, as deep in braces
as before, with the states that `walk` gives; or it stops where `walk` stops. Blanks
apart, where it stands is all that has to be known of the text. -/

namespace EntityScript

open Reading

namespace Loop

/-- So many steps, and the turns between them that cost none. -/
inductive Takes (table : CommandTable) : Nat → Loop → Loop → Prop
  | refl (l : Loop) : Takes table 0 l l
  | passed {n : Nat} {l m next : Loop} (h : l.turn = .passed m) (hon : Takes table n m next) :
    Takes table n l next
  | carried {n : Nat} {l m next : Loop} {word : String} {rest : List Char} {outcome : Outcome}
    (h : l.turn = .met word rest) (hcarry : l.carryOut table word rest = (outcome, m))
    (hgo : outcome.isAbort = false) (hon : Takes table n m next) : Takes table (n + 1) l next

namespace Takes

variable {table : CommandTable} {n k limit left : Nat} {l m next : Loop}

theorem trans (h₁ : Takes table n l m) (h₂ : Takes table k m next) : Takes table (n + k) l next := by
  induction h₁ with
  | refl => simpa using h₂
  | passed h _ ih => exact .passed h (ih h₂)
  | @carried n _ _ _ _ _ _ h hcarry hgo _ ih =>
    rw [Nat.add_right_comm]
    exact .carried h hcarry hgo (ih h₂)

theorem finish_eq (h : Takes table n l m) (hn : n ≤ left) :
    l.finish table limit left = m.finish table limit (left - n) := by
  induction h generalizing left with
  | refl => rfl
  | passed h _ ih => rw [Loop.finish_eq, h]; exact ih hn
  | @carried n _ _ _ _ _ _ h hcarry hgo _ ih =>
    obtain ⟨left, rfl⟩ := Nat.exists_eq_add_of_le' (Nat.le_trans (Nat.le_add_left 1 n) hn)
    rw [Loop.finish_eq, h]
    simp only [hcarry, hgo]
    rw [Nat.add_sub_add_right]
    exact ih (Nat.le_of_succ_le_succ hn)

/-- With fewer steps the run ends for want of steps. -/
theorem exhausted (h : Takes table n l m) (hn : left < n) :
    (l.finish table limit left).1 = .abortError := by
  induction h generalizing left with
  | refl => exact absurd hn (Nat.not_lt_zero left)
  | passed h _ ih => rw [Loop.finish_eq, h]; exact ih hn
  | carried h hcarry hgo _ ih =>
    rw [Loop.finish_eq, h]
    cases left with
    | zero => rfl
    | succ left =>
      simp only [hcarry, hgo]
      exact ih (Nat.lt_of_succ_lt_succ hn)

end Takes

/-- After so many steps a command stops the run, with the states of `r`. -/
def Stops (table : CommandTable) (n : Nat) (l : Loop) (outcome : Outcome) (r : Run) : Prop :=
  ∃ m word rest next, Takes table n l m ∧ m.turn = .met word rest ∧
    m.carryOut table word rest = (outcome, next) ∧ outcome.isAbort = true ∧ SameScene r next.run

/-- The loop stands before `cs`, blanks apart, in a block that is `depth` deep. -/
structure At (r : Run) (depth : Int) (cs : List Char) (l : Loop) : Prop where
  mode : l.mode = .block
  depth : l.depth = depth
  scene : SameScene r l.run
  ahead : Alike l.run.rest cs

/-- The loop does what the walk has done, and stands before `rest` unless it has stopped. -/
def Goes (table : CommandTable) (w : Walk) (depth : Int) (rest : List Char) (l : Loop) : Prop :=
  match w.stop with
  | none => ∃ m, Takes table w.steps l m ∧ At w.run depth rest m
  | some outcome => ∃ n, w.steps = n + 1 ∧ Stops table n l outcome w.run

variable {table : CommandTable} {policy : WrongTypePolicy} {n : Nat} {depth : Int} {r : Run}
  {cs mid rest : List Char} {l m : Loop} {w : Walk}

theorem At.alike (h : At r depth cs l) (hcs : Alike cs mid) : At r depth mid l :=
  ⟨h.mode, h.depth, h.scene, h.ahead.trans hcs⟩

theorem At.lineOver (h : At r depth cs l) : ¬l.LineOver := by
  intro hover
  rw [LineOver, h.mode] at hover
  exact absurd hover.1 (by decide)

theorem At.met {word : String} (h : At r depth cs l) (hread : readCommand cs = (word, rest))
    (hword : NamesCommand word) : l.turn = .met word rest :=
  met_of_read (h.ahead.readCommand.trans hread) hword h.lineOver

theorem Goes.after (h : Takes table n l m) (hw : Goes table w depth rest m) :
    Goes table (w.after n) depth rest l := by
  rw [Goes] at hw ⊢
  change match w.stop with | none => _ | some outcome => _
  cases hstop : w.stop with
  | none =>
    rw [hstop] at hw
    obtain ⟨next, htakes, hat⟩ := hw
    exact ⟨next, h.trans htakes, hat⟩
  | some outcome =>
    rw [hstop] at hw
    obtain ⟨k, hk, m', word, rest', next, htakes, hturn, hcarry, habort, hscene⟩ := hw
    refine ⟨n + k, ?_, m', word, rest', next, h.trans htakes, hturn, hcarry, habort, hscene⟩
    change n + w.steps = _
    rw [hk]
    exact (Nat.add_assoc n k 1).symm

theorem Goes.andThen {more : Run → Walk} (hw : Goes table w depth mid l)
    (hmore : ∀ m, At w.run depth mid m → Goes table (more w.run) depth rest m) :
    Goes table (w.andThen more) depth rest l := by
  rw [Walk.andThen]
  cases hstop : w.stop with
  | none =>
    rw [Goes, hstop] at hw
    obtain ⟨m, htakes, hat⟩ := hw
    exact (hmore m hat).after htakes
  | some outcome =>
    rw [Goes, hstop] at hw
    rw [if_pos Option.isSome_some, Goes, hstop]
    exact hw

/-- A command whose result is known is carried out, in a block and without a call. -/
theorem carryOut_block {word : String} {result : Outcome × Run} (hmode : l.mode = .block)
    (hrun : (Exec.runWord table word).run (l.run.readTo rest) = result)
    (hcalls : result.2.calls = l.run.calls) :
    l.carryOut table word rest = (result.1, { l with run := result.2 }) := by
  have hdepth : result.2.callDepth = l.run.callDepth := congrArg CallStack.depth hcalls
  have hline : ¬(result.1 = .jumped ∧ l.mode = .line ∧ l.run.callDepth = 0) := by
    intro h
    rw [hmode] at h
    exact absurd h.2.1 (by decide)
  rw [carryOut, hrun]
  dsimp only
  rw [hdepth, if_neg hline]
  simp [Exec.settleDepth]

/-- A command that settles takes one step. -/
theorem At.takes {word : String} {target : Run} {more : List Char} (h : At r depth cs l)
    (hread : readCommand cs = (word, rest)) (hword : NamesCommand word)
    (hdone : Settles (l.run.readTo rest) more none target
      ((Exec.runWord table word).run (l.run.readTo rest))) :
    ∃ m, Takes table 1 l m ∧ At target depth more m := by
  refine ⟨_, .carried (h.met hread hword) (carryOut_block h.mode rfl hdone.calls) hdone.outcome (.refl _),
    h.mode, h.depth, hdone.scene, ?_⟩
  rw [Alike, hdone.rest]

theorem At.stops {word : String} {target : Run} {more : List Char} {outcome : Outcome}
    (h : At r depth cs l) (hread : readCommand cs = (word, rest)) (hword : NamesCommand word)
    (hdone : Settles (l.run.readTo rest) more (some outcome) target
      ((Exec.runWord table word).run (l.run.readTo rest))) (habort : outcome.isAbort = true) :
    Stops table 0 l outcome target := by
  have hcarry := carryOut_block h.mode rfl hdone.calls
  rw [hdone.outcome] at hcarry
  exact ⟨l, word, rest, _, .refl l, h.met hread hword, hcarry, habort, hdone.scene⟩

theorem turn_opened (hread : readCommand l.run.rest = ("\x7b", rest)) (hover : ¬l.LineOver) :
    l.turn = .passed { l with run := l.run.readTo rest, depth := l.depth + 1 } := by
  unfold turn
  rw [hread]
  dsimp only
  rw [if_neg hover, if_neg (by decide), if_neg (by decide), if_pos rfl]

/-- A brace is passed over and counts. -/
theorem At.opened (h : At r depth ('{' :: rest) l) : ∃ m, Takes table 0 l m ∧ At r (depth + 1) rest m := by
  have hread : readCommand l.run.rest = ("\x7b", rest) :=
    h.ahead.readCommand.trans (Tree.readCommand_brace (.inl rfl) rest)
  have hturn := turn_opened hread h.lineOver
  refine ⟨_, .passed hturn (.refl _), h.mode, ?_, h.scene.trans (SameScene.readTo _ _), ?_⟩
  · rw [← h.depth]
  · rw [Alike, Run.rest_readTo]

theorem At.closed (h : At r (depth + 1) ('}' :: rest) l) (hdepth : 1 ≤ depth) :
    ∃ m, Takes table 0 l m ∧ At r depth rest m := by
  have hread : readCommand l.run.rest = ("\x7d", rest) :=
    h.ahead.readCommand.trans (Tree.readCommand_brace (.inr rfl) rest)
  have hinside : ¬(l.depth - 1 ≤ 0 ∧ l.mode = .block) := by
    rw [h.depth]
    omega
  have hturn : l.turn = .passed { l with run := l.run.readTo rest, depth := l.depth - 1 } := by
    unfold turn
    rw [hread]
    dsimp only
    rw [if_neg h.lineOver, if_neg (by decide), if_neg (by decide), if_neg (by decide), if_pos rfl,
      if_neg hinside]
  refine ⟨_, .passed hturn (.refl _), h.mode, ?_, h.scene.trans (SameScene.readTo _ _), ?_⟩
  · change l.depth - 1 = depth
    rw [h.depth]
    omega
  · rw [Alike, Run.rest_readTo]

/-- The closing brace of the handler's own block ends the run. -/
theorem At.ended (h : At r 1 ('}' :: rest) l) : l.turn = .ended rest := by
  have hread : readCommand l.run.rest = ("\x7d", rest) :=
    h.ahead.readCommand.trans (Tree.readCommand_brace (.inr rfl) rest)
  have hinside : l.depth - 1 ≤ 0 ∧ l.mode = .block := by
    rw [h.depth]
    exact ⟨by decide, h.mode⟩
  unfold turn
  rw [hread]
  dsimp only
  rw [if_neg h.lineOver, if_neg (by decide), if_neg (by decide), if_neg (by decide), if_pos rfl,
    if_pos hinside]

theorem Settles.of_scene {more : List Char} {stop : Option Outcome} {target target' : Run}
    {result : Outcome × Run} (h : Settles r more stop target' result) (hscene : SameScene target target') :
    Settles r more stop target result := ⟨h.rest, h.calls, hscene.trans h.scene, h.outcome⟩

theorem Goes.of_passed (h : Takes table 0 l m) (hw : Goes table w depth rest m) :
    Goes table w depth rest l := by
  have hafter : w.after 0 = w := by simp [Walk.after]
  rw [← hafter]
  exact hw.after h

/-- Behind its last statement a block closes. -/
theorem Goes.closed {last : List Filler} (hdepth : 1 ≤ depth)
    (hw : Goes table w (depth + 1) (Filler.text last ++ '}' :: rest) l) : Goes table w depth rest l := by
  rw [Goes] at hw ⊢
  cases hstop : w.stop with
  | none =>
    rw [hstop] at hw
    obtain ⟨m, htakes, hat⟩ := hw
    obtain ⟨next, hclosed, hnext⟩ := (hat.alike (Alike.gap last _)).closed hdepth
    exact ⟨next, htakes.trans hclosed, hnext⟩
  | some outcome =>
    rw [hstop] at hw
    exact hw

theorem elseFollows_written {body : List (Tree Action Condition)} (h : elseFollows rest = false) :
    elseFollows (Tree.written plainWriting body ++ rest) = false := by
  cases body with
  | nil => exact h
  | cons t body =>
    have hlead := (Tree.front_lead (w := plainWriting) t
      (fun ht => Tree.atBreak_ending ht (Tree.written plainWriting body ++ rest))).2
    rw [Tree.written, List.append_assoc, List.append_assoc, elseFollows]
    simpa using hlead

theorem skipGuarded_guarded {t : Tree Action Condition} (b : Blank) (hpaired : t.WellPaired)
    (helse : elseFollows rest = false) :
    skipGuarded (b.char :: (t.front plainWriting ++ (t.ending ++ rest))) = t.ending ++ rest := by
  have hbreak := fun (ht : t.endsLine = true) => Tree.atBreak_ending ht rest
  have hnone : elseFollows (t.ending ++ rest) = false := (Tree.ending_alike t rest).elseFollows.trans helse
  have hskip := Tree.skipStatement_front (w := plainWriting) t hpaired hbreak (fun _ => hnone)
  rw [skipGuarded, Tree.skipStatement_alike t hbreak (Alike.blank b _), hskip]
  simp [hnone]

theorem skipGuarded_choice {t : Tree Action Condition} (b b' : Blank) (last : List Filler)
    (hpaired : t.WellPaired) (hclosed : t.isOpen = false) :
    skipGuarded (b.char :: (t.front plainWriting ++ (t.ending ++ (Filler.text last ++
      (elseWord ++ b'.char :: rest))))) = b'.char :: rest := by
  have hbreak := fun (ht : t.endsLine = true) =>
    Tree.atBreak_ending ht (Filler.text last ++ (elseWord ++ b'.char :: rest))
  have hread := Tree.else_ahead last b' t rest
  have hskip := Tree.skipStatement_front (w := plainWriting) t hpaired hbreak
    (fun h => absurd h (by simp [hclosed]))
  rw [skipGuarded, Tree.skipStatement_alike t hbreak (Alike.blank b _), hskip]
  rw [elseFollows, hread, if_pos (by rfl)]

theorem namesCommand_keyword (a : Action) : NamesCommand (String.ofList a.keyword) := by
  cases a <;> dsimp only [Action.keyword] <;> decide

theorem goes_line (hknows : table.Knows policy) (gap : List Filler) (a : Action)
    (h : At r depth ((Tree.line gap a).front plainWriting ++ ('\n' :: rest)) l) :
    Goes table ((Tree.line gap a).walk policy r) depth rest l := by
  rw [Tree.front_line] at h
  have hat := h.alike (Alike.gap gap _)
  have hbreak : AtBreak ('\n' :: rest) := by
    intro c hc
    cases hc
    rfl
  have hread := a.readCommand_line hbreak
  have hword := namesCommand_keyword a
  have hscene := (h.scene.trans (SameScene.readTo l.run (spaced a.operands ++ '\n' :: rest))).act a
  have hdone := Settles.of_scene (a.runWord_settles hknows (Run.rest_readTo l.run _) hbreak) hscene
  have hstops : ∀ outcome, a.stop? = some outcome → outcome.isAbort = true := by
    intro outcome ho
    cases a <;> cases ho <;> rfl
  rw [Tree.walk, Goes]
  dsimp only
  cases hstop : a.stop? with
  | none =>
    rw [hstop] at hdone
    obtain ⟨m, htakes, hm⟩ := hat.takes hread hword hdone
    exact ⟨m, htakes, hm.alike (Alike.blank ⟨'\n', .inl rfl⟩ rest)⟩
  | some outcome =>
    rw [hstop] at hdone
    exact ⟨0, rfl, hat.stops hread hword hdone (hstops outcome hstop)⟩

/-- The comparison of an `if` takes a step, and leads to the statement that is to be carried out. -/
theorem At.compares (hknows : table.Knows policy) (c : Condition) (b : Blank)
    (h : At r depth (ifWord ++ (c.chars ++ b.char :: rest)) l) :
    ∃ m, Takes table 1 l m ∧
      At r depth (if c.holds policy r then rest else skipGuarded (b.char :: rest)) m := by
  have hread : readCommand (ifWord ++ (c.chars ++ b.char :: rest)) = ("if", c.chars ++ b.char :: rest) :=
    Tree.readCommand_if (w := plainWriting) c (b.char :: rest)
  have hscene := h.scene.trans (SameScene.readTo l.run (c.chars ++ b.char :: rest))
  have hdone := Settles.of_scene
    (Exec.runIf_settles hknows c (Run.rest_readTo l.run _) (b.stopsToken rest)) hscene
  rw [hscene.holds policy c] at hdone
  obtain ⟨m, htakes, hm⟩ := h.takes hread (by decide) hdone
  refine ⟨m, htakes, ?_⟩
  cases hholds : c.holds policy r with
  | true =>
    rw [hholds, if_pos rfl] at hm
    rw [if_pos rfl]
    exact hm.alike (Alike.blank b rest)
  | false =>
    rw [hholds, if_neg Bool.false_ne_true] at hm
    rw [if_neg Bool.false_ne_true]
    exact hm

/-- An `else` takes a step and is passed over with its statement. -/
theorem At.passesElse (hknows : table.Knows policy) (last : List Filler) (b : Blank)
    {other : Tree Action Condition} (hpaired : other.WellPaired)
    (helse : other.isOpen = true → elseFollows rest = false)
    (h : At r depth (Filler.text last ++ (elseWord ++ b.char ::
      (other.front plainWriting ++ (other.ending ++ rest)))) l) :
    ∃ m, Takes table 1 l m ∧ At r depth rest m := by
  have hbreak := fun (ht : other.endsLine = true) => Tree.atBreak_ending ht rest
  have hskip := Tree.skipStatement_front (w := plainWriting) other hpaired hbreak
    (fun ho => (Tree.ending_alike other rest).elseFollows.trans (helse ho))
  have hat := h.alike (Alike.gap last _)
  have hread := Tree.readCommand_else b (other.front plainWriting ++ (other.ending ++ rest))
  have hdone := Settles.of_scene (Exec.runElse_settles hknows)
    (h.scene.trans (SameScene.readTo l.run (b.char :: (other.front plainWriting ++ (other.ending ++ rest)))))
  rw [Run.rest_readTo, Tree.skipStatement_alike other hbreak (Alike.blank b _), hskip] at hdone
  obtain ⟨m, htakes, hm⟩ := hat.takes hread (by decide) hdone
  exact ⟨m, htakes, hm.alike (Tree.ending_alike other rest)⟩

mutual

/-- From before a statement to behind it, the loop does what the tree means. -/
theorem goes_front (hknows : table.Knows policy) : (t : Tree Action Condition) → t.WellPaired →
    {r : Run} → {depth : Int} → {rest : List Char} → {l : Loop} → 1 ≤ depth →
    (t.isOpen = true → elseFollows rest = false) →
    At r depth (t.front plainWriting ++ (t.ending ++ rest)) l → Goes table (t.walk policy r) depth rest l
  | .line gap a, _, r, depth, rest, l, _, _, h => goes_line hknows gap a h
  | .block gap body last, hpaired, r, depth, rest, l, hdepth, _, h => by
    rw [Tree.front_block] at h
    obtain ⟨m, hopened, hm⟩ := (h.alike (Alike.gap gap _)).opened
    have hlast : elseFollows (Filler.text last ++ '}' :: rest) = false := by
      rw [(Alike.gap last _).elseFollows, elseFollows, Tree.readCommand_brace (.inr rfl)]
      rfl
    have hbody := goes_written hknows body hpaired (by omega) hlast hm
    rw [Tree.walk]
    exact (hbody.closed hdepth).of_passed hopened
  | .guarded gap c b branch, hpaired, r, depth, rest, l, hdepth, helse, h => by
    rw [Tree.front_guarded] at h
    obtain ⟨m, htakes, hm⟩ := (h.alike (Alike.gap gap _)).compares hknows c b
    rw [Tree.walk]
    cases hholds : c.holds policy r with
    | true =>
      rw [hholds, if_pos rfl] at hm
      rw [if_pos rfl]
      exact (goes_front hknows branch hpaired hdepth (fun _ => helse rfl) hm).after htakes
    | false =>
      rw [hholds, if_neg Bool.false_ne_true] at hm
      rw [if_neg Bool.false_ne_true]
      have hskip := skipGuarded_guarded (t := branch) b hpaired (helse rfl)
      change At r depth (skipGuarded (b.char :: (branch.front plainWriting ++ (branch.ending ++ rest)))) m
        at hm
      rw [hskip] at hm
      exact ⟨m, htakes, hm.alike (Tree.ending_alike branch rest)⟩
  | .choice gap c b branch last b' other, hpaired, r, depth, rest, l, hdepth, helse, h => by
    obtain ⟨hclosed, hbranch, hother⟩ := hpaired
    rw [Tree.front_choice] at h
    obtain ⟨m, htakes, hm⟩ := (h.alike (Alike.gap gap _)).compares hknows c b
    rw [Tree.walk]
    cases hholds : c.holds policy r with
    | true =>
      rw [hholds, if_pos rfl] at hm
      rw [if_pos rfl]
      have htaken := goes_front hknows branch hbranch hdepth (fun ho => absurd ho (by simp [hclosed])) hm
      refine Goes.after htakes (htaken.andThen fun next hnext => ?_)
      exact hnext.passesElse hknows last b' hother helse
    | false =>
      rw [hholds, if_neg Bool.false_ne_true, skipGuarded_choice b b' last hbranch hclosed] at hm
      rw [if_neg Bool.false_ne_true]
      exact (goes_front hknows other hother hdepth helse (hm.alike (Alike.blank b' _))).after htakes

theorem goes_written (hknows : table.Knows policy) : (body : List (Tree Action Condition)) →
    Tree.AllPaired body → {r : Run} → {depth : Int} → {rest : List Char} → {l : Loop} → 1 ≤ depth →
    elseFollows rest = false → At r depth (Tree.written plainWriting body ++ rest) l →
    Goes table (Tree.walkAll policy body r) depth rest l
  | [], _, r, depth, rest, l, _, _, h => ⟨l, .refl l, h⟩
  | t :: more, hpaired, r, depth, rest, l, hdepth, helse, h => by
    rw [Tree.written, List.append_assoc, List.append_assoc] at h
    have hfirst := goes_front hknows t hpaired.1 hdepth (fun _ => elseFollows_written helse) h
    rw [Tree.walkAll]
    exact hfirst.andThen fun m hm => goes_written hknows more hpaired.2 hdepth helse hm

end

end Loop

end EntityScript
