import EntityScript.Proofs.Words

/-! Variables between tildes. The tildes cut a word into segments, and every second segment names a variable,
as long as a tilde closes it. What a word comes to is said of each segment by its number, once and for all, so
the text of a variable is never looked at again. -/

namespace EntityScript

theorem Text.pieces_eq_splitOnP (cut : Char → Bool) (cs : List Char) : pieces cut cs = cs.splitOnP cut := by
  induction cs with
  | nil => simp [pieces]
  | cons c cs ih =>
    rw [pieces, ih, List.splitOnP_cons_eq_if_modifyHead]
    split
    · rfl
    · obtain ⟨piece, more, hpieces⟩ := List.exists_cons_of_ne_nil (List.splitOnP_ne_nil cut cs)
      rw [hpieces]
      rfl

namespace Run

/-- What the segment numbered `i` comes to, of a word whose last segment has the number `last`. -/
def segment (r : Run) (last i : Nat) (text : List Char) : List Char :=
  if i % 2 = 0 then text
  else if i < last then ((Exec.textOf (String.ofList text)).run r).1.toList
  else '~' :: text

theorem segment_add_two (r : Run) {last : Nat} (i : Nat) (text : List Char) :
    r.segment (last + 2) (i + 2) text = r.segment last i text := by
  have hlast : i + 2 < last + 2 ↔ i < last := by omega
  simp only [segment, Nat.add_mod_right, hlast]

/-- By induction on the segments, two at a time. -/
theorem fill_eq_flatten (r : Run) (segments : List (List Char)) :
    r.fill segments = (segments.mapIdx (r.segment (segments.length - 1))).flatten := by
  induction segments using fill.induct with
  | case1 => rfl
  | case2 text => simp [fill, segment]
  | case3 text unclosed => simp [fill, segment]
  | case4 text name more hmore ih =>
    obtain ⟨last, hlast⟩ : ∃ last, more.length = last + 1 :=
      Nat.exists_eq_add_one.2 (List.length_pos_iff.2 fun hnil => hmore (by rw [hnil]))
    obtain ⟨journal, htext⟩ := Exec.textOf_run (String.ofList name) r
    have hname : r.segment (last + 2) 1 name = (r.textOf (String.ofList name)).toList := by
      rw [segment, if_neg (by decide), if_pos (by omega), htext]
    have hlater : more.mapIdx (fun i => r.segment (last + 2) (i + 1 + 1)) = more.mapIdx (r.segment last) := by
      congr
      funext i text
      exact r.segment_add_two i text
    have hlength : (text :: name :: more).length - 1 = last + 2 := by
      rw [List.length_cons, List.length_cons, hlast]
      rfl
    rw [hlength, List.mapIdx_cons, List.mapIdx_cons, hname, hlater, fill, ih, hlast]
    · simp [segment]
    · assumption

/-- The word up to the tilde that closes its first variable, and what is left of it. -/
theorem filled_step (r : Run) {before name after : List Char} (hbefore : '~' ∉ before) (hname : '~' ∉ name) :
    r.filled (before ++ '~' :: (name ++ '~' :: after)) =
      String.ofList (before ++ (r.textOf (String.ofList name)).toList) ++ r.filled after := by
  have huncut : ∀ {cs : List Char}, '~' ∉ cs → Text.pieces (· == '~') cs = [cs] := by
    intro cs hcs
    apply Text.pieces_of_uncut
    intro c hc
    simpa using ne_of_mem_of_not_mem hc hcs
  have hpieces : Text.pieces (· == '~') (before ++ '~' :: (name ++ '~' :: after)) =
      before :: name :: Text.pieces (· == '~') after := by
    rw [Text.pieces_append rfl, Text.pieces_append rfl, huncut hbefore, huncut hname]
    rfl
  rw [filled, filled, hpieces, fill, String.ofList_append]
  exact Text.pieces_ne_nil _ after

end Run

namespace Exec

/-- A word comes to its segments in order: those of even number as they are, those of odd number as the texts
of the variables they name, and no tildes, except that a last segment of odd number keeps the tilde before it,
which nothing closes. The text of a variable goes out whole, and only what follows the variable is filled in. -/
theorem expand_segments (word : List Char) (r : Run) :
    (∃ journal, (expand word).run r =
      (String.ofList ((word.splitOn '~').mapIdx (r.segment ((word.splitOn '~').length - 1))).flatten,
        { r with journal })) ∧
      ∀ before name after, '~' ∉ before → '~' ∉ name → word = before ++ '~' :: (name ++ '~' :: after) →
        ((expand word).run r).1 =
          String.ofList (before ++ ((textOf (String.ofList name)).run r).1.toList) ++ ((expand after).run r).1 := by
  obtain ⟨journal, hword⟩ := expand_run word r
  refine ⟨⟨journal, hword.trans ?_⟩, ?_⟩
  · rw [Run.filled, Text.pieces_eq_splitOnP, ← List.splitOn_eq_splitOnP, Run.fill_eq_flatten]
  · intro before name after hbefore hname hsplit
    obtain ⟨_, hafter⟩ := expand_run after r
    obtain ⟨_, htext⟩ := textOf_run (String.ofList name) r
    rw [hword, hafter, htext, hsplit]
    exact r.filled_step hbefore hname

def scribe : Run where
  script := .ofText "scribe" ""
  place := { rest := [] }
  own := .fresh 0
  shared :=
    { globals := { vars := Dict.empty.set "$a" (.text "~$a~"), capacity := 1 }
      timers := .withCapacity 0, random := .ofSeed 0, maxCallDepth := 1 }
  world := {}
  owner := none
  sender := none

/-- What is left behind the first variable has an empty name in it, a literal, and a tilde that nothing closes. -/
theorem expand_segments_scribe :
    ((expand "x~$a~y~~z~q~~$a".toList).run scribe).1 = "x~$a~yzq~$a" := by
  have hstep := (expand_segments "x~$a~y~~z~q~~$a".toList scribe).2 "x".toList "$a".toList "y~~z~q~~$a".toList
    (by decide) (by decide) (by decide)
  rw [hstep]
  decide +kernel

end Exec

end EntityScript
