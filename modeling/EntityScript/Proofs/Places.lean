import EntityScript.Proofs.Turns

/-! The places of a run, the one it is at and those it returns to, are places of the
text of its script. Reading on therefore moves the position forward. -/

namespace EntityScript

open Relation

namespace Text

theorem size_lt_of_suffix {cs ds : List Char} (h : cs <:+ ds) (hlt : cs.length < ds.length) :
    size cs < size ds := by
  obtain ⟨front, rfl⟩ := h
  cases front with
  | nil => simp at hlt
  | cons c front =>
    have hpos := c.utf8Size_pos
    simp only [List.cons_append, size, size_append]
    omega

/-- Where nothing is left the place may stay; elsewhere it is now before what is left. -/
theorem Place.readTo_cases {rest : List Char} {p : Place} (hrest : rest <:+ p.rest) :
    (p.rest = [] ∧ p.readTo rest = p) ∨ (p.offset ≤ 0 ∧ p.readTo rest = { rest }) := by
  by_cases hpos : 0 < p.offset
  · have hnil := p.rest_eq_nil hpos
    obtain rfl : rest = [] := List.suffix_nil.1 (hnil ▸ hrest)
    exact .inl ⟨hnil, by simp [readTo, hpos]⟩
  · exact .inr ⟨by omega, by simp [readTo, hpos]⟩

theorem Place.position_le_readTo {text rest : List Char} {p : Place} (hrest : rest <:+ p.rest) :
    p.position text ≤ (p.readTo rest).position text := by
  rcases readTo_cases hrest with ⟨-, hread⟩ | ⟨hoffset, hread⟩
  · rw [hread]
  · have hsize := size_le_of_suffix hrest
    rw [hread, position_of_rest, position, positionOf, positionOf]
    omega

theorem Place.position_lt_readTo {text rest : List Char} {p : Place} (htext : p.rest <:+ text)
    (hrest : rest <:+ p.rest) (hlt : rest.length < p.rest.length) :
    p.position text < (p.readTo rest).position text := by
  rcases readTo_cases hrest with ⟨hnil, -⟩ | ⟨hoffset, hread⟩
  · simp [hnil] at hlt
  · have hsize := size_lt_of_suffix hrest hlt
    have hle := size_le_of_suffix htext
    rw [hread, position_of_rest, position, positionOf, positionOf]
    omega

end Text

theorem CallStack.places_of_pop? {s calls : CallStack} {place : Text.Place}
    (h : s.pop? = some (place, calls)) : s.places = place :: calls.places := by
  unfold pop? at h
  split at h
  · cases h
  · rename_i hplaces
    cases h
    exact hplaces

structure Run.InText (r : Run) : Prop where
  place : r.place.rest <:+ r.script.text
  calls : ∀ p ∈ r.calls.places, p.rest <:+ r.script.text

theorem Follows.inText {r s : Run} (h : Follows r s) (hr : r.InText) : s.InText where
  place := by
    rw [h.script]
    exact h.rest.trans hr.place
  calls := by
    rw [h.calls, h.script]
    exact hr.calls

theorem Run.inText_withCommand {r : Run} (h : r.InText) (word : String) :
    Run.InText { r with command := word } := ⟨h.place, h.calls⟩

namespace Exec.Effect

variable {table : CommandTable} {word : String} {r s : Run} {outcome : Outcome}

theorem inText (h : Effect table word r outcome s) (hr : r.InText) : s.InText := by
  have hword := Run.inText_withCommand hr word
  have hread := (readLabel_follows word r).inText hword
  cases h with
  | passedOver _ h => exact (follows_of_changes h).inText hr
  | small _ _ _ h hskip => exact hskip.follows.inText ((follows_of_changes h).inText hword)
  | went _ _ h =>
    have hs := (follows_of_changes h).inText hread
    refine ⟨?_, hs.calls⟩
    rw [(follows_of_changes h).script, (readLabel_follows word r).script]
    exact Text.Place.ofPosition_suffix _ _
  | called =>
    have hscript : (readLabel word r).2.script = r.script := (readLabel_follows word r).script
    refine ⟨?_, fun p hp => ?_⟩
    · rw [hscript]
      exact Text.Place.ofPosition_suffix _ _
    · rcases List.mem_cons.1 hp with rfl | hp
      · exact hread.place
      · rw [hscript]
        exact hr.calls p hp
  | @returned _ place calls _ hpop =>
    have hcalls := CallStack.places_of_pop? hpop
    refine ⟨hr.calls place ?_, fun p hp => hr.calls p ?_⟩
    · rw [hcalls]
      exact List.mem_cons_self
    · rw [hcalls]
      exact List.mem_cons_of_mem _ hp
  | refused _ _ h => exact (follows_of_changes h).inText hread
  | stuck _ _ h => exact (follows_of_changes h).inText hword

end Exec.Effect

namespace Loop

variable {table : CommandTable} {l next : Loop}

theorem passed_rest_lt (h : l.turn = .passed next) :
    next.run.rest <:+ l.run.rest ∧ next.run.rest.length < l.run.rest.length := by
  have hword : (Reading.readCommand l.run.rest).1 ≠ "" := by
    intro hword
    have hcases := (cases_of_passed h).2
    rw [hword] at hcases
    rcases hcases with ⟨hbrace, -⟩ | ⟨hbrace, -⟩ | ⟨hlabel, -⟩
    · exact absurd hbrace (by decide)
    · exact absurd hbrace (by decide)
    · exact absurd hlabel (by decide)
  rw [run_of_passed h, Run.rest_readTo]
  exact ⟨Reading.readCommand_suffix _, Reading.readCommand_length_lt hword⟩

/-- A turn that costs no step brings the run forward. -/
theorem passed_position_lt (h : l.turn = .passed next) (hl : l.run.InText) :
    l.run.position < next.run.position := by
  obtain ⟨hsuffix, hlt⟩ := passed_rest_lt h
  rw [run_of_passed h, Run.rest_readTo] at hsuffix hlt
  rw [run_of_passed h]
  exact Text.Place.position_lt_readTo hl.place hsuffix hlt

theorem Step.inText (h : Step table l next) (hl : l.run.InText) : next.run.InText := by
  cases h with
  | passed h =>
    rw [run_of_passed h]
    exact (Follows.readTo (Reading.readCommand_suffix _)).inText hl
  | carried hmet h hon =>
    refine (effect_of_carryOut h).inText ((Follows.readTo ?_).inText hl)
    have hread := Reading.readCommand_suffix l.run.rest
    rw [(eq_of_met hmet).1] at hread
    exact hread

theorem Reaches.inText (h : Reaches table l next) (hl : l.run.InText) : next.run.InText := by
  induction h with
  | refl => exact hl
  | tail _ hstep ih => exact hstep.inText ih

theorem begin_inText {r : Run} (h : r.place.rest <:+ r.script.text) (mode : Mode) :
    (begin r mode).run.InText := ⟨h, fun _ hp => absurd hp List.not_mem_nil⟩

end Loop

end EntityScript
