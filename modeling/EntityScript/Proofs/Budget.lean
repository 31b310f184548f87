import EntityScript.Proofs.Places
import EntityScript.Proofs.Scans

/-! Every run ends. `Runs` takes the loop turn by turn, and nothing in it says that it
comes to an end: jumps move backwards as often as a script likes. But a command costs
one of the steps that are left, and between two commands the text gets shorter, so
steps and text together, in this order, cannot go on for ever. -/

namespace EntityScript.Loop

open Reading

/-- With `left` steps the loop carries out `words`, one after another, and ends with the result. -/
inductive Runs (table : CommandTable) (limit : Nat) :
    Nat → Loop → List String → Outcome × Run → Prop
  | ended {left : Nat} {l : Loop} {rest : List Char} (h : l.turn = .ended rest) :
    Runs table limit left l [] (.success, l.run.readTo rest)
  | passed {left : Nat} {l next : Loop} {words : List String} {result : Outcome × Run}
    (h : l.turn = .passed next) (hon : Runs table limit left next words result) :
    Runs table limit left l words result
  | spent {l : Loop} {word : String} {rest : List Char} (h : l.turn = .met word rest) :
    Runs table limit 0 l [] ((Exec.abort (.outOfSteps limit)).run (l.run.readTo rest))
  | stopped {left : Nat} {l next : Loop} {word : String} {rest : List Char} {outcome : Outcome}
    (h : l.turn = .met word rest) (hcarry : l.carryOut table word rest = (outcome, next))
    (hstop : outcome.isAbort = true) : Runs table limit (left + 1) l [word] (outcome, next.run)
  | carried {left : Nat} {l next : Loop} {word : String} {rest : List Char} {outcome : Outcome}
    {words : List String} {result : Outcome × Run} (h : l.turn = .met word rest)
    (hcarry : l.carryOut table word rest = (outcome, next)) (hgo : outcome.isAbort = false)
    (hon : Runs table limit left next words result) :
    Runs table limit (left + 1) l (word :: words) result

variable {table : CommandTable} {limit left : Nat} {l : Loop} {words : List String}
  {result : Outcome × Run}

theorem Runs.length_le (h : Runs table limit left l words result) : words.length ≤ left := by
  induction h with
  | ended => exact Nat.zero_le _
  | passed _ _ ih => exact ih
  | spent => exact Nat.le_refl 0
  | stopped => simp only [List.length_cons, List.length_nil]; omega
  | carried _ _ _ _ ih => simp only [List.length_cons]; omega

/-- The result is what the interpreter computes. -/
theorem Runs.eq_finish (h : Runs table limit left l words result) :
    result = l.finish table limit left := by
  induction h with
  | ended h => rw [finish_eq, h]
  | passed h _ ih => rw [finish_eq, h, ih]
  | spent h => rw [finish_eq, h]
  | stopped h hcarry hstop => rw [finish_eq, h]; simp only [hcarry, hstop, if_true]
  | carried h hcarry hgo _ ih =>
    rw [finish_eq, h, ih]
    simp only [hcarry, hgo]
    rfl

theorem exists_runs (table : CommandTable) (limit left : Nat) (l : Loop) :
    ∃ words result, Runs table limit left l words result := by
  cases hturn : l.turn with
  | ended rest => exact ⟨_, _, .ended hturn⟩
  | passed next =>
    have hlt := (passed_rest_lt hturn).2
    obtain ⟨words, result, hruns⟩ := exists_runs table limit left next
    exact ⟨words, result, .passed hturn hruns⟩
  | met word rest =>
    cases left with
    | zero => exact ⟨_, _, .spent hturn⟩
    | succ left =>
      rcases hcarry : l.carryOut table word rest with ⟨outcome, next⟩
      cases hstop : outcome.isAbort with
      | true => exact ⟨_, _, .stopped hturn hcarry hstop⟩
      | false =>
        obtain ⟨words, result, hruns⟩ := exists_runs table limit left next
        exact ⟨word :: words, result, .carried hturn hcarry hstop hruns⟩
termination_by (left, l.run.rest.length)

theorem runs_finish (table : CommandTable) (limit left : Nat) (l : Loop) :
    ∃ words, Runs table limit left l words (l.finish table limit left) ∧ words.length ≤ left := by
  obtain ⟨words, result, hruns⟩ := exists_runs table limit left l
  rw [← hruns.eq_finish]
  exact ⟨words, hruns, hruns.length_le⟩

/-- A run from any position ends after at most as many commands as it has steps; in all its states
a turn that is not a command moves it forward; and the loops that read and skip text stop on every
text, each with one result. -/
theorem runs_end (table : CommandTable) (r : Run) (position maxSteps : Nat) (mode : Mode) :
    (∃ words,
      Runs table maxSteps maxSteps (begin { r with place := r.script.placeAt position } mode) words
        ((Exec.runAll table maxSteps mode).run
          { r with place := r.script.placeAt position, calls := {} }) ∧
      words.length ≤ maxSteps) ∧
    (∀ l next, Reaches table (begin { r with place := r.script.placeAt position } mode) l →
      l.turn = .passed next →
        next.run.rest.length < l.run.rest.length ∧ l.run.position < next.run.position) ∧
    (∀ cs, (∀ token, Peeks cs token ↔ token = nextToken cs) ∧
      (∀ word rest, Reads cs word rest ↔ takeCommand cs = (word, rest)) ∧
      (∀ n left, Leaves n cs left ↔ left = dropBlock .code n cs) ∧
      ∀ left, Skips cs left ↔ left = skipStatement cs) := by
  refine ⟨?_, fun l next hreach hturn => ⟨(passed_rest_lt hturn).2, ?_⟩, fun cs => ?_⟩
  · exact runs_finish table maxSteps maxSteps _
  · have hstart : (r.script.placeAt position).rest <:+ r.script.text :=
      Text.Place.ofPosition_suffix position r.script.text
    exact passed_position_lt hturn (hreach.inText (begin_inText hstart mode))
  · exact ⟨fun _ => peeks_iff, fun _ _ => reads_iff, fun _ _ => leaves_iff, fun _ => skips_iff⟩

end EntityScript.Loop
