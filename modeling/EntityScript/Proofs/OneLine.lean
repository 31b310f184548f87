import EntityScript.Proofs.Keywords
import EntityScript.Proofs.Places

/-! Statements of one line stay on it. What they ask for is read along the line, so wherever a run is when such
a statement is carried out, and whatever comes of it, the position does not go back and the next line break is
still to come. -/

namespace EntityScript

open Relation

namespace Text

/-- What stands behind the position stands behind its place. -/
theorem Place.suffix_ofPosition {n : Nat} {above below : List Char} (h : n ≤ size above) :
    below <:+ (ofPosition n (above ++ below)).rest := by
  induction above generalizing n with
  | nil =>
    obtain rfl : n = 0 := Nat.le_zero.1 h
    simp [ofPosition]
  | cons c above ih =>
    cases n with
    | zero => exact List.suffix_append (c :: above) below
    | succ n =>
      rw [List.cons_append, ofPosition]
      split
      · exact List.suffix_append above below
      · apply ih
        simp only [size] at h
        omega

/-- What is behind the text that is left is not passed. -/
theorem Place.position_readTo_le {text rest behind : List Char} {p : Place} (hbehind : behind <:+ rest)
    (hp : p.position text ≤ positionOf text behind) : (p.readTo rest).position text ≤ positionOf text behind := by
  unfold readTo
  split
  · exact hp
  · have hsize := size_le_of_suffix hbehind
    rw [position_of_rest, positionOf, positionOf]
    omega

end Text

namespace Run

/-- The run `s` is in the same text as `r`, not before it, and beyond no line break that `r` is before, nor
beyond the end. -/
structure StaysOnLine (r s : Run) : Prop where
  script : s.script = r.script
  onward : r.position ≤ s.position
  breaks : ∀ above below, r.script.text = above ++ '\n' :: below → r.position ≤ Text.size above →
    s.position ≤ Text.size above
  ends : r.position ≤ r.script.size → s.position ≤ r.script.size

variable {r s : Run} {n : Nat}

/-- A run that follows passes nothing that it has left. -/
theorem position_le_of_follows {behind : List Char} (h : Follows r s) (hbehind : behind <:+ s.rest)
    (hr : r.position ≤ Text.positionOf r.script.text behind) :
    s.position ≤ Text.positionOf r.script.text behind := by
  unfold position at hr ⊢
  rw [h.script]
  rcases h.place with hplace | hplace
  · rwa [hplace]
  · rw [hplace]
    exact Text.Place.position_readTo_le hbehind hr

theorem staysOnLine_of_changes (hplace : r.place = r.script.placeAt n) (h : ReflTransGen Change r s) :
    r.StaysOnLine s := by
  have hfollows := follows_of_changes h
  have hposition : r.position = n := by
    rw [position, hplace]
    exact Text.Place.position_ofPosition n _
  refine ⟨hfollows.script, ?_, fun above below htext hbefore => ?_, fun hwithin => ?_⟩
  · unfold position
    rw [hfollows.script]
    rcases hfollows.place with hsame | hread
    · rw [hsame]
    · rw [hread]
      exact Text.Place.position_le_readTo hfollows.rest
  · have hbreak : '\n' :: below <:+ r.rest := by
      rw [rest, hplace, Script.placeAt, htext]
      exact Text.Place.suffix_ofPosition (hposition ▸ hbefore)
    have hsize : Text.positionOf r.script.text ('\n' :: below) = Text.size above := by
      rw [htext, Text.positionOf_append]
    rw [← hsize] at hbefore ⊢
    exact position_le_of_follows hfollows ((onLine_of_changes h).keeps_break hbreak) hbefore
  · exact position_le_of_follows hfollows List.nil_suffix hwithin

end Run

theorem Exec.Gradual.staysOnLine {α : Type} {m : Exec α} (hm : Gradual m) {r : Run} {n : Nat}
    (hplace : r.place = r.script.placeAt n) : r.StaysOnLine (m.run r).2 :=
  Run.staysOnLine_of_changes hplace (hm r)

def CommandTable.lineCommands : List String :=
  ["nop", "accept", "refuse", "setmainevent", "setstatus", "starttimer", "stoptimer", "timer", "sendevent",
    "setevent"]

open CommandTable

namespace Exec

variable {policy : WrongTypePolicy} {table : CommandTable} {word name : String} {command : Command} {r : Run}

/-- They neither jump, return nor branch. -/
theorem execute_gradual_of_mem (hmem : (name, command) ∈ language policy) (hname : name ∈ lineCommands) :
    Gradual command.execute := by
  have hplain : ∀ p ∈ language policy, p.1 ∈ lineCommands →
      (∀ call, p.2 ≠ .jump call) ∧ p.2 ≠ .comeBack ∧ p.2.branches = false := by
    cases policy <;> decide
  obtain ⟨hjump, hback, hbranch⟩ := hplain (name, command) hmem hname
  exact execute_gradual hjump hback hbranch

theorem runWord_staysOnLine {n : Nat} (hplace : r.place = r.script.placeAt n)
    (hlookup : table.lookup word = some (name, command)) (hgradual : Gradual command.execute) :
    r.StaysOnLine ((runWord table word).run r).2 := by
  rw [runWord_run, hlookup]
  dsimp only
  split
  · exact Run.staysOnLine_of_changes hplace (passOver_changes _ r)
  · -- the command word itself has been read before
    have h := hgradual.staysOnLine (r := { r with command := word }) hplace
    exact ⟨h.script, h.onward, h.breaks, h.ends⟩

/-- At any position of any text, a statement of one line stays on it, and so does a word that is no command. -/
theorem one_line (policy : WrongTypePolicy) (r : Run) {n : Nat} (hplace : r.place = r.script.placeAt n) :
    (∀ name command, (name, command) ∈ language policy → name ∈ lineCommands →
      r.StaysOnLine (command.execute.run r).2) ∧
    (∀ table word, table.Knows policy →
      (word ∈ lineCommands ∨ "timer".toList <+: word.toList ∧ table.commands.get? word = none) →
      r.StaysOnLine ((runWord table word).run r).2) ∧
    (∀ table word, table.lookup word = none → r.StaysOnLine ((runWord table word).run r).2) := by
  refine ⟨fun name command hmem hname => ?_, fun table word hknows hword => ?_, fun table word hunknown => ?_⟩
  · exact (execute_gradual_of_mem hmem hname).staysOnLine hplace
  · rcases hword with hname | ⟨htimer, hnone⟩
    · have hlisted : word ∈ (language policy).map (·.1) := by
        have hall : ∀ name ∈ lineCommands, name ∈ (language policy).map (·.1) := by
          cases policy <;> decide
        exact hall word hname
      obtain ⟨⟨name, command⟩, hmem, rfl⟩ := List.mem_map.1 hlisted
      exact runWord_staysOnLine hplace (hknows name command hmem) (execute_gradual_of_mem hmem hname)
    · exact runWord_staysOnLine hplace (hknows.lookup_timer htimer hnone) runTimer_gradual
  · rw [runWord_run, hunknown]
    exact Run.staysOnLine_of_changes hplace (passOver_changes _ r)

def stutterer : Run where
  script := .ofText "stutterer" "timerx -mq 1 ~$a\" \"5 nop\nrefuse \"\nnop"
  place := .ofPosition 6 "timerx -mq 1 ~$a\" \"5 nop\nrefuse \"\nnop".toList
  own := .fresh 0
  shared :=
    { globals := .withCapacity 0, timers := .withCapacity 0, random := .ofSeed 0, maxCallDepth := 1 }
  world := {}
  owner := none
  sender := none

/-- The quote does not reach the one on the next line. -/
theorem one_line_stutterer :
    stutterer.position ≤ ((runWord (.builtin .legacy) "timerx").run stutterer).2.position ∧
      ((runWord (.builtin .legacy) "timerx").run stutterer).2.position ≤ 24 := by
  have hplace : stutterer.place = stutterer.script.placeAt 6 := rfl
  have hnone : (builtin .legacy).commands.get? "timerx" = none := get?_builtin_eq_none (by decide)
  obtain ⟨-, hword, -⟩ := one_line .legacy stutterer hplace
  have h := hword (builtin .legacy) "timerx" (builtin_knows .legacy) (.inr ⟨by decide, hnone⟩)
  exact ⟨h.onward, h.breaks "timerx -mq 1 ~$a\" \"5 nop".toList "refuse \"\nnop".toList (by decide +kernel)
    (by decide +kernel)⟩

end Exec

end EntityScript
