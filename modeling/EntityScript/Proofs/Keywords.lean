import EntityScript.Proofs.Scans
import EntityScript.Command.Table

/-! The words of the language. They are written in small letters, which lowercasing
leaves alone, so they are read as they are written and found under their own names
in a table of commands. -/

namespace EntityScript

namespace Text

/-- Plain characters are their own lowercase form, and no rule of Unicode asks for them. -/
def IsLower (c : Char) : Prop := c.toNat < 0xC0 ∧ ¬(0x41 ≤ c.toNat ∧ c.toNat ≤ 0x5A)

instance (c : Char) : Decidable (IsLower c) := by unfold IsLower; infer_instance

theorem caseRuns_outside : ∀ run ∈ caseRuns, 0xC0 ≤ run.first ∨ run.first = 0x41 ∧ run.last = 0x5A := by
  decide +kernel

theorem lowerChar_of_isLower {c : Char} (h : IsLower c) : lowerChar c = [c] := by
  have hfind : caseRuns.find? (·.covers c.toNat) = none := by
    rw [List.find?_eq_none]
    intro run hrun hcovers
    simp only [CaseRun.covers, Bool.and_eq_true, decide_eq_true_eq] at hcovers
    obtain ⟨⟨hfirst, hlast⟩, -⟩ := hcovers
    obtain ⟨hsmall, hcapital⟩ := h
    rcases caseRuns_outside run hrun with hlarge | ⟨hA, hZ⟩
    · omega
    · exact hcapital ⟨hA ▸ hfirst, hZ ▸ hlast⟩
  have hdotted : c ≠ 'İ' := by
    rintro rfl
    exact absurd h.1 (by decide)
  rw [lowerChar, if_neg hdotted, hfind]

theorem lowerFrom_of_isLower {cs : List Char} (h : ∀ c ∈ cs, IsLower c) (before : List Char) :
    lowerFrom before cs = cs := by
  induction cs generalizing before with
  | nil => rfl
  | cons c cs ih =>
    obtain ⟨hc, hcs⟩ := List.forall_mem_cons.1 h
    have hsigma : c ≠ 'Σ' := by
      rintro rfl
      exact absurd hc.1 (by decide)
    rw [lowerFrom, if_neg hsigma, lowerChar_of_isLower hc, ih hcs]
    rfl

theorem lowercase_of_isLower {s : String} (h : ∀ c ∈ s.toList, IsLower c) : lowercase s = s := by
  rw [lowercase, lowerFrom_of_isLower h, String.ofList_toList]

end Text

namespace Reading

def IsKeyword (word : List Char) : Prop :=
  word ≠ [] ∧ ∀ c ∈ word, isCommandChar c = true ∧ c ≠ '/' ∧ Text.IsLower c

instance (word : List Char) : Decidable (IsKeyword word) := by unfold IsKeyword; infer_instance

def StopsWord (rest : List Char) : Prop := ∀ c ∈ rest.head?, isCommandChar c = false

theorem atComment_of_ne {c : Char} (h : c ≠ '/') (rest : List Char) : atComment (c :: rest) = false := by
  unfold atComment
  split
  · rename_i heq
    cases heq
    exact absurd rfl h
  · rfl

/-- A keyword is read as it is written. -/
theorem readCommand_keyword {word rest : List Char} (hword : IsKeyword word) (hstop : StopsWord rest) :
    readCommand (word ++ rest) = (String.ofList word, rest) := by
  obtain ⟨hne, hchars⟩ := hword
  obtain ⟨htake, hdrop⟩ :=
    takeWhile_append_stop (p := isCommandChar) (fun c hc => (hchars c hc).1) hstop
  obtain ⟨c, more, rfl⟩ := List.exists_cons_of_ne_nil hne
  obtain ⟨hc, hslash, -⟩ := hchars c List.mem_cons_self
  have hparts : c ≠ '\n' ∧ isSeparator c = false ∧ c ≠ '{' ∧ c ≠ '}' := by
    simp only [isCommandChar, isWordChar, Bool.and_eq_true, Bool.not_eq_true', bne_iff_ne, ne_eq] at hc
    exact ⟨hc.1.1.2, hc.1.1.1, hc.1.2, hc.2⟩
  obtain ⟨hbreak, hsep, hopen, hclose⟩ := hparts
  have hcomment := atComment_of_ne hslash (more ++ rest)
  have hfiller : dropFiller false (c :: more ++ rest) = c :: (more ++ rest) := by
    rw [List.cons_append, dropFiller, if_neg hbreak, if_neg Bool.false_ne_true, if_neg (by simp [hsep]),
      if_neg (by simp [hcomment])]
  rw [List.cons_append, List.takeWhile_cons_of_pos hc, List.cons.injEq] at htake
  rw [List.cons_append, List.dropWhile_cons_of_pos hc] at hdrop
  have hlower : Text.lowercase (String.ofList (c :: more)) = String.ofList (c :: more) := by
    apply Text.lowercase_of_isLower
    intro d hd
    rw [String.toList_ofList] at hd
    exact (hchars d hd).2.2
  rw [readCommand, takeCommand, hfiller]
  simp only [hopen, hclose, htake.2, hdrop, hlower, decide_false, Bool.or_self, Bool.false_eq_true, if_false]

end Reading

namespace CommandTable

/-- The table has the commands of the language under their names. -/
def Knows (t : CommandTable) (policy : WrongTypePolicy) : Prop :=
  ∀ name command, (name, command) ∈ language policy → t.lookup name = some (name, command)

theorem get?_register {t : CommandTable} {name : String} {command : Command}
    (hlower : Text.lowercase name = name) (hnew : t.commands.get? name = none) :
    ((t.register name command).toOption.getD t).commands = t.commands.set name command := by
  rw [register, hlower]
  simp [Dict.contains, hnew, Except.toOption]

/-- Commands that are added one after another under different names are all found. -/
theorem get?_registerAll {commands : List (String × Command)} {t : CommandTable}
    (hlower : ∀ p ∈ commands, Text.lowercase p.1 = p.1) (hnodup : (commands.map (·.1)).Nodup)
    (hnew : ∀ p ∈ commands, t.commands.get? p.1 = none) :
    (∀ p ∈ commands, (t.registerAll commands).commands.get? p.1 = some p.2) ∧
      ∀ name, name ∉ commands.map (·.1) →
        (t.registerAll commands).commands.get? name = t.commands.get? name := by
  induction commands generalizing t with
  | nil => exact ⟨fun p hp => absurd hp List.not_mem_nil, fun _ _ => rfl⟩
  | cons p commands ih =>
    obtain ⟨hp, hrest⟩ := List.forall_mem_cons.1 hlower
    obtain ⟨hpNew, hrestNew⟩ := List.forall_mem_cons.1 hnew
    rw [List.map_cons, List.nodup_cons] at hnodup
    have hset : ((t.register p.1 p.2).toOption.getD t).commands = t.commands.set p.1 p.2 :=
      get?_register hp hpNew
    have hnew' : ∀ q ∈ commands,
        ((t.register p.1 p.2).toOption.getD t).commands.get? q.1 = none := by
      intro q hq
      have hne : p.1 ≠ q.1 := fun he => hnodup.1 (he ▸ List.mem_map_of_mem hq)
      rw [hset, Dict.get?_set, if_neg hne]
      exact hrestNew q hq
    obtain ⟨hfound, hother⟩ := ih hrest hnodup.2 hnew'
    refine ⟨fun q hq => ?_, fun name hname => ?_⟩
    · rcases List.mem_cons.1 hq with rfl | hq
      · exact (hother q.1 hnodup.1).trans (by rw [hset, Dict.get?_set, if_pos rfl])
      · exact hfound q hq
    · rw [List.map_cons, List.mem_cons, not_or] at hname
      refine (hother name hname.2).trans ?_
      rw [hset, Dict.get?_set, if_neg (Ne.symm hname.1)]

theorem lookup_of_get? {t : CommandTable} {name : String} {command : Command}
    (h : t.commands.get? name = some command) : t.lookup name = some (name, command) := by
  rw [lookup, h]

/-- A word is looked up under its own name, or as the name of a timer. -/
theorem lookup_cases {t : CommandTable} {word name : String} {command : Command}
    (h : t.lookup word = some (name, command)) :
    t.commands.get? name = some command ∧ (name = word ∨ name = "timer" ∧ "timer".toList <+: word.toList) := by
  unfold lookup at h
  split at h
  · rename_i hfound
    cases h
    exact ⟨hfound, .inl rfl⟩
  · split at h
    · rename_i htimer
      rw [Option.map_eq_some_iff] at h
      obtain ⟨found, hfound, heq⟩ := h
      cases heq
      exact ⟨hfound, .inr ⟨rfl, List.isPrefixOf_iff_prefix.1 htimer⟩⟩
    · cases h

theorem language_lower (policy : WrongTypePolicy) :
    ∀ p ∈ language policy, Text.lowercase p.1 = p.1 := by
  intro p hp
  apply Text.lowercase_of_isLower
  revert p
  cases policy <;> decide +kernel

theorem language_nodup (policy : WrongTypePolicy) : ((language policy).map (·.1)).Nodup := by
  cases policy <;> decide +kernel

/-- The table of the language has what the language lists, and nothing else. -/
theorem get?_builtin {policy : WrongTypePolicy} {word : String} {command : Command} :
    (builtin policy).commands.get? word = some command ↔ (word, command) ∈ language policy := by
  obtain ⟨hfound, hother⟩ := get?_registerAll (t := {}) (language_lower policy) (language_nodup policy)
    (fun p _ => Dict.get?_empty p.1)
  refine ⟨fun h => ?_, fun hmem => hfound (word, command) hmem⟩
  by_cases hlisted : word ∈ (language policy).map (·.1)
  · obtain ⟨⟨name, command'⟩, hmem, rfl⟩ := List.mem_map.1 hlisted
    cases (hfound _ hmem).symm.trans h
    exact hmem
  · cases (hother word hlisted).symm.trans h

theorem get?_builtin_eq_none {policy : WrongTypePolicy} {word : String}
    (h : word ∉ (language policy).map (·.1)) : (builtin policy).commands.get? word = none :=
  Option.eq_none_iff_forall_not_mem.2 fun _ hfound => h (List.mem_map_of_mem (get?_builtin.1 hfound))

/-- The commands that are found in the table of the language are those that the language lists. -/
theorem mem_language_of_lookup {policy : WrongTypePolicy} {word name : String} {command : Command}
    (h : (builtin policy).lookup word = some (name, command)) : (name, command) ∈ language policy :=
  get?_builtin.1 (lookup_cases h).1

theorem builtin_knows (policy : WrongTypePolicy) : (builtin policy).Knows policy :=
  fun _ _ hmem => lookup_of_get? (get?_builtin.2 hmem)

/-- A word that begins with `timer` and has no command of its own sets a timer. -/
theorem Knows.lookup_timer {t : CommandTable} {policy : WrongTypePolicy} {word : String} (h : t.Knows policy)
    (htimer : "timer".toList <+: word.toList) (hnone : t.commands.get? word = none) :
    t.lookup word = some ("timer", .timer) := by
  have hknown : t.lookup "timer" = some ("timer", .timer) := h "timer" .timer (by cases policy <;> decide)
  rw [lookup, hnone, (lookup_cases hknown).1]
  dsimp only
  rw [if_pos (List.isPrefixOf_iff_prefix.2 htimer)]
  rfl

theorem builtin_timer {policy : WrongTypePolicy} {word : String} (htimer : "timer".toList <+: word.toList)
    (hother : word ∉ (language policy).map (·.1)) : (builtin policy).lookup word = some ("timer", .timer) :=
  (builtin_knows policy).lookup_timer htimer (get?_builtin_eq_none hother)

end CommandTable

end EntityScript
