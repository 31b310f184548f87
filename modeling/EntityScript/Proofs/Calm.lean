import EntityScript.Proofs.Actions
import EntityScript.Proofs.Deeds
import EntityScript.Proofs.Places

/-! Scripts that keep to themselves. Calm commands direct the run, or set the handler for `main`, a
stopwatch or a switched-off event; they touch nothing that scripts share and nothing in the world.
Whether a script uses other commands can be read off its text: a run meets commands only at places to
which the commands before them can bring it. -/

namespace EntityScript

open Reading

/-- The command works on the states of the script and of its master only. -/
def Command.calm : Command → Bool
  | nop | jump _ | stop _ | comeBack | setMainEvent | stopwatch _ | setEvent | conditional _ | otherwise => true
  | random | timer | sendEvent | say | assign | add | probe => false

/-- What a run shares with all others. -/
def Run.surroundings (r : Run) : Shared × World := (r.shared, r.world)

theorem Run.surroundings_aside : Aside Run.surroundings := ⟨⟨fun _ _ => rfl⟩, fun _ _ => rfl⟩

theorem Command.leaves_surroundings {command : Command} (h : command.calm = true) :
    command.Leaves Run.surroundings := by
  cases command with
  | stopwatch | setEvent => exact fun r _ _ => r.view_updateLeading (fun _ _ _ => rfl) _
  | jump | comeBack | setMainEvent => exact fun _ _ => rfl
  | nop | stop | conditional | otherwise => trivial
  | random | timer | sendEvent | say | assign | add | probe => cases h

/-- The word stands for no command but a calm one. -/
def CommandTable.CalmWord (table : CommandTable) (word : String) : Prop :=
  ∀ name command, table.lookup word = some (name, command) → command.calm = true

/-- No run of a handler of the script, whatever it finds, carries out a command that is not calm. -/
def Script.Calm (table : CommandTable) (script : Script) : Prop :=
  ∀ event position, script.findEvent? event = some position →
    ∀ r : Run, r.script = script → r.place = script.placeAt position →
      ∀ limit left words result, Loop.Runs table limit left (.begin r .block) words result →
        ∀ word ∈ words, table.CalmWord word

/-- Calm words leave the surroundings as they are. -/
theorem Loop.Runs.surroundings_eq {table : CommandTable} {limit left : Nat} {l : Loop} {words : List String}
    {result : Outcome × Run} (h : Loop.Runs table limit left l words result)
    (hcalm : ∀ word ∈ words, table.CalmWord word) : result.2.surroundings = l.run.surroundings :=
  h.spares Run.surroundings_aside fun word hword =>
    Exec.runWord_spares Run.surroundings_aside (fun _ _ => rfl) fun name command hlookup =>
      Command.leaves_surroundings (hcalm word hword name command hlookup)

/-- The texts that a calm command can leave of what follows its word. A jump leaves another text, that of
its label, but a call comes back to one of these. -/
def Command.leavings : Command → List Char → List (List Char)
  | jump _, rest | setMainEvent, rest | stopwatch _, rest => [dropToken rest]
  | comeBack, _ => []
  | conditional _, rest => [dropOperands rest, skipGuarded (dropOperands rest)]
  | otherwise, rest => [skipStatement rest]
  | setEvent, rest => [dropToken (dropToken rest)]
  | _, rest => [rest]

namespace Exec

variable {α β : Type} {cs : List Char} {texts : List (List Char)}

/-- From the text on, the part of a run leaves one of the texts. -/
def Lands (cs : List Char) (texts : List (List Char)) (m : Exec α) : Prop :=
  ∀ r : Run, r.rest = cs → (m.run r).2.rest ∈ texts

namespace Lands

theorem of_spares {m : Exec α} (hm : Spares Run.rest m) (h : cs ∈ texts) : Lands cs texts m := by
  rintro r rfl
  rwa [hm r]

theorem spares_bind {m : Exec α} {f : α → Exec β} (hm : Spares Run.rest m) (hf : ∀ a, Lands cs texts (f a)) :
    Lands cs texts (m >>= f) :=
  fun r hr => hf _ _ ((hm r).trans hr)

theorem readWord_bind {f : String → Exec β} (hf : ∀ word, Lands (dropToken cs) texts (f word)) :
    Lands cs texts (readWord >>= f) :=
  fun r hr => hf _ _ ((readWord_rest r).trans (congrArg dropToken hr))

theorem readSwitch_bind {f : Bool → Exec β} (hf : ∀ on, Lands (dropToken cs) texts (f on)) :
    Lands cs texts (readSwitch >>= f) :=
  fun r hr => hf _ _ ((readWord_rest r).trans (congrArg dropToken hr))

theorem get_bind {f : Run → Exec β} (hf : ∀ r, Lands cs texts (f r)) : Lands cs texts (get >>= f) :=
  fun r hr => hf r r hr

theorem ite {c : Prop} [Decidable c] {m n : Exec α} (hm : Lands cs texts m) (hn : Lands cs texts n) :
    Lands cs texts (if c then m else n) := by
  split
  · exact hm
  · exact hn

end Lands

theorem passOver_rest (d : Diagnostic) (r : Run) : ((passOver d).run r).2.rest = dropLine r.rest :=
  Run.rest_readTo r _

theorem skipGuarded_bind_lands {f : Unit → Exec Outcome} (hf : ∀ u, Spares Run.rest (f u))
    (h : Reading.skipGuarded cs ∈ texts) : Lands cs texts (skipGuarded >>= f) := by
  rintro r rfl
  have hskip : (skipGuarded.run r).2.rest = Reading.skipGuarded r.rest := Run.rest_readTo r _
  rw [← hskip] at h
  exact (hf () _).symm ▸ h

theorem refuse_lands (d : Diagnostic) (h : Reading.skipGuarded cs ∈ texts) : Lands cs texts (refuse d) :=
  .spares_bind (report_spares rest_silent d) fun _ => skipGuarded_bind_lands (fun _ => .pure _) h

theorem compare_lands (policy : WrongTypePolicy) (left name right : String) :
    Lands cs [cs, Reading.skipGuarded cs] (Condition.compare policy left name right) := by
  have hskip : Reading.skipGuarded cs ∈ [cs, Reading.skipGuarded cs] := List.mem_cons_of_mem _ List.mem_cons_self
  unfold Condition.compare
  split
  · exact refuse_lands _ hskip
  · refine .spares_bind (resolve_spares rest_silent _ _) fun l =>
      .spares_bind (resolve_spares rest_silent _ _) fun r => ?_
    refine .ite (refuse_lands _ hskip) (.get_bind fun run => ?_)
    refine .spares_bind (rest_silent.law.forM (report_spares rest_silent) _) fun _ => .ite ?_ ?_
    · exact skipGuarded_bind_lands (fun _ => .pure _) hskip
    · exact .of_spares (.pure _) List.mem_cons_self

theorem runStopwatch_lands (start : Bool) : Lands cs [dropToken cs] (runStopwatch start) := by
  refine .readWord_bind fun word => .of_spares ?_ List.mem_cons_self
  split
  · exact (report_spares rest_silent _).bind fun _ => .pure _
  · exact fun r => r.view_updateLeading (fun _ _ _ => rfl) _

theorem runSetEvent_lands : Lands cs [dropToken (dropToken cs)] runSetEvent := by
  refine .readWord_bind fun name => .readSwitch_bind fun on => .of_spares ?_ List.mem_cons_self
  split
  · exact rest_silent.law.fail _
  · exact fun r => r.view_updateLeading (fun _ _ _ => rfl) _

/-- A calm command that is no jump and no return leaves one of its texts. -/
theorem execute_lands {command : Command} (hcalm : command.calm = true) (hjump : ∀ call, command ≠ .jump call)
    (hback : command ≠ .comeBack) : Lands cs (command.leavings cs) command.execute := by
  cases command with
  | nop | stop => exact .of_spares (.pure _) List.mem_cons_self
  | jump call => exact absurd rfl (hjump call)
  | comeBack => exact absurd rfl hback
  | setMainEvent => exact .readWord_bind fun event => .of_spares (fun _ => rfl) List.mem_cons_self
  | stopwatch start => exact runStopwatch_lands start
  | setEvent => exact runSetEvent_lands
  | conditional policy =>
    exact .readWord_bind fun left => .readWord_bind fun name => .readWord_bind fun right =>
      compare_lands policy left name right
  | otherwise =>
    rintro r rfl
    exact List.mem_singleton.2 (Run.rest_readTo r _)
  | random | timer | sendEvent | say | assign | add | probe => cases hcalm

end Exec

namespace CommandTable

def commandAt? (table : CommandTable) (cs : List Char) : Option Command :=
  if NamesCommand (readCommand cs).1 then (table.lookup (readCommand cs).1).map (·.2) else none

/-- The texts that a run can leave of a text by its first word: what follows a brace or a label; the line end,
if the command for the word cannot be carried out; and what a calm command leaves. -/
def ways (table : CommandTable) (cs : List Char) : List (List Char) :=
  let rest := (readCommand cs).2
  if NamesCommand (readCommand cs).1 then dropLine rest :: (table.commandAt? cs).elim [] (·.leavings rest)
  else [rest]

variable {table : CommandTable} {cs rest : List Char} {word : String}

theorem commandAt?_of_read (hread : readCommand cs = (word, rest)) (hnames : NamesCommand word) :
    table.commandAt? cs = (table.lookup word).map (·.2) := by
  rw [commandAt?, hread, if_pos hnames]

theorem ways_of_read (hread : readCommand cs = (word, rest)) (hnames : NamesCommand word) :
    table.ways cs = dropLine rest :: ((table.lookup word).map (·.2)).elim [] (·.leavings rest) := by
  rw [ways, commandAt?_of_read hread hnames, hread, if_pos hnames]

end CommandTable

/-- The places are all to which runs of the script can come, and no command but calm ones stands there. -/
structure Script.Covers (table : CommandTable) (script : Script) (places : List (List Char)) : Prop where
  handlers : ∀ p ∈ script.events.entries, (script.placeAt p.2).rest ∈ places
  labels : ∀ p ∈ script.labels.entries, (script.placeAt p.2).rest ∈ places
  ways : ∀ cs ∈ places, ∀ rest ∈ table.ways cs, rest ∈ places
  calm : ∀ cs ∈ places, ∀ command ∈ table.commandAt? cs, command.calm = true

instance (table : CommandTable) (script : Script) (places : List (List Char)) :
    Decidable (script.Covers table places) :=
  decidable_of_iff
    ((∀ p ∈ script.events.entries, (script.placeAt p.2).rest ∈ places) ∧
      (∀ p ∈ script.labels.entries, (script.placeAt p.2).rest ∈ places) ∧
      (∀ cs ∈ places, ∀ rest ∈ table.ways cs, rest ∈ places) ∧
      ∀ cs ∈ places, ∀ command ∈ table.commandAt? cs, command.calm = true)
    ⟨fun ⟨hhandlers, hlabels, hways, hcalm⟩ => ⟨hhandlers, hlabels, hways, hcalm⟩,
      fun ⟨hhandlers, hlabels, hways, hcalm⟩ => ⟨hhandlers, hlabels, hways, hcalm⟩⟩

/-- The run is at one of the places, and calls come back to them only. -/
structure Run.Within (places : List (List Char)) (r : Run) : Prop where
  here : r.rest ∈ places
  calls : ∀ p ∈ r.calls.places, p.rest ∈ places

namespace Script.Covers

variable {table : CommandTable} {script : Script} {places : List (List Char)}

theorem calmWord (h : script.Covers table places) {cs rest : List Char} {word : String} (hcs : cs ∈ places)
    (hread : readCommand cs = (word, rest)) (hnames : NamesCommand word) : table.CalmWord word := by
  intro name command hlookup
  refine h.calm cs hcs command ?_
  rw [CommandTable.commandAt?_of_read hread hnames, hlookup]
  rfl

/-- A jump, a call or a return ends the run or brings it to a label or to a place that a call comes back to. -/
theorem within_moved (h : script.Covers table places) {word name : String} {command : Command} {r s : Run}
    {outcome : Outcome} (hlookup : table.lookup word = some (name, command))
    (hmoves : (∃ call, command = .jump call) ∨ command = .comeBack)
    (hleft : ∀ rest ∈ command.leavings r.rest, rest ∈ places) (hscript : r.script = script)
    (hcalls : ∀ p ∈ r.calls.places, p.rest ∈ places) (heffect : Exec.Effect table word r outcome s) :
    outcome.isAbort = true ∨ s.Within places := by
  have hlabel : ∀ {label position}, r.script.findLabel? label = some position →
      (r.script.placeAt position).rest ∈ places := by
    intro label position hfound
    rw [hscript] at hfound ⊢
    exact h.labels _ (Dict.mem_entries_of_get? hfound)
  have hread := Exec.readLabel_follows word r
  cases heffect with
  | passedOver hother =>
    have hneeds := hother _ _ hlookup
    rcases hmoves with ⟨call, rfl⟩ | rfl <;> cases hneeds
  | small hother hjump hback =>
    cases hlookup.symm.trans hother
    rcases hmoves with ⟨call, hcall⟩ | hcome
    · exact absurd hcall (hjump call)
    · exact absurd hcome hback
  | went _ hfound hchanges =>
    refine .inr ⟨hlabel hfound, ?_⟩
    rw [← (hread.trans (follows_of_changes hchanges)).calls] at hcalls
    exact hcalls
  | called hother hfound =>
    cases hlookup.symm.trans hother
    have hback : (Exec.readLabel word r).2.rest = dropToken r.rest := Exec.readWord_rest { r with command := word }
    refine .inr ⟨hlabel hfound, List.forall_mem_cons.2 ⟨?_, hcalls⟩⟩
    exact hleft _ (List.mem_singleton.2 hback)
  | returned _ hpop =>
    rw [CallStack.places_of_pop? hpop, List.forall_mem_cons] at hcalls
    exact .inr ⟨hcalls.1, hcalls.2⟩
  | refused | stuck => exact .inl rfl

/-- A word that is carried out ends the run or brings it to another place. -/
theorem within_runWord (h : script.Covers table places) {cs : List Char} {word : String} {r : Run}
    (hcs : cs ∈ places) (hread : readCommand cs = (word, r.rest)) (hnames : NamesCommand word)
    (hscript : r.script = script) (hcalls : ∀ p ∈ r.calls.places, p.rest ∈ places) :
    ((Exec.runWord table word).run r).1.isAbort = true ∨
      ((Exec.runWord table word).run r).2.Within places := by
  have hways := h.ways cs hcs
  rw [CommandTable.ways_of_read hread hnames, List.forall_mem_cons] at hways
  have hpassed : ∀ d, ((Exec.passOver d).run r).2.Within places := fun d =>
    ⟨(Exec.passOver_rest d r).symm ▸ hways.1, hcalls⟩
  have heffect := Exec.runWord_effect table word r
  cases hlookup : table.lookup word with
  | none =>
    rw [Exec.runWord_run, hlookup]
    exact .inr (hpassed _)
  | some found =>
    obtain ⟨name, command⟩ := found
    have hcalm := h.calmWord hcs hread hnames name command hlookup
    rw [hlookup, Option.map_some, Option.elim_some] at hways
    by_cases hmoves : (∃ call, command = .jump call) ∨ command = .comeBack
    · exact h.within_moved hlookup hmoves hways.2 hscript hcalls heffect
    · obtain ⟨hjump, hback⟩ := not_or.1 hmoves
      have hjump' : ∀ call, command ≠ .jump call := fun call hcall => hjump ⟨call, hcall⟩
      have hsame := heffect.calls_eq (fun _ hother => absurd (hlookup.symm.trans hother) (by simp [hjump']))
        (fun _ hother => absurd (hlookup.symm.trans hother) (by simp [hback]))
      rw [← hsame] at hcalls
      refine .inr ⟨?_, hcalls⟩
      rw [Exec.runWord_run, hlookup]
      dsimp only
      split
      · exact (hpassed _).here
      · exact hways.2 _ (Exec.execute_lands hcalm hjump' hback { r with command := word } rfl)

theorem within_passed (h : script.Covers table places) {l next : Loop} (hl : l.run.Within places)
    (hturn : l.turn = .passed next) : next.run.Within places := by
  have hnames : ¬NamesCommand (readCommand l.run.rest).1 := by
    rintro ⟨-, -, hopen, hclose, hlabel⟩
    rcases (Loop.cases_of_passed hturn).2 with ⟨hbrace, -⟩ | ⟨hbrace, -⟩ | ⟨hmark, -⟩
    · exact hopen hbrace
    · exact hclose hbrace
    · exact hlabel hmark
  rw [Loop.run_of_passed hturn]
  refine ⟨?_, hl.calls⟩
  rw [Run.rest_readTo]
  refine h.ways _ hl.here _ ?_
  rw [CommandTable.ways, if_neg hnames]
  exact List.mem_cons_self

/-- A run that begins at one of the places carries out calm commands only. -/
theorem calmWords (h : script.Covers table places) {l : Loop} {limit left : Nat} {words : List String}
    {result : Outcome × Run} (hruns : Loop.Runs table limit left l words result)
    (hscript : l.run.script = script) (hl : l.run.Within places) : ∀ word ∈ words, table.CalmWord word := by
  induction hruns with
  | ended | spent => exact fun word hword => absurd hword List.not_mem_nil
  | passed hturn _ ih =>
    refine ih ?_ (h.within_passed hl hturn)
    rw [Loop.run_of_passed hturn]
    exact hscript
  | stopped hmet =>
    obtain ⟨hread, hnames, -⟩ := Loop.eq_of_met hmet
    exact List.forall_mem_singleton.2 (h.calmWord hl.here hread hnames)
  | @carried _ l next word rest outcome _ _ hmet hcarry hgo _ ih =>
    obtain ⟨hread, hnames, -⟩ := Loop.eq_of_met hmet
    have hkeeps := (Loop.effect_of_carryOut hcarry).keeps
    have hrest : readCommand l.run.rest = (word, (l.run.readTo rest).rest) := by rwa [Run.rest_readTo]
    have hwithin := h.within_runWord hl.here hrest hnames hscript hl.calls
    cases hcarry
    refine List.forall_mem_cons.2 ⟨h.calmWord hl.here hread hnames, ih (hkeeps.script.trans hscript) ?_⟩
    exact hwithin.resolve_left fun habort => Bool.false_ne_true (hgo.symm.trans habort)

/-- Scripts whose texts have only calm commands are calm. -/
theorem script_calm (h : script.Covers table places) : script.Calm table := by
  intro event position hfound r hscript hplace limit left words result hruns
  refine h.calmWords hruns hscript ⟨?_, fun p hp => absurd hp List.not_mem_nil⟩
  have hposition := h.handlers _ (Dict.mem_entries_of_get? hfound)
  rwa [← hplace] at hposition

end Script.Covers

end EntityScript
