import EntityScript.Proofs.Views
import Mathlib.Data.List.Induction

/-! The panel of a script: its stopwatches and the events it has switched off. A run has one panel, that of
its master or else its own, and `setevent`, `starttimer` and `stoptimer` are all that sets it. `switch?` says
what they set, from the words of their lines alone, and a panel shows of each thing how it was set last. -/

namespace EntityScript

structure Panel where
  stopwatches : Vector Stopwatch 4 := Vector.replicate 4 {}
  disabled : EventSet := {}
deriving DecidableEq

def ScriptState.panel (s : ScriptState) : Panel := ⟨s.stopwatches, s.disabled⟩

inductive Switch
  | event (event : Fin 10) (on : Bool)
  | started (place : Fin 4) (now : Nat)
  | stopped (place : Fin 4)
deriving DecidableEq

namespace Switch

def on? (e : Fin 10) : Switch → Option Bool
  | event e' on => if e' = e then some on else none
  | _ => none

def start? (place : Fin 4) : Switch → Option (Option Nat)
  | started place' now => if place' = place then some (some now) else none
  | stopped place' => if place' = place then some none else none
  | event .. => none

end Switch

def lastOn? (e : Fin 10) (switches : List Switch) : Option Bool := (switches.filterMap (·.on? e)).getLast?

/-- When a stopwatch was started that has not been stopped since. -/
def lastStart? (place : Fin 4) (switches : List Switch) : Option Nat :=
  (switches.filterMap (·.start? place)).getLast?.join

/-- Milliseconds on a stopwatch. Moment 0 counts as moment 1. -/
def clocked (place : Fin 4) (switches : List Switch) (now : Nat) : Nat :=
  match lastStart? place switches with
  | none => 0
  | some start => now - max start 1

def Stopwatch.putIn {n : Nat} (w : Stopwatch) (place : Fin n) (stopwatches : Vector Stopwatch n) :
    Vector Stopwatch n :=
  stopwatches.set place w place.isLt

theorem Stopwatch.get_putIn {n : Nat} (w : Stopwatch) (i j : Fin n) (stopwatches : Vector Stopwatch n) :
    (w.putIn i stopwatches).get j = if i = j then w else stopwatches.get j := by
  have hset : (stopwatches.set i w i.isLt)[j.val] = if i.val = j.val then w else stopwatches[j.val] :=
    Vector.getElem_set i.isLt j.isLt
  simp only [Fin.val_inj] at hset
  exact hset

namespace Panel

def set (p : Panel) : Switch → Panel
  | .event e on => { p with disabled := p.disabled.put e !on }
  | .started place now => { p with stopwatches := (Stopwatch.startedAt now).putIn place p.stopwatches }
  | .stopped place => { p with stopwatches := Stopwatch.putIn {} place p.stopwatches }

def after (p : Panel) (switches : List Switch) : Panel := switches.foldl set p

theorem after_append (p : Panel) (switches more : List Switch) :
    p.after (switches ++ more) = (p.after switches).after more := List.foldl_append

theorem contains_set (p : Panel) (w : Switch) (e : Fin 10) :
    (p.set w).disabled.contains e = ((w.on? e).map (!·)).getD (p.disabled.contains e) := by
  cases w with
  | event e' on =>
    by_cases he : e' = e
    · subst he
      simp [set, EventSet.put, EventSet.contains, Switch.on?]
    · have hplace : e'.val ≠ e.val := fun h => he (Fin.ext h)
      simp [set, EventSet.put, EventSet.contains, Switch.on?, he, hplace]
  | started | stopped => rfl

theorem stopwatch_set (p : Panel) (w : Switch) (place : Fin 4) :
    ((p.set w).stopwatches.get place).start =
      ((w.start? place).map fun start => start.map (max 1)).getD (p.stopwatches.get place).start := by
  cases w with
  | event => rfl
  | started place' now =>
    rw [set, Stopwatch.get_putIn, Switch.start?]
    split <;> rfl
  | stopped place' =>
    rw [set, Stopwatch.get_putIn, Switch.start?]
    split <;> rfl

/-- An event is off if it was switched off last. -/
theorem contains_after (switches : List Switch) (e : Fin 10) :
    (after {} switches).disabled.contains e = true ↔ lastOn? e switches = some false := by
  induction switches using List.reverseRecOn with
  | nil => simp [after, lastOn?, EventSet.contains]
  | append_singleton switches w ih =>
    rw [after_append, after, List.foldl_cons, List.foldl_nil, contains_set, lastOn?, List.filterMap_append]
    cases hw : w.on? e with
    | none => simpa [hw, lastOn?] using ih
    | some on => simp [hw]

/-- A stopwatch shows the moment at which it was started last. -/
theorem stopwatch_after (switches : List Switch) (place : Fin 4) :
    ((after {} switches).stopwatches.get place).start = (lastStart? place switches).map (max 1) := by
  induction switches using List.reverseRecOn with
  | nil => exact congrArg Stopwatch.start (Vector.getElem_replicate place.isLt)
  | append_singleton switches w ih =>
    rw [after_append, after, List.foldl_cons, List.foldl_nil, stopwatch_set, lastStart?, List.filterMap_append]
    cases hw : w.start? place with
    | none => simpa [hw, lastStart?] using ih
    | some start => simp [hw]

theorem elapsed_after {s : ScriptState} {switches : List Switch} (h : s.panel = after {} switches)
    (place : Fin 4) (now : Nat) : s.elapsed place now = clocked place switches now := by
  have hstart : (s.stopwatches.get place).start = (lastStart? place switches).map (max 1) := by
    rw [← stopwatch_after, ← h]
    rfl
  have helapsed : s.elapsed place now = (s.stopwatches.get place).elapsed now := rfl
  rw [helapsed, Stopwatch.elapsed, hstart, clocked]
  cases lastStart? place switches with
  | none => rfl
  | some start => simp [Nat.max_comm]

end Panel

namespace Run

/-- The panel that counts in a run. -/
def panel (r : Run) : Panel := r.leading.panel

def idlePanel? (r : Run) : Option Panel := r.master.map fun _ => r.own.panel

theorem panel_aside : Aside panel := ⟨⟨fun _ _ => rfl⟩, fun _ _ => rfl⟩

theorem idlePanel_aside : Aside idlePanel? := ⟨⟨fun _ _ => rfl⟩, fun _ _ => rfl⟩

theorem panel_updateLeading (r : Run) (change : ScriptState → ScriptState) :
    (r.updateLeading change).panel = (change r.leading).panel := by
  unfold updateLeading panel leading
  cases r.master <;> simp

theorem idlePanel_updateLeading (r : Run) (change : ScriptState → ScriptState) :
    (r.updateLeading change).idlePanel? = r.idlePanel? := by
  unfold updateLeading idlePanel?
  cases r.master <;> simp

end Run

def Command.SparesPanel : Command → Prop
  | stopwatch _ | setEvent => False
  | _ => True

theorem Command.leaves_panel {command : Command} (h : command.SparesPanel) : command.Leaves Run.panel := by
  cases command with
  | stopwatch | setEvent => exact h.elim
  | setMainEvent =>
    intro r event
    unfold Run.panel Run.leading
    cases hm : r.master <;> rfl
  | assign | add =>
    refine ⟨fun r locals => ?_, fun _ _ => rfl⟩
    unfold Run.panel Run.leading
    cases hm : r.master <;> rfl
  | nop | stop | conditional | otherwise | say | probe => trivial
  | _ => exact fun _ _ => rfl

theorem Command.leaves_idlePanel (command : Command) : command.Leaves Run.idlePanel? := by
  cases command with
  | stopwatch | setEvent => exact fun r _ _ => r.idlePanel_updateLeading _
  | assign | add => exact ⟨fun _ _ => rfl, fun _ _ => rfl⟩
  | nop | stop | conditional | otherwise | say | probe => trivial
  | _ => exact fun _ _ => rfl

namespace Exec

def watchSwitch? (start : Bool) (r : Run) : Option Switch :=
  (Stopwatch.named? (readWord.run r).1).map fun place =>
    if start then .started place r.world.now else .stopped place

def eventSwitch? (r : Run) : Option Switch :=
  let (name, s) := readWord.run r
  (standardEvent? (Text.lowercase name)).map fun e => .event e (readSwitch.run s).1

/-- What carrying out a command word sets on the panel of the run, if it sets anything. -/
def switch? (table : CommandTable) (word : String) (r : Run) : Option Switch :=
  match table.lookup word with
  | some (_, .stopwatch start) => watchSwitch? start { r with command := word }
  | some (_, .setEvent) => eventSwitch? { r with command := word }
  | _ => none

theorem runStopwatch_panel (start : Bool) (r : Run) :
    ((runStopwatch start).run r).2.panel = r.panel.after (watchSwitch? start r).toList := by
  have hpanel := readWord_spares Run.panel_aside r
  have hclock : Aside fun r : Run => r.world.now := ⟨⟨fun _ _ => rfl⟩, fun _ _ => rfl⟩
  have hnow : (readWord.run r).2.world.now = r.world.now := readWord_spares hclock r
  rcases hread : readWord.run r with ⟨word, s⟩
  rw [hread] at hpanel hnow
  rw [runStopwatch, run_bind_of hread, watchSwitch?, hread]
  dsimp only at hpanel hnow ⊢
  cases Stopwatch.named? word with
  | none => exact hpanel
  | some place =>
    change Run.panel (s.updateLeading _) = _
    rw [Run.panel_updateLeading, ← hpanel, ← hnow]
    cases start <;> rfl

theorem runSetEvent_panel (r : Run) :
    (runSetEvent.run r).2.panel = r.panel.after (eventSwitch? r).toList := by
  have hname := readWord_spares Run.panel_aside r
  rcases hread : readWord.run r with ⟨name, s⟩
  have hon := Run.panel_aside.skippingLaw.readSwitch s
  rcases hswitch : readSwitch.run s with ⟨on, t⟩
  rw [hread] at hname
  rw [hswitch] at hon
  rw [runSetEvent, run_bind_of hread, run_bind_of hswitch, eventSwitch?, hread]
  dsimp only at hname hon ⊢
  rw [hswitch]
  cases standardEvent? (Text.lowercase name) with
  | none => exact hon.trans hname
  | some e =>
    change Run.panel (t.updateLeading _) = _
    rw [Run.panel_updateLeading, ← hname, ← hon]
    rfl

/-- Of the words, only the three commands set the panel of a run, and they set what `switch?` says. -/
theorem runWord_panel (table : CommandTable) (word : String) (r : Run) :
    ((runWord table word).run r).2.panel = r.panel.after (switch? table word r).toList := by
  rw [runWord_run, switch?]
  cases table.lookup word with
  | none => exact passOver_spares Run.panel_aside _ r
  | some found =>
    obtain ⟨name, command⟩ := found
    by_cases hspares : command.SparesPanel
    · have hnone : (match some (name, command) with
          | some (_, .stopwatch start) => watchSwitch? start { r with command := word }
          | some (_, .setEvent) => eventSwitch? { r with command := word }
          | _ => none) = none := by
        cases command <;> first | rfl | exact hspares.elim
      rw [hnone]
      dsimp only
      split
      · exact passOver_spares Run.panel_aside _ r
      · exact execute_spares Run.panel_aside (Command.leaves_panel hspares) { r with command := word }
    · cases command with
      | stopwatch start => exact runStopwatch_panel start { r with command := word }
      | setEvent => exact runSetEvent_panel { r with command := word }
      | _ => exact absurd trivial hspares

/-- The panel of the script itself stays as it is where a master's counts. -/
theorem runWord_idlePanel (table : CommandTable) (word : String) (r : Run) :
    ((runWord table word).run r).2.idlePanel? = r.idlePanel? :=
  runWord_spares Run.idlePanel_aside (fun _ _ => rfl) (fun _ command _ => command.leaves_idlePanel) r

end Exec

end EntityScript
