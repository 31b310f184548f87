import EntityScript.Proofs.Moments
import EntityScript.Proofs.Panels
import Mathlib.Algebra.Group.Nat.Defs

/-! Scripts that have the same master share its panel. While nothing is attached, detached or linked, all
that is set in a run for any of them goes to this panel and to no other, so they see one history of
settings, in the order in which they were made. `Recorded` keeps this history along the steps of a session. -/

namespace EntityScript

namespace Engine

variable {e f : Engine}

/-- What was set on the panel of a script, in runs for those that it leads. -/
def settings (e : Engine) (leader : Option EntityId) (log : List (Option EntityId × Switch)) : List Switch :=
  (log.filter (e.leader ·.1 = leader)).map (·.2)

theorem settings_append (leader : Option EntityId) (log more : List (Option EntityId × Switch)) :
    e.settings leader (log ++ more) = e.settings leader log ++ e.settings leader more := by
  rw [settings, List.filter_append, List.map_append]
  rfl

theorem settings_of_one (leader owner : Option EntityId) (switch? : Option Switch) :
    e.settings leader (switch?.map (owner, ·)).toList = if e.leader owner = leader then switch?.toList else [] := by
  cases switch? with
  | none => simp [settings]
  | some w => by_cases ho : e.leader owner = leader <;> simp [settings, ho]

theorem settings_congr (h : ∀ o, f.leader o = e.leader o) (leader : Option EntityId)
    (log : List (Option EntityId × Switch)) : f.settings leader log = e.settings leader log := by
  simp only [settings, h]

end Engine

namespace Session

/-- The run is one for a script that is attached, and has a master where the script has one. -/
structure Fits (s : Session) (r : Run) : Prop where
  attached : (s.engine.instance? r.owner).isSome
  master : r.master.isSome = (s.engine.masterState? r.owner).isSome

def panelLeft? (s : Session) (r : Run) (other : Option EntityId) : Option Panel :=
  (s.engine.instance? other).map fun i => (s.leftState r.owner r other i.state).panel

variable {s : Session} {r next : Run}

namespace Fits

theorem of_keeps (h : s.Fits r) (hkeeps : Exec.Keeps r next) : s.Fits next where
  attached := by
    rw [hkeeps.owner]
    exact h.attached
  master := by
    rw [hkeeps.owner, hkeeps.master]
    exact h.master

/-- Where another script leads, the run has the state of this one for its master's. -/
theorem master_of_leader (h : s.Fits r) (hleads : s.engine.leader r.owner ≠ r.owner) :
    ∃ m, r.master = some m := by
  rw [← Option.isSome_iff_exists, h.master, Option.isSome_iff_exists]
  exact Engine.masterState?_of_not_leader (Ne.symm hleads)

theorem no_master (h : s.Fits r) (hleads : s.engine.leader r.owner = r.owner) : r.master = none := by
  have hmaster := h.master
  rw [Engine.masterState?] at hmaster
  cases hlink : s.engine.master? r.owner with
  | none =>
    rw [hlink] at hmaster
    simpa using hmaster
  | some master =>
    rw [Engine.leader, hlink, Option.some_or] at hleads
    exact absurd hleads.symm (Engine.stateOf?_master hlink).1

/-- The panel of the run is left to the script that leads, and the script of the run keeps its own one if
another one leads. -/
theorem panelLeft? (h : s.Fits r) (other : Option EntityId) :
    s.panelLeft? r other =
      if other = s.engine.leader r.owner then some r.panel
      else if other = r.owner then some r.own.panel
      else (s.engine.instance? other).map (·.state.panel) := by
  obtain ⟨i, hfound⟩ := Option.isSome_iff_exists.1 h.attached
  unfold Session.panelLeft? leftState
  by_cases hled : s.engine.leader r.owner = r.owner
  · have hpanel : r.panel = r.own.panel := by rw [Run.panel, Run.leading, h.no_master hled, Option.getD_none]
    rw [hled, hpanel]
    by_cases ho : other = r.owner
    · simp [ho, hfound]
    · simp [ho]
  · obtain ⟨m, hm⟩ := h.master_of_leader hled
    have hpanel : r.panel = m.panel := by rw [Run.panel, Run.leading, hm, Option.getD_some]
    rw [hm, hpanel]
    by_cases ho : other = r.owner
    · simp [ho, hfound, Ne.symm hled]
    · by_cases hl : other = s.engine.leader r.owner
      · obtain ⟨j, hj, -⟩ := Engine.instance?_leader hfound
        simp [hl, hj, hled]
      · simp [ho, hl]

/-- What is set on the panel of the run is set on the panel of the script that leads. -/
theorem panelLeft?_after (h : s.Fits r) (hkeeps : Exec.Keeps r next) {switches : List Switch}
    (hpanel : next.panel = r.panel.after switches) (hidle : next.idlePanel? = r.idlePanel?)
    (other : Option EntityId) :
    s.panelLeft? next other =
      (s.panelLeft? r other).map fun p => if s.engine.leader r.owner = other then p.after switches else p := by
  rw [h.panelLeft?, (h.of_keeps hkeeps).panelLeft?, hkeeps.owner]
  by_cases hl : other = s.engine.leader r.owner
  · simp [hl, hpanel]
  by_cases ho : other = r.owner
  · -- the script of the run does not lead, and its own panel is out of use
    have hled : s.engine.leader r.owner ≠ r.owner := fun hled => hl (ho.trans hled.symm)
    obtain ⟨m, hm⟩ := h.master_of_leader hled
    rw [Run.idlePanel?, Run.idlePanel?, hm, Option.map_some, Option.map_eq_some_iff] at hidle
    obtain ⟨m', -, hown⟩ := hidle
    simp [ho, hled, Ne.symm hled, hown]
  · simp [hl, ho, Ne.symm hl, Function.comp_def]

end Fits

/-- In the beginning of a run nothing is set. -/
theorem fits_begin {owner : Option EntityId} {i : Instance} (hfound : s.engine.instance? owner = some i)
    (script : Script) (position : Nat) (params : List String) (mode : Mode) :
    let r := (Loop.begin (s.startRun owner i.state script position params) mode).run
    s.Fits r ∧ ∀ other, s.panelLeft? r other = (s.engine.instance? other).map (·.state.panel) := by
  intro r
  have hattached : (s.engine.instance? owner).isSome = true := Option.isSome_iff_exists.2 ⟨i, hfound⟩
  have hfits : s.Fits r := ⟨hattached, rfl⟩
  refine ⟨hfits, fun other => ?_⟩
  rw [hfits.panelLeft?]
  split
  · rename_i hl
    obtain ⟨j, hj, hstate⟩ := Engine.instance?_leader hfound
    change other = s.engine.leader owner at hl
    rw [hl, hj]
    exact congrArg (some ∘ ScriptState.panel) hstate
  · split
    · rename_i ho
      change other = owner at ho
      rw [ho, hfound]
      rfl
    · rfl

/-- A look at a slot changes the pool only. -/
theorem Polls.instance?_eq {t : Session} {slot : Nat} {timer? : Option Timer} (h : s.Polls slot timer? t)
    (other : Option EntityId) : t.engine.instance? other = s.engine.instance? other := by
  cases h <;> cases other <;> rfl

end Session

namespace Moment

/-- What the next step sets on a panel, and in a run for which script. -/
def setting? : Moment → Option (Option EntityId × Switch)
  | running s _ l (_ + 1) =>
    match l.turn with
    | .met word rest => (Exec.switch? s.engine.commands word (l.run.readTo rest)).map (l.run.owner, ·)
    | _ => none
  | _ => none

/-- Such a history, or a part of one, with all that is set in it. -/
inductive Recorded (m : Moment) : List (Option EntityId × Switch) → Moment → Prop
  | nil : Recorded m [] m
  | snoc {log : List (Option EntityId × Switch)} {mid next : Moment} {incident : Option Incident}
    (h : Recorded m log mid) (hstep : Serves mid incident next) : Recorded m (log ++ mid.setting?.toList) next

/-- The panel that a script has if the run that is on its way ends here. -/
def panel? : Moment → Option EntityId → Option Panel
  | between s _, other => (s.engine.instance? other).map (·.state.panel)
  | running s _ l _, other => s.panelLeft? l.run other

/-- A run that is on its way fits the session in which it began. -/
def Formed : Moment → Prop
  | between _ _ => True
  | running s _ l _ => s.Fits l.run

/-- The panels have been set by the settings, each in a run for a script that is led by the panel's. -/
structure Sets (m next : Moment) (log : List (Option EntityId × Switch)) : Prop where
  formed : next.Formed
  leader : ∀ o, next.engine.leader o = m.engine.leader o
  panel : ∀ o, next.panel? o = (m.panel? o).map (·.after (m.engine.settings o log))

namespace Sets

variable {m mid next : Moment} {log more : List (Option EntityId × Switch)}

/-- A step that sets nothing. -/
theorem nothing (hformed : next.Formed)
    (hlinks : ∀ o, (next.engine.instance? o).map Instance.master = (m.engine.instance? o).map Instance.master)
    (hpanel : ∀ o, next.panel? o = m.panel? o) : Sets m next [] where
  formed := hformed
  leader _ := Engine.leader_congr hlinks
  panel o := (hpanel o).trans Option.map_id'.symm

theorem trans (h : Sets m mid log) (h' : Sets mid next more) : Sets m next (log ++ more) where
  formed := h'.formed
  leader o := (h'.leader o).trans (h.leader o)
  panel o := by
    rw [h'.panel, h.panel, Option.map_map, Engine.settings_congr h.leader, Engine.settings_append]
    simp only [Function.comp_def, Panel.after_append]

end Sets

theorem panel?_afterRun (s : Session) (slots : List Nat) (r : Run) (other : Option EntityId) :
    (afterRun s slots r).panel? other = s.panelLeft? r other := by
  rw [afterRun, panel?, Session.instance?_finishRun, Option.map_map]
  rfl

theorem links_afterRun (s : Session) (slots : List Nat) (r : Run) (other : Option EntityId) :
    ((afterRun s slots r).engine.instance? other).map Instance.master =
      (s.engine.instance? other).map Instance.master := by
  rw [afterRun, engine, Session.instance?_finishRun, Option.map_map]
  rfl

/-- A turn of a run sets on the panel of the script that leads what its command sets. -/
theorem sets_carryOut {s : Session} {l : Loop} (h : s.Fits l.run) (slots : List Nat) (left : Nat)
    (word : String) (rest : List Char) :
    let carried := (l.carryOut s.engine.commands word rest).2
    let log := ((Exec.switch? s.engine.commands word (l.run.readTo rest)).map (l.run.owner, ·)).toList
    Sets (running s slots l (left + 1)) (running s slots carried left) log ∧
      Sets (running s slots l (left + 1)) (afterRun s slots carried.run) log := by
  intro carried log
  have hkeeps : Exec.Keeps l.run carried.run :=
    (l.keeps_readTo rest).trans (Loop.carryOut_effect s.engine.commands l word rest).keeps
  have hpanel : ∀ o, s.panelLeft? carried.run o =
      (s.panelLeft? l.run o).map (·.after (s.engine.settings o log)) := by
    intro o
    rw [h.panelLeft?_after hkeeps (Exec.runWord_panel s.engine.commands word (l.run.readTo rest))
      (Exec.runWord_idlePanel s.engine.commands word (l.run.readTo rest))]
    rw [Engine.settings_of_one]
    by_cases ho : s.engine.leader l.run.owner = o
    · simp [ho]
    · simp [ho, Panel.after]
  refine ⟨⟨h.of_keeps hkeeps, fun _ => rfl, hpanel⟩, trivial, fun _ => ?_, fun o => ?_⟩
  · exact Engine.leader_congr (links_afterRun s slots carried.run)
  · exact (panel?_afterRun s slots carried.run o).trans (hpanel o)

/-- A look at a slot in which no statement is to run sets nothing. -/
theorem sets_looked {s t : Session} {slot : Nat} (h : s.Polls slot none t) (slots : List Nat) :
    Sets (between s (slot :: slots)) (between t slots) [] := by
  refine .nothing trivial (fun o => ?_) fun o => ?_
  · rw [engine, engine, h.instance?_eq]
  · rw [panel?, panel?, h.instance?_eq]

/-- The statement of a timer begins, and so far nothing is set. -/
theorem sets_fired {s t : Session} {slot : Nat} {timer : Timer} {i : Instance}
    (h : s.Polls slot (some timer) t) (hfound : t.engine.instance? timer.owner = some i)
    (slots : List Nat) (left : Nat) :
    Sets (between s (slot :: slots))
      (running t slots (.begin (t.startRun timer.owner i.state timer.script timer.resumeAt []) .line) left) [] := by
  obtain ⟨hfits, hpanel⟩ := Session.fits_begin hfound timer.script timer.resumeAt [] .line
  refine .nothing hfits (fun o => ?_) fun o => (hpanel o).trans ?_
  · rw [engine, engine, h.instance?_eq]
  · rw [panel?, h.instance?_eq]

theorem sets_passed {s : Session} {l passed : Loop} (h : s.Fits l.run) (hturn : l.turn = .passed passed)
    (slots : List Nat) (left : Nat) : Sets (running s slots l left) (running s slots passed left) [] := by
  have hrun := Loop.run_of_passed hturn
  refine .nothing ?_ (fun _ => rfl) fun o => ?_
  · rw [Formed, hrun]
    exact h.of_keeps (l.keeps_readTo _)
  · rw [panel?, hrun]
    rfl

/-- A run ends, and nothing was set since it took its last step. -/
theorem sets_ended {s : Session} {l : Loop} {r : Run} (h : s.panelLeft? r = s.panelLeft? l.run)
    (slots : List Nat) (left : Nat) : Sets (running s slots l left) (afterRun s slots r) [] :=
  .nothing trivial (links_afterRun s slots r) fun o => (panel?_afterRun s slots r o).trans (congrFun h o)

theorem setting?_of_not_met {s : Session} {slots : List Nat} {l : Loop} {left : Nat}
    (h : ∀ word rest, l.turn ≠ .met word rest) : (running s slots l left).setting? = none := by
  cases left with
  | zero => rfl
  | succ left =>
    rw [setting?]
    split
    · rename_i word rest hturn
      exact absurd hturn (h word rest)
    · rfl

theorem Work.sets {m next : Moment} {incident : Option Incident} (h : Work m incident next)
    (hm : m.Formed) : Sets m next m.setting?.toList := by
  cases m with
  | between s slots =>
    cases h.worked with
    | looked hpolls => exact sets_looked hpolls _
    | fired hpolls hfound => exact sets_fired hpolls hfound _ _
  | running s slots l left =>
    -- not by `Worked`, where a run that ends may have met a word for which it has no step left
    rw [Work, work] at h
    cases hturn : l.turn with
    | ended rest =>
      rw [hturn] at h
      cases h
      rw [setting?_of_not_met (by simp [hturn])]
      exact sets_ended rfl slots left
    | passed passed =>
      rw [hturn] at h
      cases h
      rw [setting?_of_not_met (by simp [hturn])]
      exact sets_passed hm hturn slots left
    | met word rest =>
      rw [hturn] at h
      cases left with
      | zero =>
        cases h
        refine sets_ended ?_ slots 0
        rfl
      | succ left =>
        obtain ⟨hon, hover⟩ := sets_carryOut hm slots left word rest
        rw [setting?, hturn]
        dsimp only at h ⊢
        split at h
        · cases h
          exact hover
        · cases h
          exact hon

theorem Serves.sets {m next : Moment} {incident : Option Incident} (h : Serves m incident next)
    (hm : m.Formed) : Sets m next m.setting?.toList := by
  cases h with
  | aside h =>
    refine .nothing trivial (fun o => ?_) fun o => ?_
    · rw [engine, engine, h]
    · rw [panel?, panel?, h]
  | sent h params =>
    obtain ⟨hfits, hpanel⟩ :=
      Session.fits_begin h.found _ _ ((Text.blankSeparated params.toList).map String.ofList) .block
    exact .nothing hfits (fun _ => rfl) hpanel
  | ticked => exact .nothing trivial (fun _ => rfl) fun _ => rfl
  | worked h => exact h.sets hm

/-- All through a history, the panels show what was set on them. -/
theorem Recorded.sets {m next : Moment} {log : List (Option EntityId × Switch)} (h : Recorded m log next)
    (hm : m.Formed) : Sets m next log := by
  induction h with
  | nil => exact .nothing hm (fun _ => rfl) fun _ => rfl
  | snoc _ hstep ih => exact ih.trans (hstep.sets ih.formed)

theorem Recorded.trans {m mid next : Moment} {log more : List (Option EntityId × Switch)}
    (h : Recorded m log mid) (h' : Recorded mid more next) : Recorded m (log ++ more) next := by
  induction h' with
  | nil => rwa [List.append_nil]
  | snoc _ hstep ih =>
    rw [← List.append_assoc]
    exact ih.snoc hstep

theorem Trail.recorded {m next : Moment} {incidents : List Incident} (h : Trail Serves m incidents next) :
    ∃ log, Recorded m log next := by
  induction h with
  | nil => exact ⟨[], .nil⟩
  | cons hstep _ ih =>
    obtain ⟨log, hlog⟩ := ih
    exact ⟨_, (Recorded.nil.snoc hstep).trans hlog⟩

/-- Sequences of calls in which scripts run are such histories, whatever happens between them. -/
theorem recorded_act (s : Session) {act : Act} (hact : act.AsksScripts) :
    ∃ log, Recorded (between s []) log (between (s.after act) []) := by
  obtain ⟨_, htrail⟩ := trail_act s hact
  exact htrail.recorded

end Moment

namespace Stopwatch

def name : Fin 4 → String
  | 0 => "timer1"
  | 1 => "timer2"
  | 2 => "timer3"
  | 3 => "timer4"

def operand (place : Fin 4) : String := String.ofList ('^' :: '#' :: (name place).toList)

theorem named?_name (place : Fin 4) : named? (name place) = some place := by
  revert place
  decide

end Stopwatch

theorem Run.systemValue?_stopwatch (r : Run) (place : Fin 4) :
    r.systemValue? (Stopwatch.operand place) =
      some (.integer (signed64 (r.leading.elapsed place r.world.now))) := by
  have hlower : Text.lowercase (Stopwatch.operand place) = Stopwatch.operand place := by
    apply Text.lowercase_of_isLower
    revert place
    decide
  have hchars : (Stopwatch.operand place).toList = '^' :: '#' :: (Stopwatch.name place).toList :=
    String.toList_ofList
  unfold systemValue?
  rw [hlower, hchars]
  simp only [String.ofList_toList, Stopwatch.named?_name]
  rfl

theorem Run.signed64_of_lt {n : Nat} (h : n < 2 ^ 63) : signed64 n = n := by
  unfold signed64
  rw [Int.bmod_eq_of_le]
  · simp [UInt64.size]
  · simp only [UInt64.size]
    omega

namespace Session

def handle (s : Session) (owner : Option EntityId) (i : Instance) (event params : String) : Outcome × Session :=
  match i.script.findEvent? (i.state.handlerOf (Text.lowercase event)) with
  | none => (.success, s)
  | some position => s.carryOut owner (s.handlerRun owner i position params) .block

theorem sendEvent_of_found {s : Session} {owner : Option EntityId} {i : Instance}
    (hfound : s.engine.instance? owner = some i) (event params : String) :
    s.sendEvent owner event params =
      if !((s.engine.masterState? owner).getD i.state).allows (Text.lowercase event) then (.abortAccept, s)
      else s.handle owner i event params := by
  simp only [sendEvent, hfound]
  rfl

end Session

namespace Moment

variable {s : Session} {m : Moment} {log : List (Option EntityId × Switch)}

/-- The panels of a history that begins with fresh scripts. -/
theorem Recorded.panel (hfresh : ∀ o i, s.engine.instance? o = some i → ∃ n, i.state = .fresh n)
    (h : Recorded (between s []) log m) {o : Option EntityId} {p : Panel} (hp : m.panel? o = some p) :
    p = Panel.after {} (s.engine.settings o log) := by
  rw [(h.sets trivial).panel, Option.map_eq_some_iff] at hp
  obtain ⟨first, hfirst, rfl⟩ := hp
  rw [panel?, Option.map_eq_some_iff] at hfirst
  obtain ⟨i, hi, rfl⟩ := hfirst
  obtain ⟨n, hn⟩ := hfresh o i hi
  rw [hn]
  rfl

/-- An event is blocked if it was switched off last. -/
theorem Recorded.sendEvent_eq (hfresh : ∀ o i, s.engine.instance? o = some i → ∃ n, i.state = .fresh n)
    {t : Session} (h : Recorded (between s []) log (between t [])) {owner : Option EntityId} {i : Instance}
    (hfound : t.engine.instance? owner = some i) {event : String} {e : Fin 10}
    (hevent : standardEvent? (Text.lowercase event) = some e) (params : String) :
    t.sendEvent owner event params =
      if lastOn? e (s.engine.settings (s.engine.leader owner) log) = some false then (.abortAccept, t)
      else t.handle owner i event params := by
  obtain ⟨j, hleads, hstate⟩ := Engine.instance?_leader hfound
  have hleader : t.engine.leader owner = s.engine.leader owner := (h.sets trivial).leader owner
  have hpanel : j.state.panel = Panel.after {} (s.engine.settings (s.engine.leader owner) log) := by
    refine h.panel hfresh ?_
    rw [← hleader, panel?, hleads]
    rfl
  have hallows : j.state.allows (Text.lowercase event) = !j.state.panel.disabled.contains e := by
    rw [ScriptState.allows, hevent]
    rfl
  rw [Session.sendEvent_of_found hfound, hstate, hallows, Bool.not_not, hpanel]
  simp only [Panel.contains_after]

/-- A stopwatch shows the time since it was started last. -/
theorem Recorded.elapsed_eq (hfresh : ∀ o i, s.engine.instance? o = some i → ∃ n, i.state = .fresh n)
    {t : Session} {slots : List Nat} {l : Loop} {left : Nat}
    (h : Recorded (between s []) log (running t slots l left)) (place : Fin 4) (now : Nat) :
    l.run.leading.elapsed place now =
      clocked place (s.engine.settings (s.engine.leader l.run.owner) log) now := by
  have hsets := h.sets trivial
  have hleader : t.engine.leader l.run.owner = s.engine.leader l.run.owner := hsets.leader _
  refine Panel.elapsed_after (h.panel hfresh ?_) place now
  rw [← hleader, panel?, hsets.formed.panelLeft?, if_pos rfl]
  rfl

/-- From fresh scripts on, while nothing is attached, detached or linked, all scripts with the same leader
see one history of settings. A standard event is blocked if it was switched off last in a run for one of
them; it is accepted then, and nothing changes. A stopwatch shows the time since it was started last in such
a run, or 0 if it has been stopped since, as a signed 64-bit integer. -/
theorem panels_shared (hfresh : ∀ o i, s.engine.instance? o = some i → ∃ n, i.state = .fresh n) :
    (∀ (t : Session) (act : Act), act.AsksScripts →
      ∃ log, Recorded (between t []) log (between (t.after act) [])) ∧
    (∀ (t : Session) log owner i e, Recorded (between s []) log (between t []) →
      t.engine.instance? owner = some i →
        let off := lastOn? e (s.engine.settings (s.engine.leader owner) log) = some false
        (∀ event params, standardEvent? (Text.lowercase event) = some e →
          t.sendEvent owner event params = if off then (.abortAccept, t) else t.handle owner i event params) ∧
        ∀ q, some q.target = owner → standardEvent? (Text.lowercase q.event) = some e →
          t.deliver q = if off then (.abortAccept, t)
            else t.withSender q.sender fun u => u.handle owner i q.event q.params) ∧
    ∀ (t : Session) log slots l left place, Recorded (between s []) log (running t slots l left) →
      ∀ r : Run, r.leading = l.run.leading →
        let count := clocked place (s.engine.settings (s.engine.leader l.run.owner) log) r.world.now
        r.systemValue? (Stopwatch.operand place) = some (.integer (Run.signed64 count)) ∧
          (count < 2 ^ 63 → Run.signed64 count = count) := by
  refine ⟨fun t act hact => recorded_act t hact, ?_, ?_⟩
  · intro t log owner i e h hfound off
    refine ⟨fun event params hevent => h.sendEvent_eq hfresh hfound hevent params, ?_⟩
    rintro q rfl hevent
    have haside : Serves (between t []) none (between { t with sender := q.sender } []) := .aside rfl
    have hthen : Recorded (between s []) log (between { t with sender := q.sender } []) := by
      have hsnoc := h.snoc haside
      have hnone : (between t []).setting? = none := rfl
      rwa [hnone, Option.toList_none, List.append_nil] at hsnoc
    rw [Session.deliver, Session.withSender, hthen.sendEvent_eq hfresh hfound hevent]
    by_cases hoff : lastOn? e (s.engine.settings (s.engine.leader (some q.target)) log) = some false
    · rw [if_pos hoff, if_pos hoff]
    · rw [if_neg hoff, if_neg hoff]
      rfl
  · intro t log slots l left place h r hleading count
    have hvalue : r.systemValue? (Stopwatch.operand place) = some (.integer (Run.signed64 count)) := by
      rw [r.systemValue?_stopwatch, hleading, h.elapsed_eq hfresh]
    exact ⟨hvalue, fun hsmall => Run.signed64_of_lt hsmall⟩

end Moment

def student (master : Option EntityId) : Instance where
  script := .ofText "student" "on init\nstarttimer timer1\non late\nif ^#timer1 < 0\nrefuse\n"
  state := .fresh 0
  master := master

def school : Session where
  engine :=
    { Engine.new { maxSteps := 2 } 0 with
      instances := ((Dict.empty.set 1 (student (some 3))).set 2 (student (some 3))).set 3 (student none) }
  world := { now := 1 }

theorem school_handles : school.Handles (some 1) "init" (student (some 3)) 7 :=
  .of_isLower (by decide) rfl (by decide) (by decide +kernel)

def lesson : Loop := .begin (school.handlerRun (some 1) (student (some 3)) 7 "") .block

def lessonRest : List Char := " timer1\non late\nif ^#timer1 < 0\nrefuse\n".toList

theorem lesson_met : lesson.turn = .met "starttimer" lessonRest :=
  Loop.met_of_read (by decide) (by decide) (fun h => absurd h.1 (by decide))

theorem school_lookup : school.engine.commands.lookup "starttimer" = some ("starttimer", .stopwatch true) := by
  have hcommands : school.engine.commands = .builtin (.ofLegacy true) := by
    simp only [school, Engine.new]
  rw [hcommands]
  exact CommandTable.builtin_knows _ _ _ (by decide)

theorem lesson_switch :
    Exec.switch? school.engine.commands "starttimer" (lesson.run.readTo lessonRest) = some (.started 0 1) := by
  rw [Exec.switch?, school_lookup]
  decide +kernel

def taught : Run := ((Exec.runStopwatch true).run { lesson.run.readTo lessonRest with command := "starttimer" }).2

theorem lesson_outcome :
    ((Exec.runStopwatch true).run { lesson.run.readTo lessonRest with command := "starttimer" }).1 = .success := by
  decide +kernel

theorem lesson_taught :
    (Exec.runWord school.engine.commands "starttimer").run (lesson.run.readTo lessonRest) = (.success, taught) := by
  rw [Exec.runWord_of_lookup school_lookup rfl, Command.execute]
  exact Prod.ext lesson_outcome (by rw [taught])

def taughtRest : List Char := " late\nif ^#timer1 < 0\nrefuse\n".toList

theorem taught_reads : Reading.readCommand taught.rest = ("on", taughtRest) := by decide +kernel

theorem taught_owner : taught.owner = some 1 := by
  have hkeeps := (Loop.carryOut_effect school.engine.commands lesson "starttimer" lessonRest).keeps
  rw [Loop.carryOut_run, lesson_taught] at hkeeps
  exact hkeeps.owner

def schooled : Run := taught.readTo taughtRest

theorem schooled_owner : schooled.owner = some 1 := by
  rw [schooled, Run.owner_readTo, taught_owner]

def laterSchool (now : Nat) : Session where
  engine := (school.finishRun schooled.owner schooled).engine
  world := { now }

theorem laterSchool_handles (now : Nat) : (laterSchool now).Handles (some 2) "late" (student (some 3)) 33 := by
  have hfound : (laterSchool now).engine.instance? (some 2) = some (student (some 3)) := by
    have hleft := school.instance?_finishRun schooled.owner (some 2) schooled
    have hself : (some 2 : Option EntityId) ≠ some 1 := by decide
    have hleader : some 2 ≠ school.engine.leader (some 1) := by decide
    have hbefore : school.engine.instance? (some 2) = some (student (some 3)) := rfl
    rw [hbefore, schooled_owner, Option.map_some] at hleft
    simp only [Session.leftState, hself, hleader, if_false] at hleft
    unfold laterSchool
    dsimp only
    rw [schooled_owner, hleft]
  have hevent : standardEvent? "late" = none := by decide
  exact .of_isLower (by decide) hfound (by rw [ScriptState.allows, hevent]) (by decide +kernel)

def lateLesson (now : Nat) : Loop :=
  .begin ((laterSchool now).handlerRun (some 2) (student (some 3)) 33 "") .block

/-- Entity 1 starts the stopwatch of the master, and some time later a run for entity 2 begins. -/
theorem lateLesson_recorded (now : Nat) :
    Moment.Recorded (.between school []) [(some 1, .started 0 1)]
      (.running (laterSchool now) [] (lateLesson now) (laterSchool now).engine.config.maxSteps) := by
  rcases hcarry : lesson.carryOut school.engine.commands "starttimer" lessonRest with ⟨outcome, next⟩
  have houtcome := Loop.carryOut_outcome school.engine.commands lesson "starttimer" lessonRest
  have hrun := Loop.carryOut_run school.engine.commands lesson "starttimer" lessonRest
  rw [hcarry, lesson_taught] at houtcome hrun
  dsimp only at houtcome hrun
  subst houtcome
  have hended : next.turn = .ended taughtRest := by
    have hmode : next.mode = .block := by
      have hmode := Loop.carryOut_mode school.engine.commands lesson "starttimer" lessonRest rfl
      rwa [hcarry] at hmode
    have hover : ¬next.LineOver := fun h => absurd (hmode.symm.trans h.1) (by decide)
    unfold Loop.turn
    rw [hrun, taught_reads]
    simp [hover]
  have hsetting : Moment.setting? (.running school [] lesson 2) = some (some 1, .started 0 1) := by
    rw [Moment.setting?, lesson_met]
    dsimp only
    rw [lesson_switch]
    rfl
  have hnothing : Moment.setting? (.running school [] next 1) = none := by
    rw [Moment.setting?, hended]
  have hbegun : Moment.Recorded (.between school []) [] (.running school [] lesson 2) :=
    .snoc .nil (.sent school_handles "")
  have hset : Moment.Recorded (.between school []) [(some 1, .started 0 1)] (.running school [] next 1) := by
    have hsnoc := hbegun.snoc (.worked (Moment.work_of_met lesson_met hcarry [] 1))
    rwa [hsetting] at hsnoc
  have hdone : Moment.Recorded (.between school []) [(some 1, .started 0 1)]
      (.between (school.finishRun schooled.owner schooled) []) := by
    have hsnoc := hset.snoc (.worked (Moment.work_of_ended hended school [] 1))
    rwa [hnothing, hrun] at hsnoc
  have haside : Moment.Serves (.between (school.finishRun schooled.owner schooled) []) none
      (.between (laterSchool now) []) := .aside (by rw [laterSchool])
  exact (hdone.snoc haside).snoc (.sent (laterSchool_handles now) "")

theorem school_fresh (o : Option EntityId) (i : Instance) (h : school.engine.instance? o = some i) :
    ∃ n, i.state = .fresh n := by
  cases o with
  | none => cases h
  | some id =>
    change (((Dict.empty.set 1 (student (some 3))).set 2 (student (some 3))).set 3 (student none)).get? id = some i at h
    simp only [Dict.get?_set, Dict.get?_empty] at h
    split_ifs at h <;> exact ⟨0, by cases h; rfl⟩

/-- What entity 1 has set counts for entity 2. -/
theorem lateLesson_settings (now : Nat) :
    school.engine.settings (school.engine.leader (lateLesson now).run.owner) [(some 1, .started 0 1)] =
      [.started 0 1] := by
  change school.engine.settings (school.engine.leader (some 2)) [(some 1, .started 0 1)] = [.started 0 1]
  decide

theorem lateLesson_clocked (now : Nat) :
    clocked 0 (school.engine.settings (school.engine.leader (lateLesson now).run.owner) [(some 1, .started 0 1)])
      (lateLesson now).run.world.now = now - 1 := by
  rw [lateLesson_settings]
  rfl

/-- The integer is not always the count: it has 64 bits and a sign. -/
theorem stopwatch_wraps :
    ¬∀ (s t : Session) log slots l left place,
      (∀ o i, s.engine.instance? o = some i → ∃ n, i.state = .fresh n) →
      Moment.Recorded (.between s []) log (.running t slots l left) →
        l.run.systemValue? (Stopwatch.operand place) =
          some (.integer (clocked place (s.engine.settings (s.engine.leader l.run.owner) log) l.run.world.now)) := by
  intro hexact
  have hrecorded := lateLesson_recorded (2 ^ 63 + 1)
  have hlate := hexact _ _ _ _ _ _ 0 school_fresh hrecorded
  rw [Run.systemValue?_stopwatch, hrecorded.elapsed_eq school_fresh, lateLesson_clocked] at hlate
  cases hlate

/-- After four milliseconds, the variable shows 4 to entity 2, which has not started the stopwatch. -/
theorem panels_shared_school :
    (lateLesson 5).run.systemValue? (Stopwatch.operand 0) = some (.integer 4) := by
  obtain ⟨-, -, hwatch⟩ := Moment.panels_shared school_fresh
  obtain ⟨hvalue, hexact⟩ := hwatch (laterSchool 5) _ [] (lateLesson 5) _ 0 (lateLesson_recorded 5) _ rfl
  rw [lateLesson_clocked] at hvalue hexact
  rw [hvalue, hexact (by decide)]
  rfl

end EntityScript
