import EntityScript.Proofs.Bytes
import EntityScript.Proofs.Stirs

/-! Positions of a history. They come from the index of a script, which points behind headers; from the
place of a run, which reads on from there; and from timers, which remember where words begin. All of
them lie between characters of the text they are positions of, whatever script replaces another. -/

namespace EntityScript

open Text Relation

namespace Header

theorem takeWord_suffix (line : List Char) : (takeWord line).2 <:+ line :=
  (List.dropWhile_suffix _).trans (List.dropWhile_suffix _)

theorem read?_suffix {line rest : List Char} {header : Header} (h : read? line = some (header, rest)) :
    rest <:+ line := by
  unfold read? at h
  split at h
  · rename_i name rest' hword
    cases h
    have hsuffix := takeWord_suffix line
    rwa [hword] at hsuffix
  · rename_i word rest' _ hword
    dsimp only at h
    split at h
    · cases h
      have hsuffix := takeWord_suffix line
      rw [hword] at hsuffix
      exact (takeWord_suffix rest').trans hsuffix
    · cases h

end Header

theorem Text.lines_cons (cs : List Char) :
    lines cs = cs.takeWhile (· != '\n') ::
      match cs.dropWhile (· != '\n') with
      | [] => []
      | _ :: rest => lines rest := by
  induction cs with
  | nil => rfl
  | cons c cs ih =>
    by_cases hc : c = '\n'
    · simp [lines, pieces, hc]
    · rw [lines] at ih ⊢
      simp [pieces, hc, ih]

/-- Headers end between characters of the text. -/
theorem Header.fits_ofLines (before cs : List Char) {header : Header} {position : Nat}
    (h : (header, position) ∈ ofLines (size before) (lines cs)) : Fits (before ++ cs) position := by
  have hsplit : cs.takeWhile (· != '\n') ++ cs.dropWhile (· != '\n') = cs := List.takeWhile_append_dropWhile
  rw [lines_cons] at h
  have hlater : (header, position) ∈ ofLines (size before + size (cs.takeWhile (· != '\n')) + 1)
      (match cs.dropWhile (· != '\n') with
        | [] => []
        | _ :: rest => lines rest) → Fits (before ++ cs) position := by
    intro hmem
    cases hdrop : cs.dropWhile (· != '\n') with
    | nil =>
      rw [hdrop] at hmem
      cases hmem
    | cons c rest =>
      rw [hdrop] at hmem hsplit
      have hc : c = '\n' := Reading.eq_of_dropWhile_ne hdrop
      have hlt : rest.length < cs.length := by
        rw [← hsplit, List.length_append, List.length_cons]
        omega
      have hstart : size (before ++ cs.takeWhile (· != '\n') ++ ['\n']) =
          size before + size (cs.takeWhile (· != '\n')) + 1 := by
        rw [size_append, size_append]
        rfl
      have hfits := fits_ofLines (before ++ cs.takeWhile (· != '\n') ++ ['\n']) rest (hstart ▸ hmem)
      rw [← hsplit, hc]
      simpa using hfits
  rw [ofLines] at h
  cases hread : read? (cs.takeWhile (· != '\n')) with
  | none =>
    rw [hread] at h
    exact hlater h
  | some found =>
    obtain ⟨first, rest⟩ := found
    rw [hread, List.mem_cons] at h
    rcases h with h | h
    · cases h
      obtain ⟨front, hline⟩ := read?_suffix hread
      refine fits_iff.2 ⟨before ++ front, rest ++ cs.dropWhile (· != '\n'), ?_, ?_⟩
      · rw [List.append_assoc, ← List.append_assoc front, hline, hsplit]
      · rw [← hline, positionOf_append, size_append]
    · exact hlater h
termination_by cs.length

/-- A position in an index was there before positions were added to it, or is one of those. -/
theorem of_firstPositions {found : List (String × Nat)} {index : Dict String Nat} {name : String}
    {position : Nat}
    (h : (found.foldl (fun index (name, position) =>
      if index.contains name then index else index.set name position) index).get? name = some position) :
    index.get? name = some position ∨ (name, position) ∈ found := by
  induction found generalizing index with
  | nil => exact .inl h
  | cons first found ih =>
    obtain ⟨firstName, firstPosition⟩ := first
    rw [List.foldl_cons] at h
    rcases ih h with hget | hmem
    · dsimp only at hget
      split at hget
      · exact .inl hget
      · rw [Dict.get?_set] at hget
        split at hget
        · rename_i hname
          cases hget
          rw [hname]
          exact .inr List.mem_cons_self
        · exact .inl hget
    · exact .inr (List.mem_cons_of_mem _ hmem)

theorem mem_of_firstPositions {found : List (String × Nat)} {name : String} {position : Nat}
    (h : (firstPositions found).get? name = some position) : (name, position) ∈ found := by
  rcases of_firstPositions h with hget | hmem
  · cases hget
  · exact hmem

namespace Script

def IndexFits (s : Script) : Prop := ∀ name position,
  s.events.get? name = some position ∨ s.labels.get? name = some position → Fits s.text position

/-- Every position in the index is the one behind some header of the text. -/
theorem header_of_position {name text key : String} {position : Nat}
    (h : (ofText name text).events.get? key = some position ∨ (ofText name text).labels.get? key = some position) :
    ∃ header, (header, position) ∈ Header.all text.toList := by
  rcases h with h | h
  · obtain ⟨⟨header, position'⟩, hmem, hevent⟩ := List.mem_filterMap.1 (mem_of_firstPositions h)
    cases header with
    | label => cases hevent
    | event event =>
      cases hevent
      exact ⟨_, hmem⟩
  · obtain ⟨⟨header, position'⟩, hmem, hlabel⟩ := List.mem_filterMap.1 (mem_of_firstPositions h)
    cases header with
    | event => cases hlabel
    | label label =>
      cases hlabel
      exact ⟨_, hmem⟩

theorem ofText_indexFits (name text : String) : (ofText name text).IndexFits := by
  intro key position h
  obtain ⟨header, hmem⟩ := header_of_position h
  exact Header.fits_ofLines [] text.toList hmem

end Script

theorem Text.Place.offset_readTo {p : Place} (h : p.offset = 0) (rest : List Char) :
    (p.readTo rest).offset = 0 := by
  unfold readTo
  split
  · exact h
  · rfl

/-- The position of a place that is neither inside a character nor beyond the end. -/
theorem Text.Place.position_eq {p : Place} (h : p.offset = 0) (text : List Char) :
    p.position text = positionOf text p.rest := by
  rw [position, h]
  omega

structure Run.Sound (r : Run) : Prop where
  script : r.script.IndexFits
  text : r.InText
  place : r.place.offset = 0
  calls : ∀ p ∈ r.calls.places, p.offset = 0

theorem Follows.sound {r s : Run} (h : Follows r s) (hr : r.Sound) : s.Sound where
  script := by
    rw [h.script]
    exact hr.script
  text := h.inText hr.text
  place := by
    rcases h.place with hplace | hplace
    · rw [hplace]
      exact hr.place
    · rw [hplace]
      exact Place.offset_readTo hr.place _
  calls := by
    rw [h.calls]
    exact hr.calls

theorem Run.Sound.withCommand {r : Run} (h : r.Sound) (word : String) : Run.Sound { r with command := word } :=
  ⟨h.script, Run.inText_withCommand h.text word, h.place, h.calls⟩

theorem Exec.Effect.sound {table : CommandTable} {word : String} {r s : Run} {outcome : Outcome}
    (h : Effect table word r outcome s) (hr : r.Sound) : s.Sound := by
  have htext := h.inText hr.text
  have hword := hr.withCommand word
  have hread := (readLabel_follows word r).sound hword
  have hlanded : ∀ {label position}, r.script.findLabel? label = some position →
      (r.script.placeAt position).offset = 0 :=
    fun hlabel => (hr.script _ _ (.inr hlabel)).ofPosition
  have hscript : s.script.IndexFits := by
    rw [h.keeps.script]
    exact hr.script
  cases h with
  | passedOver _ h => exact (follows_of_changes h).sound hr
  | small _ _ _ h hskip => exact hskip.follows.sound ((follows_of_changes h).sound hword)
  | went _ hlabel h => exact ⟨hscript, htext, hlanded hlabel, ((follows_of_changes h).sound hread).calls⟩
  | called _ hlabel =>
    refine ⟨hscript, htext, hlanded hlabel, fun p hp => ?_⟩
    rcases List.mem_cons.1 hp with rfl | hp
    · exact hread.place
    · exact hr.calls p hp
  | @returned _ place calls _ hpop =>
    have hplaces := hr.calls
    rw [CallStack.places_of_pop? hpop, List.forall_mem_cons] at hplaces
    exact ⟨hscript, htext, hplaces.1, hplaces.2⟩
  | refused _ _ h => exact (follows_of_changes h).sound hread
  | stuck _ _ h => exact (follows_of_changes h).sound hword

/-- A timer that fits its script: its statement begins between characters of the text. -/
structure Timer.Sound (t : Timer) : Prop where
  script : t.script.IndexFits
  resumeAt : Fits t.script.text t.resumeAt

theorem Timer.Alike.sound {t u : Timer} (h : t.Alike u) (ht : t.Sound) : u.Sound := by
  refine ⟨?_, ?_⟩
  · rw [h.script]
    exact ht.script
  · rw [h.script, h.resumeAt]
    exact ht.resumeAt

/-- Where a new timer resumes, a word begins that the command found on its line. -/
theorem Exec.timerDeed_resumes {r : Run} {t : Timer} (hr : r.Sound) (h : timerDeed r = .place t) :
    ∃ n token, Reading.nextToken (Reading.dropToken^[n] r.rest) = some token ∧
      Reading.dropToken^[n] r.rest <:+ r.script.text ∧ t.resumeAt = r.script.positionOf token.start := by
  obtain ⟨-, -, -, -, s, n, hs, hrest, hskip⟩ := timerDeed_place h
  have hfollows := follows_of_changes hs
  have hsound := hfollows.sound hr
  have houtside : s.place.insideChar = false := by
    rw [Place.insideChar, hsound.place]
    rfl
  obtain ⟨token, htoken, hposition⟩ := of_skipLine houtside hskip
  rw [hrest] at htoken
  rw [hfollows.script] at hposition
  refine ⟨n, token, htoken, ?_, hposition⟩
  rw [← hrest]
  exact hfollows.rest.trans hr.text.place

theorem Exec.timerDeed_sound {r : Run} {t : Timer} (hr : r.Sound) (h : timerDeed r = .place t) : t.Sound := by
  obtain ⟨-, -, hscript, -⟩ := timerDeed_place h
  obtain ⟨n, token, htoken, hsuffix, hresume⟩ := timerDeed_resumes hr h
  refine ⟨?_, ?_⟩
  · rw [hscript]
    exact hr.script
  · rw [hscript, hresume]
    exact fits_positionOf ((Reading.nextToken_suffix htoken).2.trans hsuffix)

/-- A run from a position that fits is sound in the beginning. -/
theorem Session.startRun_sound {s : Session} {owner : Option EntityId} {own : ScriptState} {script : Script}
    {position : Nat} {params : List String} (hscript : script.IndexFits) (h : Fits script.text position) :
    (s.startRun owner own script position params).Sound where
  script := hscript
  text := ⟨Place.ofPosition_suffix _ _, fun _ hp => absurd hp List.not_mem_nil⟩
  place := h.ofPosition
  calls := fun _ hp => absurd hp List.not_mem_nil

namespace Engine

def Sound (e : Engine) : Prop := ∀ owner i, e.instance? owner = some i → i.script.IndexFits

namespace Sound

variable {e : Engine} (h : e.Sound)
include h

theorem attach (id : EntityId) {script : Script} (hscript : script.IndexFits) : (e.attach id script).Sound := by
  intro owner i hi
  rw [instance?_attach] at hi
  split at hi
  · cases hi
    exact hscript
  · exact h owner i hi

theorem detach (id : EntityId) : (e.detach id).Sound := by
  intro owner i hi
  rw [instance?_detach] at hi
  split at hi
  · cases hi
  · exact h owner i hi

theorem setMaster (id : EntityId) (master : Option EntityId) : (e.setMaster id master).2.1.Sound := by
  intro owner i hi
  rw [instance?_setMaster] at hi
  split at hi
  · obtain ⟨i', hi', rfl⟩ := Option.map_eq_some_iff.1 hi
    exact h owner i' hi'
  · exact h owner i hi

theorem setGlobalScript {script : Script} (hscript : script.IndexFits) : (e.setGlobalScript script).Sound := by
  intro owner i hi
  rw [instance?_setGlobalScript] at hi
  split at hi
  · cases hi
    exact hscript
  · exact h owner i hi

end Sound

end Engine

namespace Moment

def Runs (P : Run → Prop) : Moment → Prop
  | between _ _ => True
  | running _ _ l _ => P l.run

structure Sound (m : Moment) : Prop where
  engine : m.engine.Sound
  timers : ∀ i t, m.timers.get? i = some t → t.Sound
  run : m.Runs Run.Sound

theorem sound_of_stir {p q : TimerPool} {incident : Option Incident} (h : Stir p incident q)
    (hp : ∀ i t, p.get? i = some t → t.Sound) (hr : ∀ r, incident = some (.ordered r) → r.Sound) :
    ∀ i t, q.get? i = some t → t.Sound := by
  intro i u hi
  rcases h.origin hi with ⟨t, ht, halike⟩ | ⟨r, q', hincident, -, hplaced⟩
  · exact halike.sound (hp i t ht)
  · exact Exec.timerDeed_sound (hr r hincident) (TimerDeed.of_placed hplaced).1

theorem sound_of_readTo {r : Run} {rest : List Char} (h : r.Sound) (hrest : rest <:+ r.rest) :
    (r.readTo rest).Sound :=
  (Follows.readTo hrest).sound h

theorem order_of_incident {order : Option Run} {r : Run}
    (h : order.map Incident.ordered = some (.ordered r)) : order = some r := by
  rw [Option.map_eq_some_iff] at h
  obtain ⟨o, horder, ho⟩ := h
  cases ho
  exact horder

/-- A timer command begins where its run has read its word. -/
theorem sound_of_order {table : CommandTable} {l : Loop} {word : String} {rest : List Char} {r : Run}
    (hl : l.run.Sound) (hmet : l.turn = .met word rest)
    (h : Exec.order? table word (l.run.readTo rest) = some r) : r.Sound := by
  rw [(Exec.of_order h).2]
  exact (sound_of_readTo hl (rest_of_met hmet)).withCommand word

theorem engine_sound_of_finishRun {s : Session} {owner : Option EntityId} {r : Run} (h : s.engine.Sound) :
    (s.finishRun owner r).engine.Sound := by
  intro other i hi
  have hscript := s.script_finishRun owner other r
  rw [hi, Option.map_some, eq_comm, Option.map_eq_some_iff] at hscript
  obtain ⟨i', hi', hsame⟩ := hscript
  rw [← hsame]
  exact h other i' hi'

theorem engine_sound_of_polls {s t : Session} {slot : Nat} {timer? : Option Timer}
    (h : s.Polls slot timer? t) (hs : s.engine.Sound) : t.engine.Sound := by
  intro owner i hi
  refine hs owner i ?_
  cases h <;> cases owner <;> exact hi

theorem Worked.sound {m next : Moment} {incident : Option Incident} (h : Worked m incident next)
    (hm : m.Sound) : next.Sound := by
  have hstir := h.stirs
  cases h with
  | looked h =>
    exact ⟨engine_sound_of_polls h hm.engine, sound_of_stir hstir hm.timers (fun r hr => by cases hr), trivial⟩
  | fired h hfound =>
    refine ⟨engine_sound_of_polls h hm.engine, sound_of_stir hstir hm.timers (fun r hr => by cases hr), ?_⟩
    have hsound := hm.timers _ _ hstir.held
    exact Session.startRun_sound hsound.script hsound.resumeAt
  | passed h =>
    refine ⟨hm.engine, sound_of_stir hstir hm.timers (fun r hr => by cases hr), ?_⟩
    rw [Runs, Loop.run_of_passed h]
    exact sound_of_readTo hm.run (Reading.readCommand_suffix _)
  | ended =>
    exact ⟨engine_sound_of_finishRun hm.engine, sound_of_stir hstir hm.timers (fun r hr => by cases hr), trivial⟩
  | carried hmet hcarry =>
    refine ⟨hm.engine, sound_of_stir hstir hm.timers fun r hr => sound_of_order hm.run hmet (order_of_incident hr), ?_⟩
    exact (Loop.effect_of_carryOut hcarry).sound (sound_of_readTo hm.run (rest_of_met hmet))
  | stopped hmet hcarry =>
    exact ⟨engine_sound_of_finishRun hm.engine,
      sound_of_stir hstir hm.timers fun r hr => sound_of_order hm.run hmet (order_of_incident hr), trivial⟩

theorem Step.sound {m next : Moment} {incident : Option Incident} (h : Step m incident next)
    (hm : m.Sound) : next.Sound := by
  have hstir := h.stirs
  cases h with
  | @aside s t h =>
    refine ⟨?_, sound_of_stir hstir hm.timers (fun r hr => by cases hr), trivial⟩
    rw [engine, h]
    exact hm.engine
  | attached s id name text => exact ⟨hm.engine.attach id (Script.ofText_indexFits name text), hm.timers, trivial⟩
  | detached s id =>
    exact ⟨hm.engine.detach id, sound_of_stir hstir hm.timers (fun r hr => by cases hr), trivial⟩
  | linked s id master =>
    exact ⟨hm.engine.setMaster id master, sound_of_stir hstir hm.timers (fun r hr => by cases hr), trivial⟩
  | globalSet s name text =>
    exact ⟨hm.engine.setGlobalScript (Script.ofText_indexFits name text), hm.timers, trivial⟩
  | sent h params =>
    have hscript := hm.engine _ _ h.found
    exact ⟨hm.engine, hm.timers, Session.startRun_sound hscript (hscript _ _ (.inl h.handler))⟩
  | ticked s => exact ⟨hm.engine, hm.timers, trivial⟩
  | worked h => exact h.worked.sound hm

/-- In the history of a new engine every moment is sound. -/
theorem Path.sound {config : Config} {seed : Nat} {s : Session} {m : Moment} {log : List Incident}
    (hnew : s.engine = .new config seed) (h : Path (between s []) log m) : m.Sound := by
  refine h.keeps (fun _ _ _ hstep => hstep.sound) ⟨?_, ?_, trivial⟩
  · rw [engine, hnew]
    intro owner i hi
    cases owner <;> cases hi
  · rw [timers, Session.timers, hnew]
    intro i t hi
    rw [Engine.new, TimerPool.get?_withCapacity] at hi
    cases hi

/-- In every history of a new engine, whatever scripts are attached and replaced, the positions in the
index of every script fit its text, and every timer resumes at a position that fits its own script. While
a run is on its way, the places it returns to fit its text, and wherever it reads on to, the position
fits and what is read from there is cut out at positions that fit. -/
theorem positions_fit {config : Config} {seed : Nat} {s : Session} {m : Moment} {log : List Incident}
    (hnew : s.engine = .new config seed) (hpath : Path (between s []) log m) :
    (∀ owner i, m.engine.instance? owner = some i → i.script.IndexFits) ∧
      (∀ slot t, m.timers.get? slot = some t →
        t.script.IndexFits ∧ Fits t.script.text t.resumeAt) ∧
      m.Runs fun r => r.script.IndexFits ∧
        (∀ p ∈ r.calls.places, Fits r.script.text (p.position r.script.text)) ∧
        ∀ rest, rest <:+ r.rest → ReadsFit r.script.text rest (r.readTo rest).position := by
  have hsound := hpath.sound hnew
  refine ⟨hsound.engine, fun slot t ht => ?_, ?_⟩
  · have htimer := hsound.timers slot t ht
    exact ⟨htimer.script, htimer.resumeAt⟩
  · cases m with
    | between => trivial
    | running s slots l left =>
      have hrun : l.run.Sound := hsound.run
      refine ⟨hrun.script, fun p hp => ?_, fun rest hrest => ?_⟩
      · rw [Place.position_eq (hrun.calls p hp)]
        exact fits_positionOf (hrun.text.calls p hp)
      · have hread : (l.run.readTo rest).Sound := sound_of_readTo hrun hrest
        have hsuffix : rest <:+ l.run.script.text := hrest.trans hrun.text.place
        rw [Run.position, Place.position_eq hread.place]
        change ReadsFit _ rest (positionOf _ (l.run.readTo rest).rest)
        rw [Run.rest_readTo]
        exact readsFit hsuffix

end Moment

def clock : Session := { engine := .new { timerPoolSize := 1, maxSteps := 1 } 0 }

def chime : Instance := clock.engine.fresh (.ofText "chime" "on init\ntimer 1 5 nächste stunde\n")

def clockwork : Session := clock.after (.attach 1 "chime" "on init\ntimer 1 5 nächste stunde\n")

theorem clockwork_handles : clockwork.Handles (some 1) "init" chime 7 where
  found := rfl
  allowed := by
    rw [lowercase_of_isLower (by decide)]
    decide
  handler := by
    rw [lowercase_of_isLower (by decide)]
    decide +kernel

def winding : Loop := .begin (clockwork.handlerRun (some 1) chime 7 "") .block

def windingRest : List Char := " 1 5 nächste stunde\n".toList

theorem winding_met : winding.turn = .met "timer" windingRest :=
  Loop.met_of_read (by decide) (by decide) (fun h => absurd h.1 (by decide))

theorem winding_order :
    Exec.order? clockwork.engine.commands "timer" (winding.run.readTo windingRest) =
      some { winding.run.readTo windingRest with command := "timer" } := by
  have hlookup := CommandTable.builtin_knows (.ofLegacy true) "timer" .timer (by decide)
  have hcommands : clockwork.engine.commands = .builtin (.ofLegacy true) := by
    simp only [clockwork, Session.after, Engine.attach, clock, Engine.new]
  rw [Exec.order?, hcommands, hlookup]

def wound : Loop := (winding.carryOut clockwork.engine.commands "timer" windingRest).2

theorem winding_carried : winding.carryOut clockwork.engine.commands "timer" windingRest =
    ((winding.carryOut clockwork.engine.commands "timer" windingRest).1, wound) := by
  have hwound : (winding.carryOut clockwork.engine.commands "timer" windingRest).2 = wound := by rw [wound]
  exact (Prod.eta _).symm.trans (congrArg (Prod.mk _) hwound)

theorem wound_timers : (wound.run.timers.get? 0).map Timer.resumeAt = some 18 := by
  rw [Moment.timers_of_carryOut winding_carried, winding_order]
  decide +kernel

def windingDone : Moment :=
  if (winding.carryOut clockwork.engine.commands "timer" windingRest).1.isAbort then
    .afterRun clockwork [] wound.run
  else .running clockwork [] wound 0

theorem winding_path : Moment.Path (.between clock [])
    [.ordered { winding.run.readTo windingRest with command := "timer" }] windingDone := by
  have hsent : Moment.Step (.between clockwork []) none (.running clockwork [] winding 1) :=
    .sent clockwork_handles ""
  have hset : Moment.Work (.running clockwork [] winding 1)
      (some (.ordered { winding.run.readTo windingRest with command := "timer" })) windingDone := by
    have hwork := Moment.work_of_met winding_met winding_carried [] 0
    rwa [winding_order, Option.map_some, ← windingDone] at hwork
  exact .quiet (.attached clock 1 "chime" "on init\ntimer 1 5 nächste stunde\n")
    (.quiet hsent (.known (.worked hset) (.nil _)))

theorem windingDone_timers : windingDone.timers = wound.run.timers := by
  unfold windingDone
  split
  · exact Moment.timers_afterRun _ _ _
  · rfl

/-- The timer resumes at the first byte of a word whose second character takes two bytes. -/
theorem positions_fit_winding :
    ∃ t, windingDone.timers.get? 0 = some t ∧ t.resumeAt = 18 ∧ Fits t.script.text 18 := by
  have hresume := wound_timers
  rw [← windingDone_timers, Option.map_eq_some_iff] at hresume
  obtain ⟨t, ht, hposition⟩ := hresume
  have hnew : clock.engine = .new { timerPoolSize := 1, maxSteps := 1 } 0 := rfl
  obtain ⟨-, htimers, -⟩ := Moment.positions_fit hnew winding_path
  refine ⟨t, ht, hposition, ?_⟩
  have hfits := (htimers 0 t ht).2
  rwa [hposition] at hfits

end EntityScript
