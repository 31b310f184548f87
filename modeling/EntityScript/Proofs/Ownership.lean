import EntityScript.Proofs.Cursor

/-! What the pool looks like in every history of a new engine. A command that sets a timer first takes
away those of its name and owner, and nothing else sets one, so no two timers share both. Where a timer
came from, `Path.origin` tells; the moment before it was set tells where it resumes. -/

namespace EntityScript

open Reading

namespace TimerPool

/-- No two slots hold timers of one name and owner. -/
def Distinct (p : TimerPool) : Prop := ∀ i j t u, p.get? i = some t → p.get? j = some u →
  t.name = u.name → t.owner = u.owner → i = j

/-- A pool that only keeps what another holds is distinct if that one is. -/
theorem Distinct.of_kept {p q : TimerPool} (h : p.Distinct)
    (hkept : ∀ i u, q.get? i = some u → ∃ t, p.get? i = some t ∧ t.Alike u) : q.Distinct := by
  intro i j t u hi hj hname howner
  obtain ⟨t', ht', hliket⟩ := hkept i t hi
  obtain ⟨u', hu', hlikeu⟩ := hkept j u hj
  rw [hliket.name, hlikeu.name] at hname
  rw [hliket.owner, hlikeu.owner] at howner
  exact h i j t' u' ht' hu' hname howner

end TimerPool

namespace TimerDeed

variable {d : TimerDeed} {p q : TimerPool} {t u : Timer} {slot : Nat}

/-- The timers of the name and owner of a new one are gone. -/
theorem removes_of_placed (hplaced : d.placed? p = some (slot, u, q)) (hname : t.name = u.name)
    (howner : t.owner = u.owner) : d.removes t = true := by
  rw [(of_placed hplaced).1, removes, Timer.hasKey, hname, howner]
  simp

theorem distinct_apply (h : p.Distinct) : (d.apply p).Distinct := by
  intro i j t u hi hj hname howner
  rcases of_get?_apply hi with ⟨hi, hkeepi⟩ | ⟨q, hplacedi⟩ <;>
    rcases of_get?_apply hj with ⟨hj, hkeepj⟩ | ⟨q', hplacedj⟩
  · exact h i j t u hi hj hname howner
  · rw [removes_of_placed hplacedj hname howner] at hkeepi
    cases hkeepi
  · rw [removes_of_placed hplacedi hname.symm howner.symm] at hkeepj
    cases hkeepj
  · -- a deed places one timer only
    rw [hplacedi] at hplacedj
    cases hplacedj
    rfl

end TimerDeed

structure TimerPool.Orderly (p : TimerPool) : Prop where
  distinct : p.Distinct
  counted : p.Counted
  /-- Whoever waits for the owner to be idle has an owner. -/
  owned : ∀ i t, p.get? i = some t → t.idleOnly = true → t.owner.isSome = true

namespace TimerPool

theorem orderly_withCapacity (n : Nat) : (withCapacity n).Orderly where
  distinct i j t u hi := by
    rw [get?_withCapacity] at hi
    cases hi
  counted := counted_withCapacity n
  owned i t hi := by
    rw [get?_withCapacity] at hi
    cases hi

end TimerPool

namespace Stir

variable {p q : TimerPool} {incident : Option Incident}

theorem distinct (h : Stir p incident q) (hp : p.Distinct) : q.Distinct := by
  have hkept (hnone : ∀ r, incident ≠ some (.ordered r)) : q.Distinct :=
    hp.of_kept fun i u hi => (h.origin hi).resolve_right fun ⟨r, _, hr, _⟩ => hnone r hr
  cases h with
  | ordered r => exact TimerDeed.distinct_apply hp
  | _ => exact hkept fun r hr => nomatch hr

theorem owned (h : Stir p incident q)
    (hp : ∀ i t, p.get? i = some t → t.idleOnly = true → t.owner.isSome = true) :
    ∀ i t, q.get? i = some t → t.idleOnly = true → t.owner.isSome = true := by
  intro i u hi hidle
  rcases h.origin hi with ⟨t, ht, halike⟩ | ⟨r, q', -, -, hplaced⟩
  · rw [halike.owner]
    exact hp i t ht (halike.idleOnly.symm.trans hidle)
  · obtain ⟨-, -, -, howned, -⟩ := Exec.timerDeed_place (TimerDeed.of_placed hplaced).1
    exact howned hidle

theorem orderly (h : Stir p incident q) (hp : p.Orderly) : q.Orderly :=
  ⟨h.distinct hp.distinct, h.counted hp.counted, h.owned hp.owned⟩

end Stir

namespace Reading

theorem iterate_dropToken_onLine (n : Nat) (cs : List Char) : OnLine cs (dropToken^[n] cs) := by
  induction n with
  | zero => exact .refl cs
  | succ n ih =>
    rw [Function.iterate_succ_apply']
    exact ih.trans (dropToken_onLine _)

end Reading

/-- The timer is one that the run asks for when it has read its command in the script of the timer. On
the line of the command, words further on, begins the word where the timer resumes. -/
structure Timer.AskedBy (t : Timer) (r : Run) : Prop where
  script : t.script = r.script
  owner : t.owner = r.owner
  resumes : ∃ cs n token, cs <:+ t.script.text ∧ readCommand cs = (r.command, r.rest) ∧
    nextToken (dropToken^[n] r.rest) = some token ∧ OnLine (dropFiller false cs) token.start ∧
    t.resumeAt = t.script.positionOf token.start

theorem Timer.AskedBy.alike {t u : Timer} {r : Run} (h : t.AskedBy r) (halike : t.Alike u) : u.AskedBy r where
  script := halike.script.trans h.script
  owner := halike.owner.trans h.owner
  resumes := by
    rw [halike.script, halike.resumeAt]
    exact h.resumes

namespace Moment

/-- A timer command is carried out by the run that is on its way. -/
theorem Step.of_ordered {m next : Moment} {r : Run} (h : Step m (some (.ordered r)) next) :
    ∃ s slots l left word rest, m = running s slots l left ∧ l.turn = .met word rest ∧
      Exec.order? s.engine.commands word (l.run.readTo rest) = some r := by
  generalize hincident : some (Incident.ordered r) = incident at h
  cases h with
  | worked h =>
    cases h.worked with
    | carried hmet | stopped hmet => exact ⟨_, _, _, _, _, _, rfl, hmet, order_of_incident hincident.symm⟩
    | _ => cases hincident
  | _ => cases hincident

/-- A timer that is set is one that its run asks for. -/
theorem asked_of_order {table : CommandTable} {l : Loop} {word : String} {rest : List Char} {r : Run}
    {t : Timer} (hl : l.run.Sound) (hmet : l.turn = .met word rest)
    (horder : Exec.order? table word (l.run.readTo rest) = some r) (hplace : Exec.timerDeed r = .place t) :
    t.AskedBy r := by
  obtain ⟨-, howner, hscript, -⟩ := Exec.timerDeed_place hplace
  obtain ⟨n, token, htoken, -, hresume⟩ := Exec.timerDeed_resumes (sound_of_order hl hmet horder) hplace
  have hread : readCommand l.run.rest = (r.command, r.rest) := by
    rw [(Exec.of_order horder).2, (Loop.eq_of_met hmet).1]
    exact congrArg (word, ·) (Run.rest_readTo l.run rest).symm
  have htext : l.run.rest <:+ t.script.text := by
    rw [hscript, (Exec.of_order horder).2]
    exact hl.text.place
  have hword : OnLine (dropFiller false l.run.rest) r.rest := by
    have hline := readCommand_onLine l.run.rest
    rwa [hread] at hline
  refine ⟨hscript, howner, l.run.rest, n, token, htext, hread, htoken, ?_, ?_⟩
  · exact (hword.trans (iterate_dropToken_onLine n r.rest)).trans (start_onLine htoken)
  · rw [hscript]
    exact hresume

theorem Path.orderly {m last : Moment} {log : List Incident} (h : Path m log last) (hm : m.timers.Orderly) :
    last.timers.Orderly :=
  h.keeps (fun _ _ _ hstep => hstep.stirs.orderly) hm

theorem Path.capacity {m last : Moment} {log : List Incident} (h : Path m log last) :
    last.timers.capacity = m.timers.capacity := by
  induction h with
  | nil => rfl
  | cons hstep _ ih => exact ih.trans hstep.stirs.capacity

/-- In every history of a new engine, no two slots hold timers of one name and owner. The timers are
counted, and there are never more of them than the slots the pool began with. A timer that waits for its
owner to be idle has an owner. Every timer was put into its slot by a command of its owner, and it resumes
at the first byte of a word that stands on the line of this command. -/
theorem timers_owned {config : Config} {seed : Nat} {s : Session} {m : Moment} {log : List Incident}
    (hnew : s.engine = .new config seed) (hpath : Path (between s []) log m) :
    m.timers.Orderly ∧ m.timers.capacity = config.timerPoolSize ∧ m.timers.active ≤ config.timerPoolSize ∧
      ∀ slot t, m.timers.get? slot = some t →
        ∃ r u q, .ordered r ∈ log ∧ (Exec.timerDeed r).placed? r.timers = some (slot, u, q) ∧
          u.Alike t ∧ t.AskedBy r := by
  have hstart : (between s []).timers = .withCapacity config.timerPoolSize := by
    rw [timers, Session.timers, hnew]
    rfl
  have horderly := hpath.orderly (hstart ▸ TimerPool.orderly_withCapacity _)
  have hcapacity : m.timers.capacity = config.timerPoolSize := by
    rw [hpath.capacity, hstart, TimerPool.capacity, TimerPool.withCapacity, Array.size_replicate]
  refine ⟨horderly, hcapacity, hcapacity ▸ horderly.counted.le_capacity, fun slot t ht => ?_⟩
  rcases hpath.origin ht with ⟨u, hu, -⟩ | ⟨r, u, q, hr, hplaced, halike⟩
  · rw [hstart, TimerPool.get?_withCapacity] at hu
    cases hu
  · obtain ⟨before, after, hlog⟩ := List.append_of_mem hr
    obtain ⟨m', next, hbefore, hstep, -⟩ := hpath.split hlog
    obtain ⟨s', slots, l, left, word, rest, rfl, hmet, horder⟩ := hstep.of_ordered
    have hrun : l.run.Sound := (Path.sound hnew hbefore).run
    have hasked := asked_of_order hrun hmet horder (TimerDeed.of_placed hplaced).1
    exact ⟨r, u, q, hr, hplaced, halike, hasked.alike halike⟩

end Moment

/-- The one timer of the clock was set by the one command of its script. -/
theorem timers_owned_winding :
    windingDone.timers.active ≤ 1 ∧
      ∃ t, windingDone.timers.get? 0 = some t ∧
        t.AskedBy { winding.run.readTo windingRest with command := "timer" } := by
  have hresume := wound_timers
  rw [← windingDone_timers, Option.map_eq_some_iff] at hresume
  obtain ⟨t, ht, -⟩ := hresume
  have hnew : clock.engine = .new { timerPoolSize := 1, maxSteps := 1 } 0 := rfl
  obtain ⟨-, -, hactive, horigin⟩ := Moment.timers_owned hnew winding_path
  obtain ⟨r, u, q, hr, -, -, hasked⟩ := horigin 0 t ht
  cases List.mem_singleton.1 hr
  exact ⟨hactive, t, ht, hasked⟩

end EntityScript
