import EntityScript.Proofs.Moments

/-! What runs do to the world. All they do is to send events, so whatever holds of this, and of doing it
again and again, holds of a run, a call and a tick from beginning to end. -/

namespace EntityScript

open Relation

namespace Registry

theorem exists_id_place (e : Entity) (id : EntityId) (l : List Entity) :
    (∃ f ∈ place e l, f.id = id) ↔ e.id = id ∨ ∃ f ∈ l, f.id = id := by
  induction l with
  | nil => simp [place]
  | cons g l ih =>
    rw [place]
    split
    · simp
    · split
      · rename_i heq
        simp [heq]
      · simp only [List.mem_cons, exists_eq_or_imp, ih]
        exact or_left_comm

theorem isSome_get?_iff {r : Registry} {id : EntityId} :
    (r.get? id).isSome = true ↔ ∃ e ∈ r.entities, e.id = id := by
  rw [get?, List.find?_isSome]
  simp

theorem id_of_get? {r : Registry} {e : Entity} {id : EntityId} (h : r.get? id = some e) : e.id = id := by
  simpa using List.find?_some h

/-- Changing an entity neither adds nor removes one. -/
theorem isSome_get?_update (r : Registry) (id j : EntityId) (change : Entity → Entity) :
    ((r.update id change).get? j).isSome = (r.get? j).isSome := by
  unfold update
  cases hget : r.get? id with
  | none => rfl
  | some e =>
    have hthere : ∃ f ∈ r.entities, f.id = id := isSome_get?_iff.1 (by rw [hget]; rfl)
    rw [Bool.eq_iff_iff, isSome_get?_iff, isSome_get?_iff, exists_id_place]
    constructor
    · rintro (rfl | hother)
      · exact hthere
      · exact hother
    · exact .inr

end Registry

/-- The relation holds between the worlds before and after an event is sent, however often. -/
structure World.Course (R : World → World → Prop) : Prop where
  refl : ∀ w, R w w
  trans : ∀ {w v u}, R w v → R v u → R w u
  send : ∀ {w v : World} {owner : Option EntityId} {sender : Entity} {d : Dispatch},
    owner.bind w.entities.get? = some sender → d.send w sender = .ok v → R w v

namespace World.Course

/-- An event goes out to one target after the other, so it is enough to send it to one. -/
theorem of_sendTo {R : World → World → Prop} (refl : ∀ w, R w w)
    (trans : ∀ {w v u}, R w v → R v u → R w u)
    (one : ∀ (d : Dispatch) {sender : EntityId} {w : World} (target : EntityId),
      (w.entities.get? sender).isSome = true → R w (d.sendTo sender w target)) : Course R where
  refl := refl
  trans := trans
  send {w v owner sender d} hsender h := by
    obtain ⟨id, -, hget⟩ := Option.bind_eq_some_iff.1 hsender
    obtain rfl := Registry.id_of_get? hget
    have hall : ∀ (targets : List EntityId) {w : World}, (w.entities.get? sender.id).isSome = true →
        R w (targets.foldl (d.sendTo sender.id) w) := by
      intro targets
      induction targets with
      | nil => exact fun _ => refl _
      | cons target targets ih =>
        -- the sender is still there when the next target's turn comes
        intro w halive
        exact trans (one d target halive) (ih ((Registry.isSome_get?_update w.entities _ _ _).trans halive))
    unfold Dispatch.send at h
    cases hreceivers : d.receivers w sender with
    | error diagnostic =>
      rw [hreceivers] at h
      cases h
    | ok all =>
      rw [hreceivers] at h
      cases h
      exact hall _ (by rw [hget]; rfl)

variable {R : World → World → Prop} (hR : Course R)
include hR

theorem change {r s : Run} (h : Change r s) : R r.world s.world := by
  cases h with
  | sent hsender h => exact hR.send hsender h
  | stopwatch | switched =>
    unfold Run.updateLeading
    split <;> exact hR.refl _
  | _ => exact hR.refl _

theorem changes {r s : Run} (h : ReflTransGen Change r s) : R r.world s.world := by
  induction h with
  | refl => exact hR.refl _
  | tail _ hc ih => exact hR.trans ih (hR.change hc)

theorem skip {r s : Run} (h : Skip r s) : R r.world s.world := by
  cases h <;> exact hR.refl _

theorem effect {table : CommandTable} {word : String} {r s : Run} {outcome : Outcome}
    (h : Exec.Effect table word r outcome s) : R r.world s.world := by
  have hread := hR.changes (Exec.readWord_gradual { r with command := word })
  cases h with
  | passedOver _ h => exact hR.changes h
  | small _ _ _ h hskip =>
    have hs := hR.changes h
    exact hR.trans hs (hR.skip hskip)
  | went _ _ h =>
    have hs := hR.changes h
    exact hR.trans hread hs
  | called => exact hread
  | returned => exact hR.refl _
  | refused _ _ h => exact hR.trans hread (hR.changes h)
  | stuck _ _ h =>
    have hs := hR.changes h
    exact hs

theorem runs {table : CommandTable} {limit left : Nat} {l : Loop} {words : List String}
    {result : Outcome × Run} (h : Loop.Runs table limit left l words result) :
    R l.run.world result.2.world := by
  induction h with
  | ended => exact hR.refl _
  | passed h _ ih => rwa [Loop.run_of_passed h] at ih
  | spent => exact hR.refl _
  | stopped _ hcarry =>
    have hone := hR.effect (Loop.effect_of_carryOut hcarry)
    exact hone
  | carried _ hcarry _ _ ih =>
    have hone := hR.effect (Loop.effect_of_carryOut hcarry)
    exact hR.trans hone ih

theorem carryOut (s : Session) (owner : Option EntityId) (r : Run) (mode : Mode) :
    R r.world (s.carryOut owner r mode).2.world := by
  obtain ⟨words, hruns, -⟩ := Loop.runs_finish s.engine.commands s.engine.config.maxSteps
    s.engine.config.maxSteps { run := r, mode }
  exact hR.runs hruns

theorem sendEvent (s : Session) (owner : Option EntityId) (event params : String) :
    R s.world (s.sendEvent owner event params).2.world := by
  rcases s.sendEvent_cases owner event params with ⟨outcome, journal, hquiet⟩ | ⟨i, position, -, hruns⟩
  · rw [hquiet]
    exact hR.refl _
  · rw [hruns]
    exact hR.carryOut s owner (s.handlerRun owner i position params) .block

theorem deliver (s : Session) (e : QueuedEvent) : R s.world (s.deliver e).2.world :=
  hR.sendEvent { s with sender := e.sender } _ _ _

theorem fire (s : Session) (t : Timer) : R s.world (s.fire t).world := by
  unfold Session.fire
  split
  · exact hR.refl _
  · exact hR.carryOut s t.owner (s.startRun _ _ _ _ _) .line

theorem visitSlot (s : Session) (slot : Nat) : R s.world (s.visitSlot slot).2.world := by
  have hworld : (s.pollSlot slot).2.world = s.world := by
    have hpolls := s.pollSlot_polls slot
    generalize s.pollSlot slot = polled at hpolls
    obtain ⟨timer?, t⟩ := polled
    cases hpolls <;> rfl
  rw [Session.visitSlot_eq]
  rcases hpolled : s.pollSlot slot with ⟨_ | timer, t⟩
  · rw [hpolled] at hworld
    exact hworld ▸ hR.refl _
  · rw [hpolled] at hworld
    exact hworld ▸ hR.fire t timer

theorem tick (s : Session) : R s.world s.tick.2.world := by
  rw [Session.tick_eq]
  generalize List.range s.timers.capacity = slots
  generalize 0 = n
  induction slots generalizing n s with
  | nil => exact hR.refl _
  | cons slot slots ih => exact hR.trans (hR.visitSlot s slot) (ih _ _)

end World.Course

end EntityScript
