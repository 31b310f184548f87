import EntityScript.Command.Table

/-! Laws of the parts of runs. A law is what one wants to know of every part, such as that it takes nothing
back that was reported. Where a law goes over from two parts to the one and then the other, it is enough to
know it of a report, of the value of an operand and of the few steps that read a line: what commands do with
them follows here, once for all laws. -/

namespace EntityScript

namespace Exec

/-- A law that goes over from one part and the next to both, and holds of reports and of the values of operands. -/
structure Law (P : ∀ {α : Type}, Exec α → Prop) : Prop where
  pure : ∀ {α : Type} (a : α), P (Pure.pure a : Exec α)
  bind : ∀ {α β : Type} {m : Exec α} {f : α → Exec β}, P m → (∀ a, P (f a)) → P (m >>= f)
  report : ∀ d, P (Exec.report d)
  resolve : ∀ word wanted, P (Exec.resolve word wanted)

structure ReadingLaw (P : ∀ {α : Type}, Exec α → Prop) : Prop extends Law P where
  readWord : P Exec.readWord
  readFlags : ∀ allowed, P (Exec.readFlags allowed)

/-- It holds of skipping a branch, too, and of all that is done after a look at the world and the owner. -/
structure SkippingLaw (P : ∀ {α : Type}, Exec α → Prop) : Prop extends ReadingLaw P where
  skipGuarded : P Exec.skipGuarded
  look : ∀ {β : Type} {f : Run → Exec β},
    (∀ r s, r.world = s.world → r.owner = s.owner → f r = f s) → (∀ r, P (f r)) → P (get >>= f)

section

variable {α β : Type} {P : ∀ {α : Type}, Exec α → Prop}

namespace Law

variable (h : Law P)
include h

theorem map {m : Exec α} (hm : P m) (f : α → β) : P (f <$> m) := by
  rw [map_eq_pure_bind]
  exact h.bind hm fun a => h.pure (f a)

theorem forM {f : α → Exec PUnit} (hf : ∀ a, P (f a)) (o : Option α) : P (o.forM f) := by
  cases o with
  | none => exact h.pure _
  | some a => exact hf a

theorem mapM {f : α → Exec β} (hf : ∀ a, P (f a)) (l : List α) : P (l.mapM f) := by
  induction l with
  | nil => exact h.pure []
  | cons a l ih =>
    rw [List.mapM_cons]
    exact h.bind (hf a) fun b => h.bind ih fun bs => h.pure (b :: bs)

theorem fail (d : Diagnostic) : P (Exec.fail d) := h.bind (h.report d) fun _ => h.pure _

theorem abort (failure : Failure) : P (Exec.abort failure) := h.bind (h.report _) fun _ => h.pure _

theorem textOf (word : String) : P (Exec.textOf word) := h.bind (h.resolve word .text) fun _ => h.pure _

theorem numberOf (word : String) : P (Exec.numberOf word) := h.bind (h.resolve word .number) fun _ => h.pure _

theorem fillIn (pieces : List (List Char)) : P (Exec.fillIn pieces) := by
  induction pieces using fillIn.induct with
  | case1 => exact h.pure _
  | case2 text => exact h.pure _
  | case3 text unclosed => exact h.pure _
  | case4 text name more hmore ih =>
    rw [Exec.fillIn]
    · exact h.bind (h.textOf _) fun _ => h.bind ih fun _ => h.pure _
    · exact hmore

theorem expand (word : List Char) : P (Exec.expand word) := h.bind (h.fillIn _) fun _ => h.pure _

theorem collectFlags (allowed letters : List Char) : P (Exec.collectFlags allowed letters) := by
  induction letters with
  | nil => exact h.pure _
  | cons letter letters ih =>
    exact iteInduction (fun _ => h.bind ih fun _ => h.pure _) fun _ => h.bind (h.report _) fun _ => ih

end Law

namespace ReadingLaw

variable (h : ReadingLaw P)
include h

theorem readNumber : P Exec.readNumber := h.bind h.readWord h.numberOf

theorem readSwitch : P Exec.readSwitch := h.bind h.readWord fun _ => h.pure _

theorem readText : P Exec.readText := h.bind h.readWord h.textOf

theorem readDispatch : P Exec.readDispatch := by
  refine h.bind (h.readFlags _) fun flags => ?_
  -- what follows an option is the same whether it was given or not, so it is settled before the option
  extract_lets kinds afterGroup
  have hgroup : ∀ group, P (afterGroup group) := by
    intro group
    refine h.bind h.readWord fun event => ?_
    extract_lets finish afterZone
    have hfinish : ∀ x, P (finish x) := fun _ => h.bind h.readWord fun _ => h.pure _
    have hzone : ∀ zone, P (afterZone zone) := by
      intro zone
      refine iteInduction (fun _ => h.bind h.readWord fun word => ?_) fun _ => ?_
      · dsimp only
        exact h.bind (h.numberOf _) fun _ => h.bind (h.pure _) hfinish
      · split
        · exact h.bind (h.pure _) hfinish
        · refine iteInduction (fun _ => h.bind (h.pure _) hfinish) fun _ => h.bind h.readText fun _ => ?_
          exact iteInduction (fun _ => h.bind (h.pure _) hfinish) fun _ => h.bind (h.pure _) hfinish
    exact iteInduction (fun _ => h.bind (h.map h.readText _) hzone) fun _ => h.bind (h.pure _) hzone
  exact iteInduction (fun _ => h.bind (h.map h.readText _) hgroup) fun _ => h.bind (h.pure _) hgroup

/-- Values are stored from what was read. -/
theorem runAssign (hstore : ∀ name value, P (Exec.store name value)) : P Exec.runAssign :=
  h.bind h.readWord fun name => h.bind h.readWord fun _ => h.bind (h.resolve _ _) fun _ => hstore name _

theorem runAdd (hstore : ∀ name value, P (Exec.store name value)) : P Exec.runAdd :=
  h.bind h.readWord fun name => h.bind h.readWord fun word =>
    h.bind (h.numberOf name) fun _ => h.bind (h.numberOf word) fun _ => hstore name _

end ReadingLaw

namespace SkippingLaw

variable (h : SkippingLaw P)
include h

theorem refuse (d : Diagnostic) : P (Exec.refuse d) :=
  h.bind (h.report d) fun _ => h.bind h.skipGuarded fun _ => h.pure _

theorem runConditional (policy : WrongTypePolicy) : P (Exec.runConditional policy) := by
  refine h.bind h.readWord fun left => h.bind h.readWord fun name => h.bind h.readWord fun right => ?_
  split
  · exact h.refuse _
  · refine h.bind (h.resolve _ _) fun l => h.bind (h.resolve _ _) fun r => ?_
    refine iteInduction (fun _ => h.refuse _) fun _ => h.look (fun s t hworld howner => ?_) fun run => ?_
    · rw [hworld, howner]
    refine h.bind (h.forM h.report _) fun _ => ?_
    exact iteInduction (fun _ => h.bind h.skipGuarded fun _ => h.pure _) fun _ => h.pure _

theorem runRandom (hroll : P Exec.roll) : P Exec.runRandom :=
  h.bind h.readNumber fun _ => h.bind hroll fun _ =>
    iteInduction (fun _ => h.bind h.skipGuarded fun _ => h.pure _) fun _ => h.pure _

end SkippingLaw

end

end Exec

end EntityScript
