import EntityScript.Proofs.Laws
import EntityScript.Proofs.Line
import Mathlib.Logic.Relation

/-! What a command does to a run, jumps and returns apart, comes about by small
changes: reading on its line, reporting, and changing one thing of those that
scripts keep or share. `Change` lists them. At the end a branch that is not taken
may be skipped, and `execute_branching` says that there is no more. What all this
leaves alone is collected in `Follows`. -/

namespace EntityScript

open Reading Relation

namespace Run

def readTo (r : Run) (rest : List Char) : Run := { r with place := r.place.readTo rest }

@[simp] theorem rest_readTo (r : Run) (rest : List Char) : (r.readTo rest).rest = rest :=
  Text.Place.rest_readTo r.place rest

@[simp] theorem callDepth_readTo (r : Run) (rest : List Char) :
    (r.readTo rest).callDepth = r.callDepth := rfl

@[simp] theorem owner_readTo (r : Run) (rest : List Char) : (r.readTo rest).owner = r.owner := rfl

theorem readTo_readTo {r : Run} {mid rest : List Char} (hmid : mid <:+ r.rest)
    (hrest : rest <:+ mid) : (r.readTo mid).readTo rest = r.readTo rest := by
  unfold readTo
  rw [Text.Place.readTo_readTo hmid hrest]

def withTimers (r : Run) (timers : TimerPool) : Run := { r with shared := { r.shared with timers } }

end Run

/-- A small change of a run, which stays on its line. -/
inductive Change : Run → Run → Prop
  | reported (r : Run) (d : Diagnostic) :
    Change r { r with journal := { r.journal with diagnostics := r.journal.diagnostics.push d } }
  | noted (r : Run) (n : Note) :
    Change r { r with journal := { r.journal with notes := r.journal.notes.push n } }
  | read {r : Run} {rest : List Char} (h : Along r.rest rest) : Change r (r.readTo rest)
  | drawn (r : Run) :
    Change r { r with shared := { r.shared with random := r.shared.random.next.2 } }
  | mainEvent (r : Run) (event : String) : Change r { r with own := r.own.setMainEvent event }
  | stopwatch (r : Run) (place : Fin 4) (w : Stopwatch) :
    Change r (r.updateLeading fun s => s.setStopwatch place w)
  | switched (r : Run) (event : Fin 10) (on : Bool) :
    Change r (r.updateLeading fun s => s.switchEvent event on)
  | cleared (r : Run) (unwanted : Timer → Bool) (h : ∀ t, unwanted t → t.owner = r.owner) :
    Change r (r.withTimers (r.shared.timers.clearWhere unwanted).2)
  | scheduled {r : Run} {t : Timer} {slot : Nat} {timers : TimerPool} (howner : t.owner = r.owner)
    (hscript : t.script = r.script) (h : r.shared.timers.allocate t = .ok (slot, timers)) :
    Change r (r.withTimers timers)
  | sent {r : Run} {sender : Entity} {d : Dispatch} {world : World}
    (hsender : r.owner.bind r.world.entities.get? = some sender)
    (h : d.send r.world sender = .ok world) : Change r { r with world }
  | storedOwn {r : Run} {name : String} {value : Value} {locals : VariableTable}
    (h : r.own.locals.assign name value = .ok locals) :
    Change r { r with own := { r.own with locals } }
  | storedShared {r : Run} {name : String} {value : Value} {globals : VariableTable}
    (h : r.shared.globals.assign name value = .ok globals) :
    Change r { r with shared := { r.shared with globals } }

inductive Skip : Run → Run → Prop
  | nothing (r : Run) : Skip r r
  | statement (r : Run) : Skip r (r.readTo (skipStatement r.rest))
  | guarded (r : Run) : Skip r (r.readTo (skipGuarded r.rest))

/-- The command may pass over the statement behind it. -/
def Command.branches : Command → Bool
  | .random | .conditional _ | .otherwise => true
  | _ => false

/-- What stays as it is while a run reads on. -/
structure Follows (r s : Run) : Prop where
  script : s.script = r.script
  calls : s.calls = r.calls
  owner : s.owner = r.owner
  params : s.params = r.params
  sender : s.sender = r.sender
  command : s.command = r.command
  maxCallDepth : s.shared.maxCallDepth = r.shared.maxCallDepth
  master : s.master.isSome = r.master.isSome
  rest : s.rest <:+ r.rest
  place : s.place = r.place ∨ s.place = r.place.readTo s.rest

namespace Follows

theorem refl (r : Run) : Follows r r :=
  ⟨rfl, rfl, rfl, rfl, rfl, rfl, rfl, rfl, List.suffix_refl _, .inl rfl⟩

theorem trans {r s t : Run} (h₁ : Follows r s) (h₂ : Follows s t) : Follows r t where
  script := h₂.script.trans h₁.script
  calls := h₂.calls.trans h₁.calls
  owner := h₂.owner.trans h₁.owner
  params := h₂.params.trans h₁.params
  sender := h₂.sender.trans h₁.sender
  command := h₂.command.trans h₁.command
  maxCallDepth := h₂.maxCallDepth.trans h₁.maxCallDepth
  master := h₂.master.trans h₁.master
  rest := h₂.rest.trans h₁.rest
  place := by
    rcases h₁.place with hs | hs <;> rcases h₂.place with ht | ht
    · exact .inl (ht.trans hs)
    · exact .inr (hs ▸ ht)
    · refine .inr (ht.trans (hs.trans ?_))
      rw [Run.rest, Run.rest, ht]
    · refine .inr (ht.trans ?_)
      rw [hs, Text.Place.readTo_readTo h₁.rest h₂.rest]

theorem readTo {r : Run} {rest : List Char} (h : rest <:+ r.rest) : Follows r (r.readTo rest) :=
  ⟨rfl, rfl, rfl, rfl, rfl, rfl, rfl, rfl, by simpa using h, .inr (by simp [Run.readTo, Run.rest])⟩

theorem updateLeading (r : Run) (change : ScriptState → ScriptState) :
    Follows r (r.updateLeading change) := by
  unfold Run.updateLeading
  split
  · rename_i h
    exact { refl r with master := by simp [h] }
  · exact { refl r with }

end Follows

theorem Change.follows {r s : Run} (h : Change r s) : Follows r s := by
  cases h with
  | read h => exact Follows.readTo h.onLine.suffix
  | stopwatch place w => exact Follows.updateLeading r _
  | switched event on => exact Follows.updateLeading r _
  | _ => exact { Follows.refl r with }

theorem follows_of_changes {r s : Run} (h : ReflTransGen Change r s) : Follows r s := by
  induction h with
  | refl => exact Follows.refl r
  | tail _ hc ih => exact ih.trans hc.follows

theorem Skip.follows {r s : Run} (h : Skip r s) : Follows r s := by
  cases h with
  | nothing => exact Follows.refl r
  | statement => exact Follows.readTo (skipStatement_suffix _)
  | guarded => exact Follows.readTo (skipGuarded_suffix _)

theorem Change.along {r s : Run} (h : Change r s) : Along r.rest s.rest := by
  cases h with
  | read h => simpa using h
  | stopwatch place w => unfold Run.updateLeading; split <;> exact Along.refl _
  | switched event on => unfold Run.updateLeading; split <;> exact Along.refl _
  | _ => exact Along.refl _

theorem along_of_changes {r s : Run} (h : ReflTransGen Change r s) : Along r.rest s.rest := by
  induction h with
  | refl => exact Along.refl _
  | tail _ hc ih => exact ih.trans hc.along

theorem onLine_of_changes {r s : Run} (h : ReflTransGen Change r s) : OnLine r.rest s.rest :=
  (along_of_changes h).onLine

namespace Exec

theorem run_bind_of {α β : Type} {m : Exec α} {f : α → Exec β} {r s : Run} {a : α}
    (h : m.run r = (a, s)) : (m >>= f).run r = (f a).run s := by
  rw [StateT.run_bind, h]
  rfl

def Gradual {α : Type} (m : Exec α) : Prop := ∀ r, ReflTransGen Change r (m.run r).2

namespace Gradual

variable {α β : Type}

theorem pure (a : α) : Gradual (pure a : Exec α) := fun _ => .refl

theorem bind {m : Exec α} {f : α → Exec β} (hm : Gradual m) (hf : ∀ a, Gradual (f a)) :
    Gradual (m >>= f) :=
  fun r => (hm r).trans (hf _ _)

/-- After the state is looked at, what follows may rely on it. -/
theorem get_bind {f : Run → Exec β} (hf : ∀ r, ReflTransGen Change r ((f r).run r).2) :
    Gradual (get >>= f) :=
  hf

theorem get_bind_run {f : Run → Exec β} {r : Run} (hf : ReflTransGen Change r ((f r).run r).2) :
    ReflTransGen Change r ((get >>= f).run r).2 :=
  hf

/-- What follows a part of a run may rely on what the part has kept. -/
theorem bind_run {m : Exec α} {f : α → Exec β} {r : Run} (hm : ReflTransGen Change r (m.run r).2)
    (hf : ∀ a s, Follows r s → ReflTransGen Change s ((f a).run s).2) :
    ReflTransGen Change r ((m >>= f).run r).2 :=
  hm.trans (hf _ _ (follows_of_changes hm))

theorem ite {c : Prop} [Decidable c] {m n : Exec α} (hm : Gradual m) (hn : Gradual n) :
    Gradual (if c then m else n) := by
  split
  · exact hm
  · exact hn

end Gradual

theorem report_gradual (d : Diagnostic) : Gradual (report d) := fun r => .single (.reported r d)

theorem note_gradual (n : Note) : Gradual (note n) := fun r => .single (.noted r n)

theorem systemValue_gradual (name : String) : Gradual (systemValue name) := by
  refine Gradual.get_bind fun r => ?_
  split
  · exact .refl
  · exact (report_gradual _).bind (fun _ => .pure _) r

theorem resolve_gradual (word : String) (wanted : ValueType) : Gradual (resolve word wanted) := by
  unfold resolve
  split
  · exact (systemValue_gradual word).bind fun _ => .pure _
  · exact Gradual.get_bind fun r => .refl

theorem Gradual.law : Law @Gradual where
  pure := Gradual.pure
  bind := Gradual.bind
  report := report_gradual
  resolve := resolve_gradual

/-- The next word on the line is taken and filled in. -/
theorem readWord_run (r : Run) :
    readWord.run r =
      match nextToken r.rest with
      | none => ("", r)
      | some token => (expand token.word).run (r.readTo token.rest) := by
  simp only [readWord, StateT.run_bind, StateT.run_get, pure_bind]
  cases nextToken r.rest <;> rfl

theorem readWord_gradual : Gradual readWord := by
  refine Gradual.get_bind fun r => ?_
  split
  · exact .refl
  · rename_i token h
    exact .head (.read (nextToken_along h)) (Gradual.law.expand token.word _)

theorem readFlags_gradual (allowed : List Char) : Gradual (readFlags allowed) := by
  refine Gradual.get_bind fun r => ?_
  split
  · exact .refl
  · rename_i token h
    split
    · exact .refl
    · exact .head (.read (nextToken_along h)) (Gradual.law.collectFlags allowed _ _)

theorem Gradual.readingLaw : ReadingLaw @Gradual :=
  { Gradual.law with
    readWord := readWord_gradual
    readFlags := readFlags_gradual }

theorem skipLine_gradual : Gradual skipLine := by
  refine Gradual.get_bind fun r => ?_
  refine .head (.read (dropLine_along r.rest)) ?_
  exact Gradual.ite (.pure _) (.pure _) _

theorem runStopwatch_gradual (start : Bool) : Gradual (runStopwatch start) := by
  refine readWord_gradual.bind fun word => ?_
  split
  · exact (report_gradual _).bind fun _ => .pure _
  · exact fun r => .single (.stopwatch r _ _)

theorem schedule_changes {r : Run} {t : Timer} (howner : t.owner = r.owner)
    (hscript : t.script = r.script) : ReflTransGen Change r ((schedule t).run r).2 := by
  refine Gradual.get_bind_run ?_
  split
  · rename_i h
    exact .single (.scheduled howner hscript h)
  · exact (report_gradual _).bind (fun _ => .pure _) r

theorem runTimer_gradual : Gradual runTimer := by
  refine (readFlags_gradual _).bind fun flags => readWord_gradual.bind fun word => ?_
  refine Gradual.get_bind fun r => ?_
  dsimp only
  split
  · exact .single (.cleared r (fun t => t.owner == r.owner) (by simp))
  · refine Gradual.get_bind_run ?_
    have hclear : ∀ t : Timer, t.hasKey (timerName r) r.owner = true → t.owner = r.owner := by
      intro t ht
      simp only [Timer.hasKey, Bool.and_eq_true, beq_iff_eq] at ht
      exact ht.1
    refine Gradual.bind_run (.single (.cleared r _ hclear)) fun _ s₀ h₀ => ?_
    split
    · exact .refl
    · -- the owner was looked up before the rest of the line was read
      refine Gradual.bind_run (Gradual.law.numberOf word s₀) fun times s₁ h₁ => ?_
      refine Gradual.bind_run (Gradual.readingLaw.readNumber s₁) fun count s₂ h₂ => ?_
      refine Gradual.bind_run (skipLine_gradual s₂) fun resumeAt s₃ h₃ => ?_
      split
      · exact (report_gradual _).bind (fun _ => .pure _) s₃
      · have howner := (((h₀.trans h₁).trans h₂).trans h₃).owner
        exact Gradual.get_bind_run (schedule_changes howner.symm rfl)

theorem withSender_run {α : Type} (sender : Option EntityId) (act : Exec α) (r : Run) :
    (withSender sender act).run r =
      ((act.run { r with sender }).1, { (act.run { r with sender }).2 with sender := r.sender }) := rfl

theorem post_run (d : Dispatch) (sender : Entity) (r : Run) :
    (post d sender).run r =
      match d.send r.world sender with
      | .error diagnostic => (fail diagnostic).run r
      | .ok world => (.success, { r with world }) := by
  simp only [post, StateT.run_bind, StateT.run_get, pure_bind]
  cases d.send r.world sender <;> rfl

theorem runSendEvent_gradual : Gradual runSendEvent := by
  refine Gradual.readingLaw.readDispatch.bind fun d => Gradual.get_bind fun r => ?_
  split
  · exact Gradual.law.fail _ r
  · rename_i sender hsender
    -- the sender from before is back when the events are sent, or when they cannot be
    rw [withSender_run, post_run]
    cases h : d.send r.world sender with
    | error diagnostic => exact Gradual.law.fail diagnostic r
    | ok world => exact .single (.sent hsender h)

theorem runSetEvent_gradual : Gradual runSetEvent := by
  refine readWord_gradual.bind fun name => Gradual.readingLaw.readSwitch.bind fun on => ?_
  split
  · exact Gradual.law.fail _
  · exact fun r => .single (.switched r _ on)

theorem runSetMainEvent_gradual : Gradual runSetMainEvent :=
  readWord_gradual.bind fun event r => .single (.mainEvent r event)

theorem runSay_gradual : Gradual runSay := by
  refine Gradual.get_bind fun r => .head (.read (lineWords_along r.rest)) ?_
  exact Gradual.bind (Gradual.law.mapM Gradual.law.expand _)
    (fun _ => (note_gradual _).bind fun _ => .pure _) _

theorem store_gradual (name : String) (value : Value) : Gradual (store name value) := by
  refine Gradual.get_bind fun r => ?_
  by_cases hl : (Namespace.of name).isLocal
  · simp only [hl, if_true]
    cases h : r.own.locals.assign name value with
    | ok locals => exact .single (.storedOwn h)
    | error failure => exact (note_gradual _).bind (fun _ => .pure _) r
  · simp only [hl]
    cases h : r.shared.globals.assign name value with
    | ok globals => exact .single (.storedShared h)
    | error failure => exact (note_gradual _).bind (fun _ => .pure _) r

theorem runProbe_gradual : Gradual runProbe :=
  Gradual.get_bind fun r => .single (.noted r _)

/-- The part of a run comes about by small changes, and perhaps a skip in the end. -/
def Branching {α : Type} (m : Exec α) : Prop :=
  ∀ r, ∃ s, ReflTransGen Change r s ∧ Skip s (m.run r).2

namespace Branching

variable {α β : Type}

theorem of_gradual {m : Exec α} (hm : Gradual m) : Branching m := fun r => ⟨_, hm r, .nothing _⟩

theorem bind {m : Exec α} {f : α → Exec β} (hm : Gradual m) (hf : ∀ a, Branching (f a)) :
    Branching (m >>= f) := by
  intro r
  obtain ⟨s, hs, hskip⟩ := hf (m.run r).1 (m.run r).2
  exact ⟨s, (hm r).trans hs, hskip⟩

theorem ite {c : Prop} [Decidable c] {m n : Exec α} (hm : Branching m) (hn : Branching n) :
    Branching (if c then m else n) := by
  split
  · exact hm
  · exact hn

/-- The skip is over when an outcome is given. -/
theorem outcome {m : Exec α} (hm : Branching m) (b : β) : Branching (m >>= fun _ => pure b) := hm

end Branching

theorem skipStatement_branching : Branching skipStatement := fun r => ⟨r, .refl, .statement r⟩

theorem skipGuarded_branching : Branching skipGuarded := fun r => ⟨r, .refl, .guarded r⟩

theorem refuse_branching (d : Diagnostic) : Branching (refuse d) :=
  .bind (report_gradual d) fun _ => skipGuarded_branching.outcome _

theorem runConditional_branching (policy : WrongTypePolicy) :
    Branching (runConditional policy) := by
  refine .bind readWord_gradual fun left => .bind readWord_gradual fun name =>
    .bind readWord_gradual fun right => ?_
  split
  · exact refuse_branching _
  · refine .bind (resolve_gradual _ _) fun l => .bind (resolve_gradual _ _) fun r => ?_
    refine .ite (refuse_branching _) (.bind (Gradual.get_bind fun _ => .refl) fun run => ?_)
    refine .bind (Gradual.law.forM report_gradual _) fun _ => ?_
    exact .ite (skipGuarded_branching.outcome _) (.of_gradual (.pure _))

theorem runRandom_branching : Branching runRandom := by
  refine .bind Gradual.readingLaw.readNumber fun x => .bind (fun r => .single (.drawn r)) fun y => ?_
  exact .ite (skipGuarded_branching.outcome _) (.of_gradual (.pure _))

theorem runOtherwise_branching : Branching runOtherwise := skipStatement_branching.outcome _

/-- Commands that neither jump, return nor branch do nothing but small changes. -/
theorem execute_gradual {command : Command} (hjump : ∀ call, command ≠ .jump call)
    (hback : command ≠ .comeBack) (hbranch : command.branches = false) : Gradual command.execute := by
  cases command with
  | nop => exact .pure _
  | jump call => exact absurd rfl (hjump call)
  | stop outcome => exact .pure _
  | comeBack => exact absurd rfl hback
  | setMainEvent => exact runSetMainEvent_gradual
  | stopwatch start => exact runStopwatch_gradual start
  | timer => exact runTimer_gradual
  | sendEvent => exact runSendEvent_gradual
  | setEvent => exact runSetEvent_gradual
  | random | conditional | otherwise => cases hbranch
  | say => exact runSay_gradual
  | assign => exact Gradual.readingLaw.runAssign store_gradual
  | add => exact Gradual.readingLaw.runAdd store_gradual
  | probe => exact runProbe_gradual

/-- Commands other than jumps and returns do nothing but small changes and a skip. -/
theorem execute_branching {command : Command} (hjump : ∀ call, command ≠ .jump call)
    (hback : command ≠ .comeBack) : Branching command.execute := by
  cases hbranch : command.branches with
  | false => exact .of_gradual (execute_gradual hjump hback hbranch)
  | true =>
    cases command with
    | random => exact runRandom_branching
    | conditional policy => exact runConditional_branching policy
    | otherwise => exact runOtherwise_branching
    | _ => cases hbranch

end Exec

end EntityScript
