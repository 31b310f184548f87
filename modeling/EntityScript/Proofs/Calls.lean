import EntityScript.Proofs.Turns

/-! Calls and returns nest. The places to return to and the depths of braces are
kept on two stacks, and the loop only compares how many calls are open before and
after a command. `Balanced` turns leave both stacks as they were, and every state
of a run lies inside calls that are open one in another, each followed by balanced
turns. So a return finds on both stacks what the call that it ends has put there. -/

namespace EntityScript.Loop

open Relation

/-- The turn is a call, which will come back to `place`, where its label ends. -/
def Calls (table : CommandTable) (l : Loop) (place : Text.Place) (next : Loop) : Prop :=
  ∃ word rest name, l.turn = .met word rest ∧ table.lookup word = some (name, .jump true) ∧
    l.carryOut table word rest = (.jumped, next) ∧
    place = (Exec.readLabel word (l.run.readTo rest)).2.place

def Returns (table : CommandTable) (l next : Loop) : Prop :=
  ∃ word rest name, l.turn = .met word rest ∧ table.lookup word = some (name, .comeBack) ∧
    l.carryOut table word rest = (.success, next)

/-- Turns among which every call is ended by a return, and every return ends a call. -/
inductive Balanced (table : CommandTable) : Loop → Loop → Prop
  | refl (l : Loop) : Balanced table l l
  | plain {l m n : Loop} (h : Balanced table l m) (hstep : Step table m n)
    (hcall : ∀ place, ¬Calls table m place n) (hreturn : ¬Returns table m n) : Balanced table l n
  | nested {l m entered last n : Loop} {place : Text.Place} (h : Balanced table l m)
    (hcall : Calls table m place entered) (hinner : Balanced table entered last)
    (hreturn : Returns table last n) : Balanced table l n

/-- The run has come from `start` into calls, one in another, that are still open. -/
inductive Within (table : CommandTable) (start : Loop) : Loop → Prop
  | outside {l : Loop} (h : Balanced table start l) : Within table start l
  | inside {m entered l : Loop} {place : Text.Place} (hm : Within table start m)
    (hcall : Calls table m place entered) (h : Balanced table entered l) : Within table start l

structure SameCalls (l m : Loop) : Prop where
  calls : m.run.calls = l.run.calls
  saved : m.saved = l.saved

/-- The two stacks go together, and there is room on them. -/
structure CallsKept (limit : Nat) (l : Loop) : Prop where
  places : l.run.calls.places.length = l.run.callDepth
  saved : l.saved.length = l.run.callDepth
  room : l.run.callDepth ≤ limit

/-- The run is back from a call that was made in `l`. -/
structure Back (l : Loop) (place : Text.Place) (next : Loop) : Prop where
  place : next.run.place = place
  depth : next.depth = l.depth
  calls : next.run.calls = l.run.calls
  saved : next.saved = l.saved

/-- The command is refused: the run ends with an error, and both stacks stay. -/
structure Refused (table : CommandTable) (l : Loop) (word : String) (rest : List Char) : Prop where
  stops : (l.carryOut table word rest).1 = .abortError
  same : SameCalls l (l.carryOut table word rest).2
  ends : ∀ limit left, (l.finish table limit left).1 = .abortError ∧
    (l.finish table limit left).2.calls = l.run.calls

variable {table : CommandTable} {start l m next : Loop} {place : Text.Place}

namespace SameCalls

theorem refl (l : Loop) : SameCalls l l := ⟨rfl, rfl⟩

theorem trans {a b c : Loop} (h₁ : SameCalls a b) (h₂ : SameCalls b c) : SameCalls a c :=
  ⟨h₂.calls.trans h₁.calls, h₂.saved.trans h₁.saved⟩

end SameCalls

theorem settleDepth_self (n : Nat) (depth : Int) (saved : List Int) :
    Exec.settleDepth n n depth saved = (depth, saved) := by
  simp [Exec.settleDepth]

theorem settleDepth_of_lt {before after : Nat} (h : before < after) (depth : Int) (saved : List Int) :
    Exec.settleDepth before after depth saved = (depth, depth :: saved) := if_pos h

theorem settleDepth_of_gt {before after : Nat} (h : after < before) (depth d : Int)
    (saved : List Int) : Exec.settleDepth before after depth (d :: saved) = (d, saved) := by
  unfold Exec.settleDepth
  rw [if_neg h.not_gt, if_pos h]

/-- A command that leaves the places to return to alone leaves the saved depths alone. -/
theorem sameCalls_of_carryOut {word : String} {rest : List Char} {outcome : Outcome}
    (h : l.carryOut table word rest = (outcome, next)) (hcalls : next.run.calls = l.run.calls) :
    SameCalls l next := by
  have hsettled := settled_of_carryOut h
  rw [Run.callDepth, Run.callDepth, hcalls, settleDepth_self] at hsettled
  exact ⟨hcalls, (Prod.ext_iff.1 hsettled).2⟩

theorem Calls.step (h : Calls table l place next) : Step table l next := by
  obtain ⟨word, rest, name, hmet, -, hcarry, -⟩ := h
  exact .carried hmet hcarry rfl

theorem Returns.step (h : Returns table l next) : Step table l next := by
  obtain ⟨word, rest, name, hmet, -, hcarry⟩ := h
  exact .carried hmet hcarry rfl

/-- A call puts a place on one stack and the depth of braces on the other. -/
theorem Calls.pushes (h : Calls table l place next) :
    next.run.calls = l.run.calls.push place ∧ next.saved = l.depth :: l.saved ∧
      l.run.callDepth < l.run.shared.maxCallDepth := by
  obtain ⟨word, rest, name, hmet, hlookup, hcarry, rfl⟩ := h
  obtain ⟨-, hroom, hcalls⟩ := (effect_of_carryOut hcarry).of_call hlookup (by decide)
  have hsettled := settled_of_carryOut hcarry
  have hdeeper : l.run.callDepth < next.run.callDepth := by
    rw [Run.callDepth, Run.callDepth, hcalls]
    exact Nat.lt_succ_self _
  rw [settleDepth_of_lt hdeeper] at hsettled
  exact ⟨hcalls, (Prod.ext_iff.1 hsettled).2, hroom⟩

/-- A return takes from both stacks what was put there last. -/
theorem Returns.pops (h : Returns table l next) {depth : Int} {saved : List Int} {calls : CallStack}
    (hcalls : l.run.calls = calls.push place) (hsaved : l.saved = depth :: saved) :
    next.run.place = place ∧ next.depth = depth ∧ next.run.calls = calls ∧ next.saved = saved := by
  obtain ⟨word, rest, name, hmet, hlookup, hcarry⟩ := h
  obtain ⟨-, hpop⟩ := (effect_of_carryOut hcarry).of_return hlookup (by decide)
  change l.run.calls.pop? = _ at hpop
  rw [hcalls, CallStack.pop?_push] at hpop
  obtain ⟨rfl, rfl⟩ := Prod.ext_iff.1 (Option.some.inj hpop)
  have hsettled := settled_of_carryOut hcarry
  have hback : next.run.callDepth < l.run.callDepth := by
    rw [Run.callDepth, Run.callDepth, hcalls]
    exact Nat.lt_succ_self _
  rw [hsaved, settleDepth_of_gt hback] at hsettled
  exact ⟨rfl, (Prod.ext_iff.1 hsettled).1, rfl, (Prod.ext_iff.1 hsettled).2⟩

/-- A return in a call comes back. -/
theorem returns_of_lookup {word name : String} {rest : List Char} (hmet : l.turn = .met word rest)
    (hlookup : table.lookup word = some (name, .comeBack)) (hdeep : l.run.callDepth ≠ 0) :
    Returns table l (l.carryOut table word rest).2 := by
  have hout : (l.carryOut table word rest).1 = .success :=
    (carryOut_effect table l word rest).returns hlookup hdeep
  exact ⟨word, rest, name, hmet, hlookup, Prod.ext hout rfl⟩

/-- A return needs a place to return to. -/
theorem Returns.nonempty (h : Returns table l next) : l.run.callDepth ≠ 0 := by
  obtain ⟨word, rest, name, hmet, hlookup, hcarry⟩ := h
  intro hempty
  have := (effect_of_carryOut hcarry).of_stuck hlookup hempty
  cases this

/-- A turn that is neither a call nor a return leaves both stacks alone. -/
theorem Step.sameCalls (h : Step table l next) (hcall : ∀ place, ¬Calls table l place next)
    (hreturn : ¬Returns table l next) : SameCalls l next := by
  cases h with
  | passed h =>
    obtain ⟨depth, rfl⟩ := eq_of_passed h
    exact ⟨rfl, rfl⟩
  | carried hmet h hon =>
    refine sameCalls_of_carryOut h ((effect_of_carryOut h).calls_eq ?_ ?_)
    · rintro name hlookup rfl
      exact hcall _ ⟨_, _, name, hmet, hlookup, h, rfl⟩
    · rintro name hlookup rfl
      exact hreturn ⟨_, _, name, hmet, hlookup, h⟩

theorem Step.keeps (h : Step table l next) : Exec.Keeps l.run next.run := by
  cases h with
  | passed h =>
    obtain ⟨depth, rfl⟩ := eq_of_passed h
    exact ⟨rfl, rfl, rfl, rfl, rfl, rfl⟩
  | carried hmet h hon =>
    have hkeeps := (effect_of_carryOut h).keeps
    exact ⟨hkeeps.script, hkeeps.owner, hkeeps.params, hkeeps.sender, hkeeps.maxCallDepth, hkeeps.master⟩

theorem Reaches.keeps (h : Reaches table l m) : Exec.Keeps l.run m.run := by
  induction h with
  | refl => exact ⟨rfl, rfl, rfl, rfl, rfl, rfl⟩
  | tail _ hstep ih => exact ih.trans hstep.keeps

theorem Balanced.sameCalls (h : Balanced table l m) : SameCalls l m := by
  induction h with
  | refl => exact SameCalls.refl _
  | plain _ hstep hcall hreturn ih => exact ih.trans (hstep.sameCalls hcall hreturn)
  | nested _ hcall _ hreturn ih ihInner =>
    obtain ⟨hcalls, hsaved, -⟩ := hcall.pushes
    obtain ⟨-, -, hcalls', hsaved'⟩ :=
      hreturn.pops (ihInner.calls.trans hcalls) (ihInner.saved.trans hsaved)
    exact ih.trans ⟨hcalls', hsaved'⟩

/-- A return after balanced turns is back from the call before them. -/
theorem Returns.back {entered : Loop} (h : Returns table m next) (hcall : Calls table l place entered)
    (hbalanced : Balanced table entered m) : Back l place next := by
  obtain ⟨hcalls, hsaved, -⟩ := hcall.pushes
  have hsame := hbalanced.sameCalls
  obtain ⟨hplace, hdepth, hcalls', hsaved'⟩ :=
    h.pops (hsame.calls.trans hcalls) (hsame.saved.trans hsaved)
  exact ⟨hplace, hdepth, hcalls', hsaved'⟩

theorem Step.mode (h : Step table l next) (hdeep : next.run.callDepth ≠ 0) : next.mode = l.mode := by
  cases h with
  | passed h =>
    obtain ⟨depth, rfl⟩ := eq_of_passed h
    rfl
  | carried _ h => exact mode_of_carryOut h (.inr hdeep)

theorem Calls.callDepth_ne_zero (h : Calls table l place next) : next.run.callDepth ≠ 0 := by
  rw [Run.callDepth, h.pushes.1]
  exact Nat.succ_ne_zero _

theorem Calls.mode (h : Calls table l place next) : next.mode = l.mode := h.step.mode h.callDepth_ne_zero

theorem Returns.mode (h : Returns table l next) : next.mode = l.mode := by
  obtain ⟨word, rest, name, -, -, hcarry⟩ := h
  exact mode_of_carryOut hcarry (.inl (by decide))

/-- Within a call the mode stays, whatever jumps there are. -/
theorem Balanced.mode (h : Balanced table l m) (hdeep : l.run.callDepth ≠ 0) : m.mode = l.mode := by
  induction h with
  | refl => rfl
  | plain h hstep hcall hreturn ih =>
    have hsame := (Balanced.plain h hstep hcall hreturn).sameCalls.calls
    refine (hstep.mode ?_).trans (ih hdeep)
    rw [Run.callDepth, hsame]
    exact hdeep
  | nested h hcall hinner hreturn ih ihInner =>
    exact ((hreturn.mode.trans (ihInner hcall.callDepth_ne_zero)).trans hcall.mode).trans (ih hdeep)

theorem Balanced.reaches (h : Balanced table l m) : Reaches table l m := by
  induction h with
  | refl => exact .refl
  | plain _ hstep _ _ ih => exact ih.tail hstep
  | nested _ hcall _ hreturn ih ihInner =>
    exact ((ih.tail hcall.step).trans ihInner).tail hreturn.step

theorem Within.reaches (h : Within table start l) : Reaches table start l := by
  induction h with
  | outside h => exact h.reaches
  | inside _ hcall h ih => exact (ih.tail hcall.step).trans h.reaches

namespace Within

/-- Balanced turns go on inside the same calls. -/
theorem balanced (h : Within table start l)
    (hon : ∀ k, Balanced table k l → Balanced table k next) : Within table start next := by
  cases h with
  | outside h => exact .outside (hon _ h)
  | inside hm hcall h => exact .inside hm hcall (hon _ h)

theorem step (h : Within table start l) (hstep : Step table l next)
    (hempty : start.run.callDepth = 0) : Within table start next := by
  by_cases hcall : ∃ place, Calls table l place next
  · obtain ⟨place, hcall⟩ := hcall
    exact .inside h hcall (.refl next)
  by_cases hreturn : Returns table l next
  · cases h with
    | outside h =>
      have hcalls := h.sameCalls.calls
      refine absurd ?_ hreturn.nonempty
      rw [Run.callDepth, hcalls]
      exact hempty
    | inside hm hcall h => exact hm.balanced fun k hk => .nested hk hcall h hreturn
  · exact h.balanced fun k hk => .plain hk hstep (fun place hc => hcall ⟨place, hc⟩) hreturn

theorem of_reaches (h : Reaches table start l) (hempty : start.run.callDepth = 0) :
    Within table start l := by
  induction h with
  | refl => exact .outside (.refl _)
  | tail _ hstep ih => exact ih.step hstep hempty

end Within

theorem Within.saved_length (h : Within table start l) (hstart : start.saved.length = start.run.callDepth) :
    l.saved.length = l.run.callDepth := by
  induction h with
  | outside h => rw [h.sameCalls.saved, Run.callDepth, h.sameCalls.calls]; exact hstart
  | inside _ hcall h ih =>
    obtain ⟨hcalls, hsaved, -⟩ := hcall.pushes
    rw [h.sameCalls.saved, hsaved, Run.callDepth, h.sameCalls.calls, hcalls]
    exact congrArg Nat.succ ih

theorem Within.callDepth_le (h : Within table start l)
    (hstart : start.run.callDepth ≤ start.run.shared.maxCallDepth) :
    l.run.callDepth ≤ start.run.shared.maxCallDepth := by
  induction h with
  | outside h => rw [Run.callDepth, h.sameCalls.calls]; exact hstart
  | inside hm hcall h =>
    obtain ⟨hcalls, -, hroom⟩ := hcall.pushes
    rw [hm.reaches.keeps.maxCallDepth] at hroom
    rw [Run.callDepth, h.sameCalls.calls, hcalls]
    exact hroom

theorem callsKept (r : Run) (mode : Mode) (h : Reaches table (begin r mode) l) :
    CallsKept r.shared.maxCallDepth l where
  places := l.run.calls.depth_eq.symm
  saved := (Within.of_reaches h rfl).saved_length rfl
  room := (Within.of_reaches h rfl).callDepth_le (Nat.zero_le _)

/-- A command that ends the run with an error and leaves the places to return to alone. -/
theorem refused_of {word : String} {rest : List Char} (hmet : l.turn = .met word rest)
    (hstops : (l.carryOut table word rest).1 = .abortError)
    (hcalls : (l.carryOut table word rest).2.run.calls = l.run.calls) : Refused table l word rest where
  stops := hstops
  same := sameCalls_of_carryOut rfl hcalls
  ends limit left := by
    rw [finish_eq, hmet]
    cases left with
    | zero => exact ⟨rfl, rfl⟩
    | succ left =>
      simp only [hstops, Outcome.isAbort, if_true]
      exact ⟨trivial, hcalls⟩

/-- A jump to a label that is not there, a call without room for it, and a return without a call. -/
def Unfit (table : CommandTable) (l : Loop) (word : String) (rest : List Char) : Prop :=
  (∃ name call, table.lookup word = some (name, .jump call) ∧
    (l.run.script.findLabel? (Exec.readLabel word (l.run.readTo rest)).1 = none ∨
      call = true ∧ l.run.shared.maxCallDepth ≤ l.run.callDepth)) ∨
  (∃ name, table.lookup word = some (name, .comeBack) ∧ l.run.callDepth = 0)

theorem Unfit.refused {word : String} {rest : List Char} (h : Unfit table l word rest)
    (hmet : l.turn = .met word rest) : Refused table l word rest := by
  have heffect := carryOut_effect table l word rest
  have hstops : (l.carryOut table word rest).1 = .abortError := by
    rcases h with ⟨name, call, hlookup, hrefused⟩ | ⟨name, hlookup, hempty⟩
    · exact heffect.of_refused hlookup hrefused
    · exact heffect.of_stuck hlookup hempty
  refine refused_of hmet hstops (heffect.calls_eq ?_ ?_)
  · simp [hstops]
  · simp [hstops]

/-- In every state of a run the two stacks go together within the limit of calls; every return ends
a call, and is back where and as deep as the call was; and what is unfit ends the run. -/
theorem calls_nest (table : CommandTable) (r : Run) (mode : Mode) {l : Loop}
    (h : Reaches table (begin r mode) l) :
    CallsKept r.shared.maxCallDepth l ∧
    (∀ next, Returns table l next → ∃ m place entered, Reaches table (begin r mode) m ∧
      Calls table m place entered ∧ Balanced table entered l) ∧
    (∀ m place entered next, Calls table m place entered → Balanced table entered l →
      Returns table l next → Back m place next) ∧
    (∀ word rest, l.turn = .met word rest → Unfit table l word rest →
      Refused table l word rest) := by
  refine ⟨callsKept r mode h, fun next hreturn => ?_,
    fun m place entered next hcall hbalanced hreturn => hreturn.back hcall hbalanced,
    fun word rest hmet hunfit => hunfit.refused hmet⟩
  cases Within.of_reaches h rfl with
  | outside h =>
    refine absurd ?_ hreturn.nonempty
    rw [Run.callDepth, h.sameCalls.calls]
    rfl
  | inside hm hcall h => exact ⟨_, _, _, hm.reaches, hcall, h⟩

/-- A run that is about to call a label, behind which there is nothing but a return. -/
def errand : Run where
  script := Script.ofText "errand" ">>a\nreturn\ngosub a"
  place := { rest := "gosub a".toList }
  owner := none
  own := .fresh 0
  shared :=
    { globals := .withCapacity 0, timers := .withCapacity 0, random := .ofSeed 0, maxCallDepth := 1 }
  world := {}
  sender := none

def errandTable : CommandTable :=
  { commands := (Dict.empty.set "gosub" (.jump true)).set "return" .comeBack }

def onErrand : Loop := ((begin errand .block).carryOut errandTable "gosub" [' ', 'a']).2

theorem errand_calls : Calls errandTable (begin errand .block) { rest := [] } onErrand :=
  ⟨"gosub", [' ', 'a'], "gosub", met_of_read (by decide +kernel) (by decide +kernel) (by simp [LineOver, begin]),
    by decide +kernel, Prod.ext (by decide +kernel) rfl, by decide +kernel⟩

theorem errand_returns :
    Returns errandTable onErrand (onErrand.carryOut errandTable "return" "\ngosub a".toList).2 := by
  have hmet : onErrand.turn = .met "return" "\ngosub a".toList :=
    met_of_read (by decide +kernel) (by decide +kernel) fun h => absurd h.1 (by decide +kernel)
  have hlookup : errandTable.lookup "return" = some ("return", .comeBack) := by decide +kernel
  exact returns_of_lookup hmet hlookup errand_calls.callDepth_ne_zero

/-- The errand is back at the end of its text. -/
theorem calls_nest_errand :
    CallsKept 1 onErrand ∧
      Back (begin errand .block) { rest := [] }
        (onErrand.carryOut errandTable "return" "\ngosub a".toList).2 := by
  obtain ⟨hkept, -, hback, -⟩ := calls_nest errandTable errand .block (.single errand_calls.step)
  exact ⟨hkept, hback _ _ _ _ errand_calls (.refl _) errand_returns⟩

end EntityScript.Loop
