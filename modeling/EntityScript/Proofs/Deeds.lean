import EntityScript.Proofs.Effects
import EntityScript.Proofs.Pool
import EntityScript.Proofs.Views
import Mathlib.Logic.Function.Iterate

/-! What a timer command does to the pool. It takes timers of its owner away, and may put one in
their place. Which it is, the words of its line decide, and `runWord_timers` says that no other
word does anything to the pool. -/

namespace EntityScript

open Reading Relation

inductive TimerDeed
  | clearOwner (owner : Option EntityId)
  | clear (name : String) (owner : Option EntityId)
  /-- The timer replaces those of its name and owner. -/
  | place (t : Timer)

namespace TimerDeed

def removes : TimerDeed → Timer → Bool
  | clearOwner owner, t => t.owner == owner
  | clear name owner, t => t.hasKey name owner
  | place u, t => t.hasKey u.name u.owner

def cleared (d : TimerDeed) (p : TimerPool) : TimerPool := (p.clearWhere d.removes).2

/-- The timer that the deed puts into the pool, if there is room. -/
def placed? (d : TimerDeed) (p : TimerPool) : Option (Nat × Timer × TimerPool) :=
  match d with
  | place t =>
    match (d.cleared p).allocate t with
    | .ok (slot, q) => some (slot, t, q)
    | .error _ => none
  | _ => none

def apply (d : TimerDeed) (p : TimerPool) : TimerPool :=
  match d.placed? p with
  | some (_, _, q) => q
  | none => d.cleared p

variable {d : TimerDeed} {p q : TimerPool} {t u : Timer} {slot i : Nat}

theorem of_placed (h : d.placed? p = some (slot, t, q)) :
    d = .place t ∧ (d.cleared p).allocate t = .ok (slot, q) := by
  unfold placed? at h
  split at h
  · rename_i u
    split at h
    · rename_i hroom
      cases h
      exact ⟨rfl, hroom⟩
    · cases h
  · cases h

theorem apply_of_placed (h : d.placed? p = some (slot, t, q)) : d.apply p = q := by
  rw [apply, h]

theorem apply_of_none (h : d.placed? p = none) : d.apply p = d.cleared p := by
  rw [apply, h]

/-- What the deed does not take away stays in its slot. -/
theorem get?_apply_of_kept (h : p.get? i = some t) (hkept : d.removes t = false) :
    (d.apply p).get? i = some t := by
  have hcleared : (d.cleared p).get? i = some t := by
    rw [cleared, TimerPool.get?_clearWhere, h]
    simp [hkept]
  cases hplaced : d.placed? p with
  | none => rwa [apply_of_none hplaced]
  | some placed =>
    obtain ⟨slot, u, q⟩ := placed
    obtain ⟨-, hroom⟩ := of_placed hplaced
    obtain ⟨-, hfree, -⟩ := TimerPool.allocate_eq hroom
    rw [apply_of_placed hplaced, TimerPool.get?_allocate hroom, if_neg]
    · exact hcleared
    · rintro rfl
      rw [hcleared] at hfree
      cases hfree

/-- What is in a slot was there before and is not taken away, or it is the timer put there. -/
theorem of_get?_apply (h : (d.apply p).get? i = some t) :
    p.get? i = some t ∧ d.removes t = false ∨ ∃ q, d.placed? p = some (i, t, q) := by
  cases hplaced : d.placed? p with
  | none =>
    rw [apply_of_none hplaced] at h
    exact .inl (TimerPool.get?_of_clearWhere d.removes h)
  | some placed =>
    obtain ⟨slot, u, q⟩ := placed
    obtain ⟨-, hroom⟩ := of_placed hplaced
    rw [apply_of_placed hplaced, TimerPool.get?_allocate hroom] at h
    split at h
    · rename_i hi
      cases h
      exact .inr ⟨q, by rw [hi]⟩
    · exact .inl (TimerPool.get?_of_clearWhere d.removes h)

theorem counted_apply (h : p.Counted) : (d.apply p).Counted := by
  have hcleared : (d.cleared p).Counted := TimerPool.counted_clearWhere d.removes h
  cases hplaced : d.placed? p with
  | none => rwa [apply_of_none hplaced]
  | some placed =>
    obtain ⟨slot, u, q⟩ := placed
    rw [apply_of_placed hplaced]
    exact TimerPool.counted_allocate (of_placed hplaced).2 hcleared

theorem capacity_apply : (d.apply p).capacity = p.capacity := by
  have hcleared : (d.cleared p).capacity = p.capacity := TimerPool.capacity_clearWhere d.removes
  cases hplaced : d.placed? p with
  | none => rwa [apply_of_none hplaced]
  | some placed =>
    obtain ⟨slot, u, q⟩ := placed
    rw [apply_of_placed hplaced, TimerPool.capacity_allocate (of_placed hplaced).2, hcleared]

end TimerDeed

namespace Exec

def timerVerb (r : Run) : String × Run := readWord.run ((readFlags ['m', 'i']).run r).2

theorem schedule_run (t : Timer) (r : Run) :
    (schedule t).run r =
      match r.timers.allocate t with
      | .ok (_, q) => (.success, r.withTimers q)
      | .error failure => (fail (.failed failure)).run r := by
  have hrun : (schedule t).run r = (match r.timers.allocate t with
      | .ok (_, timers) => (do
        modifyTimers fun _ => timers
        return Outcome.success : Exec Outcome)
      | .error failure => fail (.failed failure)).run r := rfl
  rw [hrun]
  cases r.timers.allocate t with
  | ok allocated => rfl
  | error failure => rfl

theorem timerVerb_timers (r : Run) : (timerVerb r).2.timers = r.timers :=
  (readWord_spares timers_aside _).trans (readFlags_spares timers_aside _ r)

theorem rest_silent : Silent Run.rest := ⟨fun _ _ => rfl⟩

/-- Reading a word leaves the line without it. -/
theorem readWord_rest (r : Run) : (readWord.run r).2.rest = dropToken r.rest := by
  rw [readWord_run, dropToken]
  cases nextToken r.rest with
  | none => rfl
  | some token => exact (rest_silent.law.expand token.word _).trans (Run.rest_readTo r token.rest)

theorem readNumber_rest (r : Run) : (readNumber.run r).2.rest = dropToken r.rest := by
  have hrun : readNumber.run r = (numberOf (readWord.run r).1).run (readWord.run r).2 := rfl
  have hword := readWord_rest r
  rw [hrun]
  generalize readWord.run r = result at hword
  exact (rest_silent.law.numberOf result.1 result.2).trans hword

/-- Reading flags leaves the line without its first word, or as it is. -/
theorem readFlags_rest (allowed : List Char) (r : Run) :
    ∃ n, ((readFlags allowed).run r).2.rest = dropToken^[n] r.rest := by
  simp only [readFlags, StateT.run_bind, StateT.run_get, pure_bind]
  cases htoken : nextToken r.rest with
  | none => exact ⟨0, rfl⟩
  | some token =>
    dsimp only
    cases Flags.lettersOf? token.word with
    | none => exact ⟨0, rfl⟩
    | some letters =>
      have hdrop : dropToken r.rest = token.rest := by rw [dropToken, htoken]
      refine ⟨1, (rest_silent.law.collectFlags allowed letters _).trans ?_⟩
      exact (Run.rest_readTo r token.rest).trans hdrop.symm

theorem timerVerb_rest (r : Run) : ∃ n, (timerVerb r).2.rest = dropToken^[n] r.rest := by
  obtain ⟨n, hn⟩ := readFlags_rest ['m', 'i'] r
  refine ⟨n + 1, ?_⟩
  rw [timerVerb, readWord_rest, hn, Function.iterate_succ_apply']

theorem timerVerb_follows (r : Run) : Follows r (timerVerb r).2 :=
  follows_of_changes ((readFlags_gradual _ r).trans (readWord_gradual _))

/-- What is left of a timer command that sets a timer, once those of its name and owner are gone. -/
def setTimer (flags : Flags) (word name : String) (owner : Option EntityId) : Exec Outcome := do
  let times := Binary32.toUnsigned 32 (← numberOf word)
  let count := Binary32.toUnsigned 64 (← readNumber)
  let period := if flags.has 'm' then count else saturate (count * 1000)
  match ← skipLine with
  | none =>
    report (.timerWithoutCommand name)
    return .failed
  | some resumeAt =>
    let r ← get
    schedule {
      name, script := r.script, owner, times, period, resumeAt
      started := r.world.now
      idleOnly := flags.has 'i' && owner.isSome }

def afterVerb (flags : Flags) (word : String) : Exec Outcome := do
  let owner := (← get).owner
  if word == "kill_local" then
    modifyTimers fun p => (p.clearOwner owner).2
    return .success
  let name := timerName (← get)
  modifyTimers fun p => (p.clearByName name owner).2
  if word == "off" then
    return .success
  setTimer flags word name owner

theorem afterVerb_run (flags : Flags) (word : String) (r : Run) :
    (afterVerb flags word).run r =
      if word == "kill_local" then (.success, r.withTimers (r.timers.clearOwner r.owner).2)
      else if word == "off" then
        (.success, r.withTimers (r.timers.clearByName (timerName r) r.owner).2)
      else (setTimer flags word (timerName r) r.owner).run
        (r.withTimers (r.timers.clearByName (timerName r) r.owner).2) := by
  by_cases hkill : (word == "kill_local") = true
  · simp only [afterVerb, hkill, if_true]
    rfl
  by_cases hoff : (word == "off") = true
  · simp only [afterVerb, hkill, hoff, if_true]
    rfl
  · -- the names of what follows are no matter, and `rfl` would unfold it
    simp only [afterVerb, hkill, hoff]
    generalize setTimer flags word = k
    rfl

def wanted? (flags : Flags) (word name : String) (owner : Option EntityId) (r : Run) : Option Timer :=
  let times := (numberOf word).run r
  let count := readNumber.run times.2
  let task := skipLine.run count.2
  task.1.map fun resumeAt =>
    { name, owner, resumeAt
      script := task.2.script
      times := Binary32.toUnsigned 32 times.1
      period := if flags.has 'm' then Binary32.toUnsigned 64 count.1
        else saturate (Binary32.toUnsigned 64 count.1 * 1000)
      started := task.2.world.now
      idleOnly := flags.has 'i' && owner.isSome }

/-- The rest of the line is passed over. It begins with the first word left on the line. -/
theorem skipLine_run {r : Run} (hplace : r.place.insideChar = false) :
    skipLine.run r =
      ((nextToken r.rest).map fun token => r.script.positionOf token.start, r.readTo (dropLine r.rest)) := by
  have hrun : skipLine.run r = (if r.place.insideChar then some r.position
      else (nextToken r.rest).map fun token => r.script.positionOf token.start,
        r.readTo (dropLine r.rest)) := by
    change StateT.run (if r.place.insideChar then (_ : Exec (Option Nat)) else _)
      (r.readTo (dropLine r.rest)) = _
    split <;> rfl
  rw [hrun, hplace, if_neg Bool.false_ne_true]

theorem of_skipLine {r : Run} {position : Nat} (hplace : r.place.insideChar = false)
    (h : (skipLine.run r).1 = some position) :
    ∃ token, nextToken r.rest = some token ∧ position = r.script.positionOf token.start := by
  rw [skipLine_run hplace, Option.map_eq_some_iff] at h
  obtain ⟨token, htoken, hposition⟩ := h
  exact ⟨token, htoken, hposition.symm⟩

theorem of_wanted {flags : Flags} {word name : String} {owner : Option EntityId} {r : Run} {t : Timer}
    (h : wanted? flags word name owner r = some t) :
    t.name = name ∧ t.owner = owner ∧ t.script = r.script ∧ (t.idleOnly = true → owner.isSome = true) ∧
      ∃ s, ReflTransGen Change r s ∧ s.rest = dropToken r.rest ∧ (skipLine.run s).1 = some t.resumeAt := by
  have hread : ReflTransGen Change r (readNumber.run ((numberOf word).run r).2).2 :=
    (Gradual.law.numberOf word r).trans (Gradual.readingLaw.readNumber _)
  have hrest : (readNumber.run ((numberOf word).run r).2).2.rest = dropToken r.rest := by
    rw [readNumber_rest]
    exact congrArg dropToken (rest_silent.law.numberOf word r)
  rw [wanted?, Option.map_eq_some_iff] at h
  obtain ⟨resumeAt, htask, rfl⟩ := h
  refine ⟨rfl, rfl, ?_, fun hidle => ?_, _, hread, hrest, htask⟩
  · exact (follows_of_changes (hread.trans (skipLine_gradual _))).script
  · exact (Bool.and_eq_true _ _ ▸ hidle).2

/-- The rest of the line is read, and then the timer that it asks for is put into the pool. -/
theorem setTimer_run (flags : Flags) (word name : String) (owner : Option EntityId) (r : Run) :
    ∃ s, s.timers = r.timers ∧ (setTimer flags word name owner).run r =
      match wanted? flags word name owner r with
      | none => (fail (.timerWithoutCommand name)).run s
      | some t => (schedule t).run s := by
  have hnumber := timers_aside.law.numberOf word r
  have hcount := timers_aside.skippingLaw.readNumber ((numberOf word).run r).2
  have hskip := skipLine_spares timers_aside (readNumber.run ((numberOf word).run r).2).2
  rw [hcount, hnumber] at hskip
  rw [wanted?]
  unfold setTimer
  generalize numberOf word = number at *
  generalize readNumber = readCount at *
  refine ⟨(skipLine.run (readCount.run (number.run r).2).2).2, hskip, ?_⟩
  change StateT.run
    (match (skipLine.run (readCount.run (number.run r).2).2).1 with
    | none => (_ : Exec Outcome)
    | some resumeAt => _) (skipLine.run (readCount.run (number.run r).2).2).2 = _
  generalize skipLine.run (readCount.run (number.run r).2).2 = task
  obtain ⟨result, s⟩ := task
  cases result with
  | none => rfl
  | some resumeAt => rfl

theorem setTimer_timers (flags : Flags) (word name : String) (owner : Option EntityId) (r : Run) :
    ((setTimer flags word name owner).run r).2.timers =
      match wanted? flags word name owner r with
      | none => r.timers
      | some t =>
        match r.timers.allocate t with
        | .ok (_, q) => q
        | .error _ => r.timers := by
  obtain ⟨s, htimers, hrun⟩ := setTimer_run flags word name owner r
  rw [hrun]
  cases wanted? flags word name owner r with
  | none => exact htimers
  | some t =>
    dsimp only
    rw [schedule_run, htimers]
    cases r.timers.allocate t with
    | ok allocated => rfl
    | error failure => exact htimers

def timerDeed (r : Run) : TimerDeed :=
  let flags := ((readFlags ['m', 'i']).run r).1
  let (word, s) := timerVerb r
  if word == "kill_local" then .clearOwner s.owner
  else if word == "off" then .clear (timerName s) s.owner
  else
    match wanted? flags word (timerName s) s.owner
      (s.withTimers (s.timers.clearByName (timerName s) s.owner).2) with
    | none => .clear (timerName s) s.owner
    | some t => .place t

theorem runTimer_run (r : Run) :
    runTimer.run r = (afterVerb ((readFlags ['m', 'i']).run r).1 (timerVerb r).1).run (timerVerb r).2 := rfl

/-- A timer command does to the pool what its words ask for, and nothing else. -/
theorem runTimer_timers (r : Run) : (runTimer.run r).2.timers = (timerDeed r).apply r.timers := by
  rw [runTimer_run, timerDeed, ← timerVerb_timers r]
  generalize ((readFlags ['m', 'i']).run r).1 = flags
  obtain ⟨word, s⟩ := timerVerb r
  dsimp only
  rw [afterVerb_run]
  by_cases hkill : (word == "kill_local") = true
  · rw [if_pos hkill, if_pos hkill]
    rfl
  rw [if_neg hkill, if_neg hkill]
  by_cases hoff : (word == "off") = true
  · rw [if_pos hoff, if_pos hoff]
    rfl
  rw [if_neg hoff, if_neg hoff, setTimer_timers]
  cases hwanted : wanted? flags word (timerName s) s.owner
      (s.withTimers (s.timers.clearByName (timerName s) s.owner).2) with
  | none => rfl
  | some t =>
    obtain ⟨hname, howner, -⟩ := of_wanted hwanted
    have hcleared : (TimerDeed.place t).cleared s.timers =
        (s.timers.clearByName (timerName s) s.owner).2 := by
      rw [← hname, ← howner]
      rfl
    rw [TimerDeed.apply, TimerDeed.placed?, hcleared]
    dsimp only
    change (match (s.timers.clearByName (timerName s) s.owner).2.allocate t with
      | .ok (_, q) => q
      | .error _ => (s.timers.clearByName (timerName s) s.owner).2) = _
    cases (s.timers.clearByName (timerName s) s.owner).2.allocate t with
    | ok allocated => rfl
    | error failure => rfl

/-- Reading the line does not change the name that the command word asks for. -/
theorem timerName_timerVerb (r : Run) : timerName (timerVerb r).2 = timerName r := by
  have htimers : (timerVerb r).2.shared.timers = r.shared.timers := timerVerb_timers r
  rw [timerName, timerName, (timerVerb_follows r).command, htimers]

theorem timerDeed_of_killLocal {r : Run} (h : (timerVerb r).1 = "kill_local") :
    timerDeed r = .clearOwner r.owner := by
  have howner := (timerVerb_follows r).owner
  rw [timerDeed, ← howner]
  dsimp only
  rw [h, if_pos (by decide)]

theorem timerDeed_of_off {r : Run} (h : (timerVerb r).1 = "off") :
    timerDeed r = .clear (timerName r) r.owner := by
  have howner := (timerVerb_follows r).owner
  rw [timerDeed, ← howner, ← timerName_timerVerb r]
  dsimp only
  rw [h, if_neg (by decide), if_pos (by decide)]

/-- A new timer belongs to the run: it has its owner, its script, and the name that the command asks
for, and resumes at what some words leave of the line. -/
theorem timerDeed_place {r : Run} {t : Timer} (h : timerDeed r = .place t) :
    t.name = timerName r ∧ t.owner = r.owner ∧ t.script = r.script ∧
      (t.idleOnly = true → t.owner.isSome = true) ∧
      ∃ s n, ReflTransGen Change r s ∧ s.rest = dropToken^[n] r.rest ∧
        (skipLine.run s).1 = some t.resumeAt := by
  have hfollows := timerVerb_follows r
  have hname := timerName_timerVerb r
  obtain ⟨n, hrest⟩ := timerVerb_rest r
  have hread : ReflTransGen Change r (timerVerb r).2 :=
    (readFlags_gradual _ r).trans (readWord_gradual _)
  rw [timerDeed] at h
  generalize ((readFlags ['m', 'i']).run r).1 = flags at h
  rcases hverb : timerVerb r with ⟨word, s⟩
  rw [hverb] at h hfollows hname hread hrest
  dsimp only at h hfollows hname hread hrest
  split_ifs at h
  split at h
  · cases h
  · rename_i hwanted
    cases h
    obtain ⟨hisName, hisOwner, hscript, hidle, s', hs', hrest', hskip⟩ := of_wanted hwanted
    refine ⟨hisName.trans hname, hisOwner.trans hfollows.owner, hscript.trans hfollows.script, ?_, s', n + 1, ?_,
      ?_, hskip⟩
    · rwa [hisOwner]
    rotate_left
    · rw [hrest', Function.iterate_succ_apply', ← hrest]
      rfl
    · refine (hread.tail (.cleared s _ fun u hu => ?_)).trans hs'
      exact (Bool.and_eq_true _ _ ▸ hu : _ ∧ _).1 |> beq_iff_eq.1

def order? (table : CommandTable) (word : String) (r : Run) : Option Run :=
  match table.lookup word with
  | some (_, .timer) => some { r with command := word }
  | _ => none

theorem of_order {table : CommandTable} {word : String} {r o : Run} (h : order? table word r = some o) :
    (∃ name, table.lookup word = some (name, .timer)) ∧ o = { r with command := word } := by
  unfold order? at h
  split at h
  · rename_i name hlookup
    exact ⟨⟨name, hlookup⟩, (Option.some.inj h).symm⟩
  · cases h

/-- The pool is changed by timer commands only, and as their words ask for. -/
theorem runWord_timers (table : CommandTable) (word : String) (r : Run) :
    ((runWord table word).run r).2.timers =
      match order? table word r with
      | some o => (timerDeed o).apply o.timers
      | none => r.timers := by
  rw [runWord_run, order?]
  cases table.lookup word with
  | none => exact passOver_spares timers_aside _ r
  | some found =>
    obtain ⟨name, command⟩ := found
    dsimp only
    by_cases htimer : command = .timer
    · subst htimer
      rw [if_neg (by simp [Command.needsEntity])]
      exact runTimer_timers _
    · have hspares := execute_sparesTimers htimer { r with command := word }
      have hnone : (match some (name, command) with
          | some (_, .timer) => some { r with command := word }
          | _ => none) = none := by
        cases command <;> first | rfl | exact absurd rfl htimer
      rw [hnone]
      split
      · exact passOver_spares timers_aside _ r
      · exact hspares

end Exec

end EntityScript
