import EntityScript.Proofs.Deeds
import EntityScript.Proofs.Names
import EntityScript.Proofs.Targets
import EntityScript.Proofs.Wholes

/-! Setting a timer. The words of its line are a setting, and the timer that they ask for takes the place
of those of its name and owner. There is no room for it only in a pool that is full of others, and such a
pool stays as it is. A timer without a name gets one that no timer in the pool has. -/

namespace EntityScript

open Reading

namespace TimerPool

/-- The timer has taken the place of those of its name and owner. -/
structure Rearmed (p q : TimerPool) (t : Timer) : Prop where
  capacity : q.capacity = p.capacity
  single : ∃ slot, ∀ i u, u.hasKey t.name t.owner = true → (q.get? i = some u ↔ i = slot ∧ u = t)
  others : ∀ i u, u.hasKey t.name t.owner = false → (q.get? i = some u ↔ p.get? i = some u)

end TimerPool

theorem Timer.hasKey_self (t : Timer) : t.hasKey t.name t.owner = true := by
  simp [hasKey]

/-- The timer stands where nothing was, or one of its name and owner. -/
theorem TimerPool.Rearmed.exists_slot {p q : TimerPool} {t : Timer} (h : p.Rearmed q t) :
    ∃ slot < p.capacity, q.get? slot = some t ∧
      ∀ u, p.get? slot = some u → u.hasKey t.name t.owner = true := by
  obtain ⟨slot, hsingle⟩ := h.single
  have hput : q.get? slot = some t := (hsingle slot t t.hasKey_self).2 ⟨rfl, rfl⟩
  refine ⟨slot, ?_, hput, fun u hbefore => ?_⟩
  · rw [← h.capacity]
    exact lt_capacity_of_get? hput
  · cases hkey : u.hasKey t.name t.owner with
    | true => rfl
    | false =>
      have hkept := (h.others slot u hkey).2 hbefore
      cases hkept.symm.trans hput
      exact absurd (t.hasKey_self.symm.trans hkey) (by decide)

namespace TimerDeed

variable {p : TimerPool} {t : Timer}

theorem placed?_eq_none_iff :
    (place t).placed? p = none ↔
      p.Full ∧ ∀ slot u, p.get? slot = some u → u.hasKey t.name t.owner = false := by
  refine Iff.trans ?_ (TimerPool.full_clearWhere _)
  refine Iff.trans ?_ (TimerPool.allocate_eq_error_iff (t := t))
  change (place t).placed? p = none ↔ ∃ failure, ((place t).cleared p).allocate t = .error failure
  rw [placed?]
  cases ((place t).cleared p).allocate t <;> simp

/-- Where there is no room there was nothing to take away. -/
theorem apply_of_refused (h : (place t).placed? p = none) : (place t).apply p = p := by
  rw [apply_of_none h]
  exact TimerPool.clearWhere_of_none _ (placed?_eq_none_iff.1 h).2

theorem apply_rearmed (h : (place t).placed? p ≠ none) : p.Rearmed ((place t).apply p) t := by
  obtain ⟨⟨slot, t', q⟩, hplaced⟩ := Option.ne_none_iff_exists'.1 h
  obtain ⟨hdeed, hroom⟩ := of_placed hplaced
  cases hdeed
  refine ⟨capacity_apply, ⟨slot, fun i u hkey => ⟨fun hget => ?_, ?_⟩⟩, fun i u hkey => ⟨fun hget => ?_, ?_⟩⟩
  · rcases of_get?_apply hget with ⟨-, hkept⟩ | ⟨q', hput⟩
    · cases hkept.symm.trans hkey
    · cases hplaced.symm.trans hput
      exact ⟨rfl, rfl⟩
  · rintro ⟨rfl, rfl⟩
    rw [apply_of_placed hplaced, TimerPool.get?_allocate hroom, if_pos rfl]
  · rcases of_get?_apply hget with ⟨hbefore, -⟩ | ⟨q', hput⟩
    · exact hbefore
    · cases hplaced.symm.trans hput
      cases hkey.symm.trans (Timer.hasKey_self _)
  · exact fun hget => get?_apply_of_kept hget hkey

end TimerDeed

/-- No operand stands for something that depends on the timers. -/
theorem Run.valueOf_withTimers (r : Run) (timers : TimerPool) : (r.withTimers timers).valueOf = r.valueOf := by rfl

namespace Exec

/-- The flags ahead on the line, and the line without them. -/
def flagsAhead (cs : List Char) : Flags × List Char :=
  match nextToken cs with
  | none => ({}, cs)
  | some token =>
    match Flags.lettersOf? token.word with
    | none => ({}, cs)
    | some letters => (⟨letters.map Char.toLower⟩, token.rest)

/-- What a line says that sets a timer: flags, the number of runs, the period, and a statement. -/
structure Setting where
  flags : Flags
  count : List Char
  period : List Char
  /-- The text from the statement on. -/
  task : List Char
deriving DecidableEq

namespace Setting

def of? (cs : List Char) : Option Setting := do
  let count ← nextToken (flagsAhead cs).2
  let period ← nextToken count.rest
  let task ← nextToken period.rest
  return ⟨(flagsAhead cs).1, count.word, period.word, task.start⟩

def timer (s : Setting) (r : Run) (name : String) : Timer where
  name
  script := r.script
  owner := r.owner
  times := (Binary32.wholeWithin 0 (2 ^ 32 - 1) (r.numberOf (r.filled s.count))).toNat
  period :=
    let count := (Binary32.wholeWithin 0 (2 ^ 64 - 1) (r.numberOf (r.filled s.period))).toNat
    if s.flags.has 'm' then count else min (2 ^ 64 - 1) (count * 1000)
  resumeAt := r.script.positionOf s.task
  started := r.world.now
  idleOnly := s.flags.has 'i' && r.owner.isSome

/-- The timer depends on what the words stand for, and neither on the place of the run nor on the timers. -/
theorem timer_congr {r t : Run} (hvalue : ∀ word wanted, t.valueOf word wanted = r.valueOf word wanted)
    (hscript : t.script = r.script) (howner : t.owner = r.owner) (hworld : t.world = r.world)
    (s : Setting) : s.timer t = s.timer r := by
  have hnumber : t.numberOf = r.numberOf := funext fun word => congrArg Value.toNumber (hvalue word .number)
  have hfilled : t.filled = r.filled := Run.filled_congr fun word => congrArg Value.toText (hvalue word .text)
  funext name
  rw [timer, timer, hnumber, hfilled, hscript, howner, hworld]

end Setting

theorem readFlags_ahead {allowed : List Char} (hallowed : ∀ c ∈ allowed, c.isAlpha = true) (r : Run) :
    ∃ flags place journal, (readFlags allowed).run r = (flags, { r with place, journal }) ∧
      place.rest = (flagsAhead r.rest).2 ∧
      ∀ letter, allowed.contains letter.toLower = true → flags.has letter = (flagsAhead r.rest).1.has letter := by
  simp only [readFlags, StateT.run_bind, StateT.run_get, pure_bind]
  unfold flagsAhead
  cases htoken : nextToken r.rest with
  | none => exact ⟨{}, r.place, r.journal, rfl, rfl, fun _ _ => rfl⟩
  | some token =>
    dsimp only
    cases hletters : Flags.lettersOf? token.word with
    | none => exact ⟨{}, r.place, r.journal, rfl, rfl, fun _ _ => rfl⟩
    | some letters =>
      obtain ⟨journal, hrun⟩ := collectFlags_run hallowed letters (r.readTo token.rest)
      exact ⟨_, _, journal, hrun, Text.Place.rest_readTo r.place token.rest, fun _ h => has_filter h⟩

theorem readNumber_token {r : Run} {token : Token} (h : nextToken r.rest = some token) :
    ∃ journal, readNumber.run r =
      (r.numberOf (r.filled token.word), { r.readTo token.rest with journal }) := by
  obtain ⟨read, hword⟩ := readWord_token h
  obtain ⟨journal, hnumber⟩ := numberOf_run (r.filled token.word) { r.readTo token.rest with journal := read }
  have hscene : SameScene r { r.readTo token.rest with journal := read } :=
    (SameScene.readTo r token.rest).trans (.journal _ read)
  refine ⟨journal, (run_bind_of hword).trans ?_⟩
  rw [hnumber, hscene.numberOf]

/-- The flags and the first word behind them are read. -/
theorem timerVerb_ahead {r : Run} {count : Token} (h : nextToken (flagsAhead r.rest).2 = some count) :
    ∃ place journal, timerVerb r = (r.filled count.word, { r with place, journal }) ∧
      place.rest = count.rest ∧ ((readFlags ['m', 'i']).run r).1.has 'm' = (flagsAhead r.rest).1.has 'm' ∧
      ((readFlags ['m', 'i']).run r).1.has 'i' = (flagsAhead r.rest).1.has 'i' := by
  have hletters : ∀ c ∈ ['m', 'i'], c.isAlpha = true := by decide
  obtain ⟨flags, place, journal, hrun, hrest, hflags⟩ := readFlags_ahead hletters r
  have hnext : nextToken (Run.rest { r with place, journal }) = some count := by rw [← h, ← hrest]; rfl
  obtain ⟨journal', hword⟩ := readWord_token hnext
  have hscene := SameScene.moved r place journal
  rw [hscene.filled] at hword
  rw [timerVerb, hrun]
  exact ⟨_, journal', hword, Text.Place.rest_readTo _ _, hflags 'm' (by decide), hflags 'i' (by decide)⟩

/-- The timer that the words ask for. -/
theorem wanted?_eq {r : Run} {s : Setting} {period task : Token} {flags : Flags} (name : String)
    (hperiod : nextToken r.rest = some period) (htask : nextToken period.rest = some task)
    (hs : s.period = period.word) (hs' : s.task = task.start)
    (hm : flags.has 'm' = s.flags.has 'm') (hi : flags.has 'i' = s.flags.has 'i') :
    wanted? flags (r.filled s.count) name r.owner r = some (s.timer r name) := by
  obtain ⟨journal, htimes⟩ := numberOf_run (r.filled s.count) r
  obtain ⟨journal', hcount⟩ := readNumber_token (r := { r with journal }) hperiod
  have hskip := skipLine_run (r := { Run.readTo { r with journal } period.rest with journal := journal' })
    (Text.Place.insideChar_readTo _ _)
  have hleft : Run.rest { Run.readTo { r with journal } period.rest with journal := journal' } = period.rest :=
    Run.rest_readTo _ _
  have hnumber : Run.numberOf { r with journal } (Run.filled { r with journal } period.word) =
      r.numberOf (r.filled s.period) := by
    rw [hs, (SameScene.journal r journal).filled, (SameScene.journal r journal).numberOf]
  rw [hleft, htask] at hskip
  rw [hnumber] at hcount
  rw [wanted?, htimes]
  dsimp only
  rw [hcount]
  dsimp only
  rw [hskip, Setting.timer, hs', hm, hi, Binary32.toUnsigned_eq, Binary32.toUnsigned_eq]
  rfl

namespace Setting

variable {r : Run} {s : Setting}

theorem of_of? {cs : List Char} (h : of? cs = some s) :
    ∃ count period task, nextToken (flagsAhead cs).2 = some count ∧ nextToken count.rest = some period ∧
      nextToken period.rest = some task ∧ s = ⟨(flagsAhead cs).1, count.word, period.word, task.start⟩ := by
  simp only [of?, Option.bind_eq_bind, Option.bind_eq_some_iff, Option.pure_def, Option.some.injEq] at h
  obtain ⟨count, hcount, period, hperiod, task, htask, rfl⟩ := h
  exact ⟨count, period, task, hcount, hperiod, htask, rfl⟩

variable (hs : of? r.rest = some s)
include hs

theorem timerVerb_word : (timerVerb r).1 = r.filled s.count := by
  obtain ⟨count, period, task, hcount, -, -, rfl⟩ := of_of? hs
  obtain ⟨place, journal, hverb, -⟩ := timerVerb_ahead hcount
  rw [hverb]

/-- What the command wants once its first word is read and some timers are taken away. -/
theorem wanted?_timerVerb (timers : TimerPool) (name : String) :
    wanted? ((readFlags ['m', 'i']).run r).1 (r.filled s.count) name r.owner
      ((timerVerb r).2.withTimers timers) = some (s.timer r name) := by
  obtain ⟨count, period, task, hcount, hperiod, htask, rfl⟩ := of_of? hs
  obtain ⟨place, journal, hverb, hrest, hm, hi⟩ := timerVerb_ahead hcount
  rw [hverb]
  have hnext : nextToken (Run.withTimers { r with place, journal } timers).rest = some period := by
    rw [← hperiod, ← hrest]
    rfl
  have hscene := SameScene.moved r place journal
  have hvalue : ∀ word wanted, (Run.withTimers { r with place, journal } timers).valueOf word wanted =
      r.valueOf word wanted := by
    intro word wanted
    rw [Run.valueOf_withTimers, hscene.valueOf]
  have hfilled : (Run.withTimers { r with place, journal } timers).filled = r.filled :=
    Run.filled_congr fun word => congrArg Value.toText (hvalue word .text)
  have hwanted := wanted?_eq (s := ⟨(flagsAhead r.rest).1, count.word, period.word, task.start⟩) name hnext htask
    rfl rfl hm hi
  rw [hfilled, timer_congr (t := Run.withTimers { r with place, journal } timers) hvalue rfl rfl rfl] at hwanted
  exact hwanted

variable (hoff : r.filled s.count ≠ "off") (hlocal : r.filled s.count ≠ "kill_local")
include hoff hlocal

/-- The command puts the timer of its setting into the pool. -/
theorem timerDeed_eq : timerDeed r = .place (s.timer r (timerName r)) := by
  have hword := timerVerb_word hs
  have hwanted := wanted?_timerVerb hs ((timerVerb r).2.timers.clearByName (timerName r) r.owner).2 (timerName r)
  rw [timerDeed]
  dsimp only
  rw [hword, timerName_timerVerb, (timerVerb_follows r).owner, if_neg (by simpa using hlocal),
    if_neg (by simpa using hoff), hwanted]

/-- The command fails where there is no room for the timer. -/
theorem runTimer_outcome :
    (runTimer.run r).1 =
      if (TimerDeed.place (s.timer r (timerName r))).placed? r.timers = none then .failed else .success := by
  have hword := timerVerb_word hs
  have hwanted := wanted?_timerVerb hs ((timerVerb r).2.timers.clearByName (timerName r) r.owner).2 (timerName r)
  rw [runTimer_run, afterVerb_run, hword, timerName_timerVerb, (timerVerb_follows r).owner,
    if_neg (by simpa using hlocal), if_neg (by simpa using hoff)]
  obtain ⟨t, htimers, hrun⟩ := setTimer_run ((readFlags ['m', 'i']).run r).1 (r.filled s.count) (timerName r)
    r.owner ((timerVerb r).2.withTimers ((timerVerb r).2.timers.clearByName (timerName r) r.owner).2)
  have hcleared : t.timers = (TimerDeed.place (s.timer r (timerName r))).cleared r.timers := by
    rw [htimers, timerVerb_timers]
    rfl
  rw [hrun, hwanted]
  dsimp only
  rw [schedule_run, hcleared, TimerDeed.placed?]
  cases ((TimerDeed.place (s.timer r (timerName r))).cleared r.timers).allocate (s.timer r (timerName r)) <;> rfl

/-- What becomes of the pool, where the word of the command is that of the run. -/
theorem runTimer_rearms :
    let name := timerName r
    let done := runTimer.run r
    (done.1 = .failed ↔
        r.timers.Full ∧ ∀ slot t, r.timers.get? slot = some t → t.hasKey name r.owner = false) ∧
      (done.1 = .failed → done.2.timers = r.timers) ∧
      (done.1 ≠ .failed → done.1 = .success ∧ r.timers.Rearmed done.2.timers (s.timer r name)) := by
  intro name done
  have hrefused : (TimerDeed.place (s.timer r name)).placed? r.timers = none ↔ _ := TimerDeed.placed?_eq_none_iff
  have houtcome : done.1 = if (TimerDeed.place (s.timer r name)).placed? r.timers = none then .failed else .success :=
    runTimer_outcome hs hoff hlocal
  have htimers : done.2.timers = (TimerDeed.place (s.timer r name)).apply r.timers := by
    rw [← timerDeed_eq hs hoff hlocal]
    exact runTimer_timers r
  by_cases hroom : (TimerDeed.place (s.timer r name)).placed? r.timers = none
  · rw [if_pos hroom] at houtcome
    refine ⟨iff_of_true houtcome (hrefused.1 hroom), fun _ => ?_, fun hdid => absurd houtcome hdid⟩
    rw [htimers, TimerDeed.apply_of_refused hroom]
  · rw [if_neg hroom] at houtcome
    have hdid : done.1 ≠ .failed := by simp [houtcome]
    refine ⟨iff_of_false hdid (mt hrefused.2 hroom), fun hfailed => absurd hfailed hdid, fun _ => ⟨houtcome, ?_⟩⟩
    rw [htimers]
    exact TimerDeed.apply_rearmed hroom

end Setting

/-- A word with something behind `timer` names the timer so. -/
theorem timerName_named {r : Run} {suffix : String} (hcommand : r.command = "timer" ++ suffix)
    (hsuffix : suffix ≠ "") : timerName r = Text.lowercase suffix := by
  have hprefix : ['t', 'i', 'm', 'e', 'r'].isPrefixOf? r.command.toList = some suffix.toList := by
    rw [hcommand, String.toList_append]
    rfl
  cases hletters : suffix.toList with
  | nil => exact absurd (String.toList_eq_nil_iff.1 hletters) hsuffix
  | cons c rest =>
    rw [timerName, hprefix, hletters]
    dsimp only
    rw [← hletters, String.ofList_toList]

/-- Any other word gives it a name that no timer has. -/
theorem timerName_unnamed {r : Run} (h : ¬∃ suffix, r.command = "timer" ++ suffix ∧ suffix ≠ "") :
    timerName r = r.timers.freshName := by
  unfold timerName
  split
  · rename_i c rest hprefix
    refine absurd ⟨String.ofList (c :: rest), String.toList_inj.1 ?_, by simp⟩ h
    rw [← List.isPrefixOf?_eq_some_iff_append_eq.1 hprefix]
    simp
  · rfl

/-- A timer command that sets a timer fails exactly when every slot holds a timer of another name or owner,
and then the pool is as before. Otherwise it succeeds, the new timer is the only one of its name and owner,
and the others are as before, each in its slot. A timer without a name gets one that was not there before. -/
theorem runWord_rearms {table : CommandTable} {word verb : String} {r : Run} {s : Setting}
    (hlookup : table.lookup word = some (verb, .timer)) (hs : Setting.of? r.rest = some s)
    (hoff : r.filled s.count ≠ "off") (hlocal : r.filled s.count ≠ "kill_local") :
    let name := timerName { r with command := word }
    let done := (runWord table word).run r
    (done.1 = .failed ↔
        r.timers.Full ∧ ∀ slot t, r.timers.get? slot = some t → t.hasKey name r.owner = false) ∧
      (done.1 = .failed → done.2.timers = r.timers) ∧
      (done.1 ≠ .failed → done.1 = .success ∧ r.timers.Rearmed done.2.timers (s.timer r name)) ∧
      (∀ suffix, word = "timer" ++ suffix → suffix ≠ "" → name = Text.lowercase suffix) ∧
      ((¬∃ suffix, word = "timer" ++ suffix ∧ suffix ≠ "") → r.timers.Counted →
        ∀ slot t, r.timers.get? slot = some t → t.name ≠ name) := by
  intro name done
  have hdone : done = runTimer.run { r with command := word } := runWord_of_lookup hlookup rfl
  have hscene := SameScene.command r word
  have hfilled : Run.filled { r with command := word } = r.filled := Run.filled_congr hscene.textOf
  have htimer : s.timer { r with command := word } = s.timer r :=
    Setting.timer_congr (t := { r with command := word }) hscene.valueOf rfl rfl rfl s
  have hmain := Setting.runTimer_rearms (r := { r with command := word }) hs (by rwa [hfilled]) (by rwa [hfilled])
  rw [← hdone, htimer] at hmain
  refine ⟨hmain.1, hmain.2.1, hmain.2.2, fun suffix hword => ?_, fun hword _ slot t hget => ?_⟩
  · exact timerName_named (r := { r with command := word }) hword
  · have hname : name = r.timers.freshName := timerName_unnamed (r := { r with command := word }) hword
    rw [hname]
    exact TimerPool.name_ne_freshName hget

def hourglass (name : String) (owner : Option EntityId) : Timer where
  name
  script := .ofText "hourglass" "nop"
  owner
  times := 0
  period := 1000
  resumeAt := 0
  started := 0
  idleOnly := false

def glazier (command line : String) (slots : List (Option Timer)) : Run where
  script := .ofText "glazier" (command ++ line)
  place := .ofPosition 0 line.toList
  owner := some 1
  own := .fresh 0
  shared :=
    { globals := .withCapacity 0, timers := ⟨slots.toArray, slots.reduceOption.length⟩
      random := .ofSeed 0, maxCallDepth := 1 }
  world := { now := 7 }
  sender := none

def rearming (holder : EntityId) : Run :=
  glazier "timerx" " -m 2 500 nop" [some (hourglass "x" none), some (hourglass "x" (some holder))]

def nameless : Run := glazier "timer" " -i 3 2 nop" [some (hourglass "timer_0" none), none]

def halfSeconds : Setting := ⟨⟨['m']⟩, ['2'], ['5', '0', '0'], "nop".toList⟩

def twoSeconds : Setting := ⟨⟨['i']⟩, ['3'], ['2'], "nop".toList⟩

theorem timer_halfSeconds :
    halfSeconds.timer (rearming 1) "x" =
      { name := "x", script := .ofText "glazier" "timerx -m 2 500 nop", owner := some 1, times := 2, period := 500
        resumeAt := 16, started := 7, idleOnly := false } := by
  rw [Setting.timer, Timer.mk.injEq]
  refine ⟨rfl, rfl, rfl, ?_, ?_, ?_, rfl, ?_⟩ <;> decide +kernel

theorem timer_twoSeconds :
    twoSeconds.timer nameless "timer_1" =
      { name := "timer_1", script := .ofText "glazier" "timer -i 3 2 nop", owner := some 1, times := 3
        period := 2000, resumeAt := 13, started := 7, idleOnly := true } := by
  rw [Setting.timer, Timer.mk.injEq]
  refine ⟨rfl, rfl, rfl, ?_, ?_, ?_, rfl, ?_⟩ <;> decide +kernel

theorem full_rearming (holder : EntityId) : (rearming holder).timers.Full := by
  rintro (_ | _ | slot) hlt
  · exact ⟨_, rfl⟩
  · exact ⟨_, rfl⟩
  · have hlt : slot + 2 < 2 := hlt
    omega

theorem timerName_nameless : timerName { nameless with command := "timer" } = "timer_1" := by
  have htaken : nameless.timers.isTaken (TimerPool.numberedName 0) = true := by decide +kernel
  have hfree : nameless.timers.isTaken (TimerPool.numberedName 1) = false := by decide +kernel
  have hfirst : nameless.timers.firstFree 0 = 1 := by
    rw [TimerPool.firstFree, if_pos htaken, TimerPool.firstFree, if_neg (Bool.eq_false_iff.1 hfree)]
  exact congrArg TimerPool.numberedName hfirst

/-- In a pool of two slots the timer gets the second one, if the first is another's. -/
theorem get?_one_of_rearmed {p q : TimerPool} {t u : Timer} (h : p.Rearmed q t) (hcapacity : p.capacity = 2)
    (hother : p.get? 0 = some u) (hkey : u.hasKey t.name t.owner = false) :
    q.get? 0 = some u ∧ q.get? 1 = some t := by
  obtain ⟨slot, hlt, hput, hbefore⟩ := h.exists_slot
  refine ⟨(h.others 0 u hkey).2 hother, ?_⟩
  rw [hcapacity] at hlt
  obtain rfl | rfl : slot = 0 ∨ slot = 1 := by omega
  · cases (hbefore u hother).symm.trans hkey
  · exact hput

theorem rearming_others {slot : Nat} {t : Timer} (h : (rearming 2).timers.get? slot = some t) :
    t.hasKey "x" (some 1) = false := by
  obtain _ | _ | slot := slot
  · cases h
    decide
  · cases h
    decide
  · cases h

/-- The pool is full, and yet entity 1 sets the timer that it has once more. It could not if that were the timer
of entity 2. Without a name the timer gets one of its own. -/
theorem runWord_rearms_glazier :
    let table := CommandTable.builtin (.ofLegacy true)
    let rearmed := (runWord table "timerx").run (rearming 1)
    let refused := (runWord table "timerx").run (rearming 2)
    let made := (runWord table "timer").run nameless
    ((rearming 1).timers.Full ∧ rearmed.1 = .success ∧ rearmed.2.timers.get? 0 = some (hourglass "x" none) ∧
      rearmed.2.timers.get? 1 = some
        { name := "x", script := .ofText "glazier" "timerx -m 2 500 nop", owner := some 1, times := 2, period := 500
          resumeAt := 16, started := 7, idleOnly := false }) ∧
    (refused.1 = .failed ∧ refused.2.timers = (rearming 2).timers) ∧
    made.1 = .success ∧ made.2.timers.get? 0 = some (hourglass "timer_0" none) ∧
      made.2.timers.get? 1 = some
        { name := "timer_1", script := .ofText "glazier" "timer -i 3 2 nop", owner := some 1, times := 3
          period := 2000, resumeAt := 13, started := 7, idleOnly := true } := by
  have hnamed : (CommandTable.builtin (.ofLegacy true)).lookup "timerx" = some ("timer", .timer) :=
    CommandTable.builtin_timer (by decide) (by decide)
  have hset : Setting.of? (rearming 1).rest = some halfSeconds := by decide +kernel
  have hcount : ∀ holder, (rearming holder).filled halfSeconds.count = "2" := fun _ => by rfl
  have hname : ∀ holder, timerName { rearming holder with command := "timerx" } = "x" := by
    intro holder
    rw [timerName_named (show "timerx" = "timer" ++ "x" by rfl) (by decide)]
    exact Text.lowercase_of_isLower (by decide)
  have hmain := fun holder => runWord_rearms (r := rearming holder) hnamed hset (by rw [hcount]; decide)
    (by rw [hcount]; decide)
  intro table
  -- with a run in sight every comparison of outcomes would carry it out
  refine ⟨?_, ?_, ?_⟩
  · have hrearms := hmain 1
    rw [hname] at hrearms
    dsimp only at hrearms
    rw [timer_halfSeconds] at hrearms
    generalize (runWord _ "timerx").run (rearming 1) = rearmed at hrearms ⊢
    obtain ⟨hfails, -, hdoes, -⟩ := hrearms
    have hdid : rearmed.1 ≠ .failed := by
      intro hfailed
      have hother := (hfails.1 hfailed).2 1 (hourglass "x" (some 1)) rfl
      exact absurd hother (by decide)
    obtain ⟨hsuccess, hrearmed⟩ := hdoes hdid
    exact ⟨full_rearming 1, hsuccess, get?_one_of_rearmed hrearmed rfl rfl (by decide)⟩
  · have hrefuses := hmain 2
    rw [hname] at hrefuses
    generalize (runWord _ "timerx").run (rearming 2) = refused at hrefuses ⊢
    obtain ⟨hfails, hkept, -⟩ := hrefuses
    have hfailed : refused.1 = .failed := hfails.2 ⟨full_rearming 2, fun _ _ => rearming_others⟩
    exact ⟨hfailed, hkept hfailed⟩
  · have hnameless : (CommandTable.builtin (.ofLegacy true)).lookup "timer" = some ("timer", .timer) :=
      CommandTable.builtin_knows _ "timer" .timer (by decide)
    have hset : Setting.of? nameless.rest = some twoSeconds := by decide +kernel
    have hcount : nameless.filled twoSeconds.count = "3" := by decide +kernel
    have hmakes := runWord_rearms hnameless hset (by rw [hcount]; decide) (by rw [hcount]; decide)
    rw [timerName_nameless] at hmakes
    dsimp only at hmakes
    rw [timer_twoSeconds] at hmakes
    generalize (runWord _ "timer").run nameless = made at hmakes ⊢
    obtain ⟨hfails, -, hdoes, -⟩ := hmakes
    have hdid : made.1 ≠ .failed := by
      intro hfailed
      obtain ⟨_, hnone⟩ := (hfails.1 hfailed).1 1 (by decide)
      cases hnone
    obtain ⟨hsuccess, hrearmed⟩ := hdoes hdid
    exact ⟨hsuccess, get?_one_of_rearmed hrearmed rfl rfl (by decide)⟩

end Exec

end EntityScript
