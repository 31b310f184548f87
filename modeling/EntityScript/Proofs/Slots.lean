import EntityScript.Proofs.Pool
import Mathlib.Logic.Function.Basic

/-! The pool as an array of slots, with a timer or none in each. `Request.Meets` says of the slots alone what
is answered to a request and what every slot holds afterwards. The count that is kept beside the slots goes
along with them through all sequences of requests: nothing is ever taken off that was not counted. -/

namespace EntityScript

namespace Timer

/-- The timer runs when its slot is looked at: it is due, and its owner is not too busy for it. -/
def runs (t : Timer) (now : Nat) (ownerIdle : Bool) : Bool := t.isDue now && !(t.idleOnly && !ownerIdle)

/-- The timer after its slot is looked at; none after its last run. -/
def looked (t : Timer) (now : Nat) (ownerIdle : Bool) : Option Timer :=
  if t.runs now ownerIdle then t.rearm now
  else if t.isDue now then some { t with started := now }
  else some t

end Timer

inductive Request
  | allocate (t : Timer)
  | free (slot : Nat)
  | clearByName (name : String) (owner : Option EntityId)
  | clearOwner (owner : Option EntityId)
  | poll (slot now : Nat) (ownerIdle : Bool)

inductive Reply
  | placed (slot : Nat)
  | refused (failure : Failure)
  | freed (timer? : Option Timer)
  | cleared (count : Nat)
  | ran (timer? : Option Timer)

namespace Reply

def added : Reply → Nat
  | placed _ => 1
  | _ => 0

/-- How many timers have gone. One that runs goes after its last run. -/
def removed : Reply → Nat
  | freed timer? => timer?.isSome.toNat
  | cleared count => count
  | ran timer? => (timer?.any (·.times == 1)).toNat
  | _ => 0

end Reply

namespace Request

/-- The slots whose timer satisfies `unwanted` are emptied, and so many are counted. -/
def Clears (capacity : Nat) (held left : Nat → Option Timer) (unwanted : Timer → Bool) (count : Nat) : Prop :=
  left = (fun i => (held i).filter (!unwanted ·)) ∧
    count = (List.range capacity).countP fun i => (held i).any unwanted

/-- What comes of a request, said of what the slots held and what is left in them. -/
def Meets (capacity : Nat) (held left : Nat → Option Timer) : Request → Reply → Prop
  | allocate t, .placed slot =>
    slot < capacity ∧ held slot = none ∧ (∀ i < slot, held i ≠ none) ∧ left = Function.update held slot (some t)
  | allocate _, .refused failure =>
    (∀ i < capacity, held i ≠ none) ∧ failure = .noFreeTimer capacity ∧ left = held
  | free slot, .freed timer? => timer? = held slot ∧ left = Function.update held slot none
  | clearByName name owner, .cleared count => Clears capacity held left (·.hasKey name owner) count
  | clearOwner owner, .cleared count => Clears capacity held left (·.owner == owner) count
  | poll slot now ownerIdle, .ran timer? =>
    timer? = (held slot).filter (·.runs now ownerIdle) ∧
      left = Function.update held slot ((held slot).bind (·.looked now ownerIdle))
  | _, _ => False

end Request

namespace TimerPool

variable {p q : TimerPool} {t : Timer} {slot i : Nat}

/-- Does what is asked. A pool without room for a timer stays as it is. -/
def serve (p : TimerPool) : Request → Reply × TimerPool
  | .allocate t =>
    match p.allocate t with
    | .ok (slot, q) => (.placed slot, q)
    | .error failure => (.refused failure, p)
  | .free slot => (p.take slot).map Reply.freed id
  | .clearByName name owner => (p.clearByName name owner).map Reply.cleared id
  | .clearOwner owner => (p.clearOwner owner).map Reply.cleared id
  | .poll slot now ownerIdle => (p.poll slot now ownerIdle).map Reply.ran id

def serveAll (p : TimerPool) (requests : List Request) : TimerPool :=
  requests.foldl (fun q request => (q.serve request).2) p

/-- The slots, one after another. -/
theorem toList_slots (p : TimerPool) : p.slots.toList = (List.range p.capacity).map p.get? := by
  apply List.ext_getElem?
  intro i
  by_cases hi : i < p.slots.size
  · simp [get?, capacity, hi]
  · simp [capacity, Nat.not_lt.1 hi]

theorem countP_slots (p : TimerPool) (test : Option Timer → Bool) :
    p.slots.countP test = (List.range p.capacity).countP fun i => test (p.get? i) := by
  rw [← Array.countP_toList, toList_slots, List.countP_map]
  rfl

section Allocate

/-- A new timer goes into the first free slot. -/
theorem held_of_allocate (h : p.allocate t = .ok (slot, q)) (hi : i < slot) : p.get? i ≠ none := by
  obtain ⟨hfree, -⟩ := allocate_eq_ok_iff.1 h
  obtain ⟨hlt, -, hbefore⟩ := Array.findIdx?_eq_some_iff_getElem.1 hfree
  have hsize : i < p.slots.size := Nat.lt_trans hi hlt
  have htaken := hbefore i hi
  intro hempty
  apply htaken
  rw [← Option.not_isSome, ← isSome_get? hsize, hempty]
  rfl

theorem allocate_refused {failure : Failure} (h : p.allocate t = .error failure) :
    failure = .noFreeTimer p.capacity :=
  (allocate_refused_iff.1 h).2

theorem active_allocate (h : p.allocate t = .ok (slot, q)) : q.active = p.active + 1 := by
  obtain ⟨-, -, rfl⟩ := allocate_eq h
  rfl

end Allocate

section Poll

variable {now : Nat} {ownerIdle : Bool}

theorem poll_of_none (h : p.get? slot = none) : p.poll slot now ownerIdle = (none, p) := by
  rw [poll, h]

theorem poll_of_runs (h : p.get? slot = some t) (hruns : t.runs now ownerIdle = true) :
    p.poll slot now ownerIdle = (some t, p.afterRun slot t now) := by
  simp only [Timer.runs, Bool.and_eq_true, Bool.not_eq_true'] at hruns
  exact poll_due h hruns.1 hruns.2

/-- A timer that does not run stays in its slot, and the beginning of its period is all that may change. -/
theorem poll_of_not_runs (h : p.get? slot = some t) (hruns : t.runs now ownerIdle = false) :
    ∃ u, t.looked now ownerIdle = some u ∧
      (p.poll slot now ownerIdle).1 = none ∧ (p.poll slot now ownerIdle).2.active = p.active ∧
      (p.poll slot now ownerIdle).2.capacity = p.capacity ∧
      ∀ i, (p.poll slot now ownerIdle).2.get? i = if i = slot then some u else p.get? i := by
  rw [Timer.looked, hruns, if_neg Bool.false_ne_true]
  cases hdue : t.isDue now with
  | false =>
    rw [poll_waiting h hdue]
    refine ⟨t, if_neg Bool.false_ne_true, rfl, rfl, rfl, fun i => ?_⟩
    split
    · rename_i hi
      rw [hi, h]
    · rfl
  | true =>
    have hbusy : (t.idleOnly && !ownerIdle) = true := by simpa [Timer.runs, hdue] using hruns
    rw [poll_busy h hdue hbusy]
    exact ⟨_, if_pos rfl, rfl, rfl, capacity_put _ _, fun i => get?_put (lt_capacity_of_get? h)⟩

/-- Whether the timer in a slot runs is up to this timer. -/
theorem poll_ran : (p.poll slot now ownerIdle).1 = (p.get? slot).filter (·.runs now ownerIdle) := by
  cases h : p.get? slot with
  | none => rw [poll_of_none h]; rfl
  | some t =>
    cases hruns : t.runs now ownerIdle with
    | true =>
      rw [poll_of_runs h hruns]
      simp [Option.filter, hruns]
    | false =>
      obtain ⟨u, -, hran, -⟩ := poll_of_not_runs h hruns
      simp [Option.filter, hruns, hran]

theorem get?_poll :
    (p.poll slot now ownerIdle).2.get? i =
      if i = slot then (p.get? slot).bind (·.looked now ownerIdle) else p.get? i := by
  cases h : p.get? slot with
  | none =>
    rw [poll_of_none h]
    split
    · rename_i hi
      rw [hi, h]
      rfl
    · rfl
  | some t =>
    cases hruns : t.runs now ownerIdle with
    | true =>
      have hlooked : t.looked now ownerIdle = t.rearm now := if_pos hruns
      rw [poll_of_runs h hruns, get?_afterRun h, Option.bind_some, hlooked]
    | false =>
      obtain ⟨u, hlooked, -, -, -, hget⟩ := poll_of_not_runs h hruns
      rw [hget, Option.bind_some, hlooked]

theorem capacity_poll : (p.poll slot now ownerIdle).2.capacity = p.capacity := by
  cases h : p.get? slot with
  | none => rw [poll_of_none h]
  | some t =>
    cases hruns : t.runs now ownerIdle with
    | true => rw [poll_of_runs h hruns, capacity_afterRun]
    | false =>
      obtain ⟨u, -, -, -, hcapacity, -⟩ := poll_of_not_runs h hruns
      exact hcapacity

end Poll

section Count

/-- A timer in a slot is counted. -/
theorem active_pos (hp : p.Counted) (h : p.get? slot = some t) : 0 < p.active := by
  rw [hp, countP_slots, List.countP_pos_iff]
  exact ⟨slot, List.mem_range.2 (lt_capacity_of_get? h), by rw [h]; rfl⟩

theorem active_free (hp : p.Counted) : (p.free slot).active + (p.get? slot).isSome.toNat = p.active := by
  cases h : p.get? slot with
  | none => rw [free, h]; rfl
  | some t =>
    have hpos := active_pos hp h
    rw [free_eq h]
    exact Nat.sub_add_cancel hpos

theorem active_clearWhere (hp : p.Counted) (unwanted : Timer → Bool) :
    (p.clearWhere unwanted).2.active + (p.clearWhere unwanted).1 = p.active := by
  refine Nat.sub_add_cancel ?_
  rw [hp, ← Array.countP_toList, ← Array.countP_toList]
  apply List.countP_mono_left
  intro content _ hany
  cases content with
  | none => cases hany
  | some t => rfl

theorem active_afterRun (hp : p.Counted) (h : p.get? slot = some t) (now : Nat) :
    (p.afterRun slot t now).active + (t.times == 1).toNat = p.active := by
  have hfree : (p.free slot).active + (p.get? slot).isSome.toNat = p.active := active_free hp
  rw [h] at hfree
  unfold afterRun
  rcases htimes : t.times with _ | _ | n <;> simp only [Timer.rearm, htimes]
  · rfl
  · exact hfree
  · simp [put]

end Count

section Serve

theorem serve_of_placed (h : p.allocate t = .ok (slot, q)) : p.serve (.allocate t) = (.placed slot, q) := by
  simp only [serve, h]

theorem serve_of_refused {failure : Failure} (h : p.allocate t = .error failure) :
    p.serve (.allocate t) = (.refused failure, p) := by
  simp only [serve, h]

theorem counted_poll {now : Nat} {ownerIdle : Bool} (hp : p.Counted) : (p.poll slot now ownerIdle).2.Counted := by
  rcases h : p.get? slot with _ | t
  · rw [poll_of_none h]
    exact hp
  · rcases hdue : t.isDue now with _ | _
    · rw [poll_waiting h hdue]
      exact hp
    · rcases hbusy : t.idleOnly && !ownerIdle with _ | _
      · rw [poll_due h hdue hbusy]
        exact counted_afterRun h hp
      · rw [poll_busy h hdue hbusy]
        exact counted_rewrite h hp _

/-- What comes of one request. -/
theorem serve_meets (p : TimerPool) (request : Request) :
    request.Meets p.capacity p.get? (p.serve request).2.get? (p.serve request).1 := by
  have hupdate : ∀ (q : TimerPool) (slot : Nat) (content : Option Timer),
      (∀ i, q.get? i = if i = slot then content else p.get? i) →
        q.get? = Function.update p.get? slot content := by
    intro q slot content h
    funext i
    rw [h, Function.update_apply]
  have hclears : ∀ unwanted : Timer → Bool,
      Request.Clears p.capacity p.get? (p.clearWhere unwanted).2.get? unwanted (p.clearWhere unwanted).1 := by
    intro unwanted
    exact ⟨funext fun i => get?_clearWhere unwanted, countP_slots p _⟩
  cases request with
  | allocate t =>
    rcases h : p.allocate t with failure | ⟨slot, q⟩
    · have hfull := allocate_eq_error_iff.1 ⟨failure, h⟩
      rw [serve_of_refused h]
      refine ⟨fun i hi => ?_, allocate_refused h, rfl⟩
      obtain ⟨u, hu⟩ := hfull i hi
      simp [hu]
    · obtain ⟨hlt, hfree, -⟩ := allocate_eq h
      rw [serve_of_placed h]
      exact ⟨hlt, hfree, fun i hi => held_of_allocate h hi, hupdate q slot _ fun i => get?_allocate h⟩
  | free slot => exact ⟨rfl, hupdate (p.free slot) slot none fun i => get?_free⟩
  | clearByName name owner => exact hclears _
  | clearOwner owner => exact hclears _
  | poll slot now ownerIdle => exact ⟨poll_ran, hupdate _ slot _ fun i => get?_poll⟩

theorem capacity_serve (p : TimerPool) (request : Request) : (p.serve request).2.capacity = p.capacity := by
  cases request with
  | allocate t =>
    rcases h : p.allocate t with failure | ⟨slot, q⟩
    · rw [serve_of_refused h]
    · rw [serve_of_placed h]
      exact capacity_allocate h
  | free slot => exact capacity_free
  | clearByName | clearOwner => exact capacity_clearWhere _
  | poll => exact capacity_poll

/-- What has come in and what has gone is what the count changes by. -/
theorem active_serve (hp : p.Counted) (request : Request) :
    (p.serve request).2.active + (p.serve request).1.removed = p.active + (p.serve request).1.added := by
  cases request with
  | allocate t =>
    rcases h : p.allocate t with failure | ⟨slot, q⟩
    · rw [serve_of_refused h]
      rfl
    · rw [serve_of_placed h]
      exact active_allocate h
  | free slot => exact active_free hp
  | clearByName | clearOwner => exact active_clearWhere hp _
  | poll slot now ownerIdle =>
    change (p.poll slot now ownerIdle).2.active + ((p.poll slot now ownerIdle).1.any (·.times == 1)).toNat = p.active
    cases h : p.get? slot with
    | none => rw [poll_of_none h]; rfl
    | some t =>
      cases hruns : t.runs now ownerIdle with
      | true => rw [poll_of_runs h hruns]; exact active_afterRun hp h now
      | false =>
        obtain ⟨u, -, hran, hactive, -⟩ := poll_of_not_runs h hruns
        rw [hran, hactive]
        rfl

theorem counted_serve (hp : p.Counted) (request : Request) : (p.serve request).2.Counted := by
  cases request with
  | allocate t =>
    rcases h : p.allocate t with failure | ⟨slot, q⟩
    · rw [serve_of_refused h]
      exact hp
    · rw [serve_of_placed h]
      exact counted_allocate h hp
  | free slot => exact counted_free hp
  | clearByName | clearOwner => exact counted_clearWhere _ hp
  | poll slot now ownerIdle => exact counted_poll hp

theorem capacity_serveAll (p : TimerPool) (requests : List Request) :
    (p.serveAll requests).capacity = p.capacity := by
  induction requests generalizing p with
  | nil => rfl
  | cons request requests ih =>
    rw [← capacity_serve p request]
    exact ih _

theorem counted_serveAll (hp : p.Counted) (requests : List Request) : (p.serveAll requests).Counted := by
  induction requests generalizing p with
  | nil => exact hp
  | cons request requests ih => exact ih (counted_serve hp request)

end Serve

section Find

variable {name : String} {owner : Option EntityId}

/-- What is found is the first slot whose timer has the name and the owner. -/
theorem find?_eq_some_iff :
    p.find? name owner = some slot ↔
      (∃ t, p.get? slot = some t ∧ t.hasKey name owner = true) ∧
        ∀ i < slot, ∀ t, p.get? i = some t → t.hasKey name owner = false := by
  have hany : ∀ i (hi : i < p.slots.size), p.slots[i] = p.get? i := by
    intro i hi
    simp [get?, hi]
  rw [find?, Array.findIdx?_eq_some_iff_getElem]
  constructor
  · rintro ⟨hlt, hhere, hbefore⟩
    rw [hany, Option.any_eq_true] at hhere
    refine ⟨hhere, fun i hi t ht => ?_⟩
    have hnot := hbefore i hi
    rw [hany, ht] at hnot
    simpa using hnot
  · rintro ⟨⟨t, ht, hkey⟩, hbefore⟩
    have hlt : slot < p.slots.size := lt_capacity_of_get? ht
    refine ⟨hlt, ?_, fun i hi => ?_⟩
    · rw [hany, ht]
      exact hkey
    · rw [hany]
      rcases hcontent : p.get? i with _ | u
      · simp
      · simp [hbefore i hi u hcontent]

theorem find?_eq_none_iff :
    p.find? name owner = none ↔ ∀ i t, p.get? i = some t → t.hasKey name owner = false := by
  rw [find?, Array.findIdx?_eq_none_iff]
  constructor
  · intro h i t ht
    simpa using h (some t) (mem_slots_iff.2 ⟨i, ht⟩)
  · intro h content hmem
    rcases content with _ | t
    · rfl
    · obtain ⟨i, hi⟩ := mem_slots_iff.1 hmem
      exact h i t hi

end Find

/-- After every sequence of requests the count is the number of the occupied slots, and there are as many slots
as ever. Every request is then answered as its slots say, and the count goes along with what comes and goes. -/
theorem requests_met (capacity : Nat) (requests : List Request) :
    let p := (withCapacity capacity).serveAll requests
    p.capacity = capacity ∧
      p.active = (List.range capacity).countP (fun i => (p.get? i).isSome) ∧
      (∀ request,
        request.Meets capacity p.get? (p.serve request).2.get? (p.serve request).1 ∧
          (p.serve request).2.active + (p.serve request).1.removed = p.active + (p.serve request).1.added) ∧
      ∀ name owner,
        (∀ slot, p.find? name owner = some slot ↔
          (∃ t, p.get? slot = some t ∧ t.hasKey name owner = true) ∧
            ∀ i < slot, ∀ t, p.get? i = some t → t.hasKey name owner = false) ∧
          (p.find? name owner = none ↔ ∀ i t, p.get? i = some t → t.hasKey name owner = false) := by
  intro p
  have hcapacity : p.capacity = capacity := by
    rw [capacity_serveAll]
    exact Array.size_replicate
  have hcounted : p.Counted := counted_serveAll (counted_withCapacity capacity) requests
  refine ⟨hcapacity, ?_, fun request => ?_, fun name owner => ⟨fun slot => find?_eq_some_iff, find?_eq_none_iff⟩⟩
  · rw [← hcapacity, ← countP_slots p (·.isSome)]
    exact hcounted
  · have hmeets := serve_meets p request
    rw [hcapacity] at hmeets
    exact ⟨hmeets, active_serve hcounted request⟩

end TimerPool

end EntityScript
