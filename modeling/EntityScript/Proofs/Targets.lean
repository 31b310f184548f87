import EntityScript.Proofs.Delivery
import EntityScript.Proofs.Words
import Mathlib.Data.List.Sort

/-! Whom `sendevent` reaches. The words of the statement are an order: the letters of its flags, and
the words after them with their variables filled in. Which entities an order reaches is said of one
entity at a time, and the event goes once to each of those, in ascending order of their numbers, or
to nobody at all when the order names a zone or an entity that is not there. -/

namespace EntityScript

open Reading

structure Order where
  flags : Flags
  words : List String
deriving DecidableEq

namespace Order

def of (r : Run) : Order :=
  match (lineWords r.rest).1 with
  | [] => ⟨{}, []⟩
  | first :: more =>
    match Flags.lettersOf? first with
    | some letters => ⟨⟨letters.map Char.toLower⟩, more.map r.filled⟩
    | none => ⟨{}, r.words⟩

variable (o : Order)

/-- Words that the order has not are empty. -/
def word (n : Nat) : String := o.words.getD n ""

/-- The place of the event among the words; the name of the group comes before it. -/
def eventAt : Nat := (o.flags.has 'g').toNat

/-- The place of the radius or the target, if there is one; the name of the zone comes before it. -/
def aimAt : Nat := o.eventAt + 1 + (o.flags.has 'z').toNat

/-- The event goes to one entity, which the order names. -/
def isSingle : Bool := !o.flags.has 'r' && !o.flags.has 'z' && !o.flags.has 'g'

/-- The parameters stand after the radius or the target. -/
def paramsAt : Nat := o.aimAt + (o.flags.has 'r' || o.isSingle).toNat

def params : String := o.word o.paramsAt

def group (r : Run) : String := r.textOf (o.word 0)

def zone (r : Run) : String := r.textOf (o.word (o.eventAt + 1))

/-- The radius or the target stands in the place of the event, and the event in its place. -/
def isSwapped (r : Run) : Bool :=
  if o.flags.has 'r' then isNumericOperand (o.word o.eventAt) && !isNumericOperand (o.word o.aimAt)
  else o.isSingle && isSystemEvent (r.textOf (o.word o.aimAt))

def event (r : Run) : String :=
  if o.isSwapped r then
    if o.isSingle then r.textOf (o.word o.aimAt) else o.word o.aimAt
  else o.word o.eventAt

def radius (r : Run) : Float32 :=
  r.numberOf (if o.isSwapped r then o.word o.eventAt else o.word o.aimAt)

def target (r : Run) : String :=
  if o.isSwapped r then o.word o.eventAt else r.textOf (o.word o.aimAt)

/-- The kinds are among those that the flags ask for; flags that ask for none ask for persons. -/
def Asks (kinds : Kinds) : Prop :=
  (o.flags.has 'f' ∧ kinds.meets .fixed) ∨ (o.flags.has 'i' ∧ kinds.meets .item) ∨
    (o.flags.has 'n' ∧ kinds.meets .npc) ∨
    (¬(o.flags.has 'f' ∨ o.flags.has 'i' ∨ o.flags.has 'n') ∧ kinds.meets .npc)

def Hears (r : Run) (e : Entity) : Prop :=
  ¬e.kinds.meets .camera ∧ ¬e.kinds.meets .marker ∧ o.Asks e.kinds ∧
    (o.flags.has 'g' → e.inGroup (o.group r))

/-- The event goes to the entity when `sender` sends it. -/
def Reaches (r : Run) (sender e : Entity) : Prop :=
  if o.flags.has 'r' then
    let dx := e.position.x - sender.position.x
    let dy := e.position.y - sender.position.y
    let dz := e.position.z - sender.position.z
    e.id ≠ sender.id ∧ o.Hears r e ∧ dx * dx + dy * dy + dz * dz ≤ o.radius r * o.radius r
  else if o.flags.has 'z' then
    o.Hears r e ∧ ∃ zone ∈ ZoneMap.find? r.world.zones (o.zone r), zone.contains e.position
  else if o.flags.has 'g' then e.id ≠ sender.id ∧ e.inGroup (o.group r)
  else r.world.entities.find? (o.target r) (some sender.id) = some e

/-- There is no such zone, or no such entity. -/
def Misses (r : Run) (sender : Entity) : Prop :=
  if o.flags.has 'r' then False
  else if o.flags.has 'z' then ZoneMap.find? r.world.zones (o.zone r) = none
  else if o.flags.has 'g' then False
  else r.world.entities.find? (o.target r) (some sender.id) = none

instance (kinds : Kinds) : Decidable (o.Asks kinds) := inferInstanceAs (Decidable (_ ∨ _ ∨ _ ∨ _))

instance (r : Run) (e : Entity) : Decidable (o.Hears r e) := inferInstanceAs (Decidable (_ ∧ _ ∧ _ ∧ _))

instance (r : Run) (sender e : Entity) : Decidable (o.Reaches r sender e) :=
  inferInstanceAs (Decidable (ite _ _ _))

instance (r : Run) (sender : Entity) : Decidable (o.Misses r sender) := inferInstanceAs (Decidable (ite _ _ _))

def dispatch (r : Run) : Dispatch where
  kinds := Dispatch.kindsOf o.flags
  group := if o.flags.has 'g' then some (o.group r) else none
  targets :=
    if o.flags.has 'r' then .radius (o.radius r)
    else if o.flags.has 'z' then .zone (o.zone r)
    else if o.flags.has 'g' then .group
    else .single (o.target r)
  event := o.event r
  params := o.params

def aim (r : Run) : String × Targets := (o.event r, (o.dispatch r).targets)

variable {o} {r : Run}

theorem aim_of_radius (hradius : o.flags.has 'r' = true) :
    o.aim r =
      let words := if isNumericOperand (o.word o.eventAt) && !isNumericOperand (o.word o.aimAt) then
        (o.word o.aimAt, o.word o.eventAt) else (o.word o.eventAt, o.word o.aimAt)
      (words.1, .radius (r.numberOf words.2)) := by
  simp only [aim, dispatch, event, radius, isSwapped, isSingle, hradius, if_true]
  split <;> simp

theorem aim_of_zone (hradius : o.flags.has 'r' = false) (hzone : o.flags.has 'z' = true) :
    o.aim r = (o.word o.eventAt, .zone (o.zone r)) := by
  simp [aim, dispatch, event, isSwapped, isSingle, hradius, hzone]

theorem aim_of_group (hradius : o.flags.has 'r' = false) (hzone : o.flags.has 'z' = false)
    (hgroup : o.flags.has 'g' = true) : o.aim r = (o.word o.eventAt, .group) := by
  simp [aim, dispatch, event, isSwapped, isSingle, hradius, hzone, hgroup]

theorem aim_of_single (hradius : o.flags.has 'r' = false) (hzone : o.flags.has 'z' = false)
    (hgroup : o.flags.has 'g' = false) :
    o.aim r =
      if isSystemEvent (r.textOf (o.word o.aimAt)) then
        (r.textOf (o.word o.aimAt), .single (o.word o.eventAt))
      else (o.word o.eventAt, .single (r.textOf (o.word o.aimAt))) := by
  have hsingle : o.isSingle = true := by simp [isSingle, hradius, hzone, hgroup]
  have hswapped : o.isSwapped r = isSystemEvent (r.textOf (o.word o.aimAt)) := by
    simp [isSwapped, hradius, hsingle]
  simp only [aim, dispatch, event, target, hswapped, hsingle, hradius, hzone, hgroup, if_true,
    Bool.false_eq_true, if_false]
  split <;> rfl

end Order

namespace Exec

variable {r : Run}

theorem collectFlags_run {allowed : List Char} (hallowed : ∀ c ∈ allowed, c.isAlpha = true)
    (letters : List Char) (r : Run) :
    ∃ journal, (collectFlags allowed letters).run r =
      (⟨(letters.map Char.toLower).filter allowed.contains⟩, { r with journal }) := by
  induction letters generalizing r with
  | nil => exact ⟨r.journal, rfl⟩
  | cons letter letters ih =>
    rw [collectFlags, List.map_cons]
    cases hmember : allowed.contains letter.toLower with
    | true =>
      obtain ⟨journal, hrest⟩ := ih r
      have halpha := hallowed _ (List.contains_iff_mem.1 hmember)
      refine ⟨journal, ?_⟩
      rw [if_pos rfl, run_bind_of hrest, List.filter_cons_of_pos hmember, halpha]
      rfl
    | false =>
      obtain ⟨journal, hrest⟩ := ih ((report (.unexpectedFlag letter)).run r).2
      refine ⟨journal, ?_⟩
      rw [if_neg Bool.false_ne_true, List.filter_cons_of_neg (Bool.eq_false_iff.1 hmember)]
      exact hrest

theorem has_filter {allowed letters : List Char} {letter : Char} (h : allowed.contains letter.toLower = true) :
    Flags.has ⟨letters.filter allowed.contains⟩ letter = Flags.has ⟨letters⟩ letter := by
  rw [Bool.eq_iff_iff, Flags.has, Flags.has, List.contains_iff_mem, List.contains_iff_mem, List.mem_filter]
  exact and_iff_left h

/-- The flags are read up to the words of the order. -/
theorem readFlags_order {allowed : List Char} (hallowed : ∀ c ∈ allowed, c.isAlpha = true) (r : Run) :
    ∃ flags t, (readFlags allowed).run r = (flags, t) ∧ SameScene r t ∧ t.words = (Order.of r).words ∧
      ∀ letter, allowed.contains letter.toLower = true → flags.has letter = (Order.of r).flags.has letter := by
  have hwords := lineWords_eq r.rest
  simp only [readFlags, StateT.run_bind, StateT.run_get, pure_bind]
  unfold Order.of
  cases htoken : nextToken r.rest with
  | none =>
    rw [htoken] at hwords
    rw [hwords]
    exact ⟨{}, r, rfl, .refl r, by rw [Run.words, hwords]; rfl, fun _ _ => rfl⟩
  | some token =>
    rw [htoken] at hwords
    rw [hwords]
    dsimp only
    cases hletters : Flags.lettersOf? token.word with
    | none => exact ⟨{}, r, rfl, .refl r, rfl, fun _ _ => rfl⟩
    | some letters =>
      obtain ⟨journal, hrun⟩ := collectFlags_run hallowed letters (r.readTo token.rest)
      have hscene : SameScene r { r.readTo token.rest with journal } :=
        (SameScene.readTo r token.rest).trans (.journal _ journal)
      refine ⟨_, _, hrun, hscene, ?_, fun letter hletter => has_filter hletter⟩
      have hrest : Run.rest { r.readTo token.rest with journal } = token.rest := Run.rest_readTo r token.rest
      rw [Run.words, hrest]
      exact List.map_congr_left fun word _ => hscene.filled word

variable {words : List String} {n : Nat}

theorem readWord_drop : Gives r (words.drop n) readWord (words.getD n "") (words.drop (n + 1)) := by
  have hread : Gives r (words.drop n) readWord ((words.drop n).headD "") (words.drop n).tail := readWord_gives
  rwa [List.tail_drop, List.headD_eq_head?_getD, List.head?_drop, ← List.getD_eq_getElem?_getD] at hread

theorem readText_drop :
    Gives r (words.drop n) readText (r.textOf (words.getD n "")) (words.drop (n + 1)) :=
  readWord_drop.bind (textOf_gives _)

/-- A text is read if it is asked for, and then the rest. -/
theorem readText_optional {β : Type} {more : List String} {b : β} {f : Option String → Exec β} {asked : Bool}
    (hf : Gives r (words.drop (n + asked.toNat))
      (f (if asked = true then some (r.textOf (words.getD n "")) else none)) b more) :
    Gives r (words.drop n)
      (if asked = true then (some <$> readText) >>= f else (pure none : Exec (Option String)) >>= f) b more := by
  cases asked with
  | true => exact (readText_drop.map some).bind hf
  | false => exact (Gives.pure none).bind hf

theorem kindsOf_congr {flags flags' : Flags}
    (h : ∀ letter ∈ ['f', 'i', 'n'], flags.has letter = flags'.has letter) :
    Dispatch.kindsOf flags = Dispatch.kindsOf flags' := by
  rw [Dispatch.kindsOf, h 'f' (by simp), h 'i' (by simp), h 'n' (by simp)]
  rfl

/-- An order is understood as it is meant. -/
theorem readDispatch_order (r : Run) :
    ∃ t, readDispatch.run r = ((Order.of r).dispatch r, t) ∧ SameScene r t := by
  have hletters : ∀ c ∈ ['g', 'f', 'i', 'n', 'r', 'z'], c.isAlpha = true := by decide
  obtain ⟨flags, s, hrun, hs, hwords, hflags⟩ := readFlags_order hletters r
  generalize Order.of r = o at hwords hflags ⊢
  have hg : flags.has 'g' = o.flags.has 'g' := hflags 'g' (by decide)
  have hr : flags.has 'r' = o.flags.has 'r' := hflags 'r' (by decide)
  have hz : flags.has 'z' = o.flags.has 'z' := hflags 'z' (by decide)
  have hkinds : Dispatch.kindsOf flags = Dispatch.kindsOf o.flags := by
    refine kindsOf_congr fun letter hletter => hflags letter ?_
    revert letter
    decide
  unfold readDispatch
  rw [run_bind_of hrun, hg, hr, hz, hkinds]
  extract_lets kinds afterGroup
  have hgroup : Gives r (o.words.drop o.eventAt)
      (afterGroup (if o.flags.has 'g' = true then some (o.group r) else none)) (o.dispatch r)
      (o.words.drop (o.paramsAt + 1)) := by
    refine readWord_drop.bind ?_
    extract_lets finish afterZone
    have hfinish : Gives r (o.words.drop (o.aimAt + (o.flags.has 'r' || o.isSingle).toNat))
        (finish (o.aim r)) (o.dispatch r) (o.words.drop (o.paramsAt + 1)) :=
      readWord_drop.bind (.pure (o.dispatch r))
    refine readText_optional ?_
    dsimp only [afterZone]
    cases hradius : o.flags.has 'r' with
    | true =>
      rw [Order.aim_of_radius hradius, hradius] at hfinish
      rw [if_pos rfl]
      refine readWord_drop.bind ?_
      exact (numberOf_gives _).bind ((Gives.pure _).bind hfinish)
    | false =>
      rw [if_neg Bool.false_ne_true]
      cases hzone : o.flags.has 'z' with
      | true =>
        have hnot : o.isSingle = false := by simp [Order.isSingle, hzone]
        rw [Order.aimAt, hradius, hzone, hnot, Order.aim_of_zone hradius hzone] at hfinish
        exact (Gives.pure _).bind hfinish
      | false =>
        cases hgroup : o.flags.has 'g' with
        | true =>
          have hnot : o.isSingle = false := by simp [Order.isSingle, hgroup]
          rw [Order.aimAt, hradius, hzone, hnot, Order.aim_of_group hradius hzone hgroup] at hfinish
          exact (Gives.pure _).bind hfinish
        | false =>
          have hsingle : o.isSingle = true := by simp [Order.isSingle, hradius, hzone, hgroup]
          have haim : o.aimAt = o.eventAt + 1 + false.toNat := by rw [Order.aimAt, hzone]
          rw [haim, hradius, hsingle, Order.aim_of_single hradius hzone hgroup, haim] at hfinish
          refine readText_drop.bind ?_
          change Gives r _ (if isSystemEvent (r.textOf (o.word (o.eventAt + 1 + false.toNat))) = true then _
            else _) _ _
          split at hfinish
          · rename_i hevent
            rw [if_pos hevent]
            exact (Gives.pure _).bind hfinish
          · rename_i hevent
            rw [if_neg hevent]
            exact (Gives.pure _).bind hfinish
  obtain ⟨t, hdone, hscene, -⟩ := readText_optional (n := 0) (by rwa [Nat.zero_add]) s hs hwords
  exact ⟨t, hdone, hscene⟩

end Exec

namespace Kinds

variable (kinds a b : Kinds)

@[simp] theorem meets_none : kinds.meets none = false := by
  simp [meets, none]

@[simp] theorem meets_union : kinds.meets (a.union b) = (kinds.meets a || kinds.meets b) := by
  have hbits : kinds.bits &&& (a.bits ||| b.bits) = (kinds.bits &&& a.bits) ||| (kinds.bits &&& b.bits) :=
    UInt32.toBitVec_inj.1 BitVec.and_or_distrib_left
  rw [Bool.eq_iff_iff, meets, union, hbits]
  simp only [meets, bne_iff_ne, Bool.or_eq_true, ne_eq, UInt32.or_eq_zero_iff]
  exact not_and_or

theorem union_eq_none_iff : a.union b = none ↔ a = none ∧ b = none := by
  cases a
  cases b
  simp [union, none]

end Kinds

namespace Registry

variable {r : Registry} {id : EntityId} {e : Entity}

theorem mem_of_find? {name : String} {caller : Option EntityId} (h : r.find? name caller = some e) :
    e ∈ r.entities := by
  unfold find? at h
  split at h
  · cases h
  · cases h
  · obtain ⟨_, -, hget⟩ := Option.bind_eq_some_iff.1 h
    exact List.mem_of_find?_eq_some hget
  · obtain ⟨_, -, hget⟩ := Option.bind_eq_some_iff.1 h
    exact List.mem_of_find?_eq_some hget
  · exact List.mem_of_find?_eq_some h

theorem mem_ids_iff {all : List Entity} {p : Entity → Prop} (h : ∀ e, e ∈ all ↔ e ∈ r.entities ∧ p e) :
    id ∈ all.map (·.id) ↔ ∃ e, r.get? id = some e ∧ p e := by
  simp only [List.mem_map, h]
  constructor
  · rintro ⟨e, ⟨he, hp⟩, rfl⟩
    exact ⟨e, mem_iff_get?.1 he, hp⟩
  · rintro ⟨e, hget, hp⟩
    exact ⟨e, ⟨List.mem_of_find?_eq_some hget, hp⟩, id_of_get? hget⟩

/-- Only the sender counts what it sends. -/
theorem get?_countSent (r : Registry) (sender id : EntityId) :
    (r.update sender Entity.countSent).get? id =
      (r.get? id).map fun e => if id = sender then e.countSent else e := by
  cases hget : r.get? sender with
  | none =>
    rw [update, hget]
    by_cases hid : id = sender
    · rw [hid, hget]
      rfl
    · simp [hid]
  | some e =>
    have hsame : { e.countSent with id := sender } = e.countSent := by
      rw [← id_of_get? hget]
      rfl
    have hkept : e.countSent.id = sender := id_of_get? (e := e) hget
    rw [get?, update_of_get? hget, find?_place, hsame, hkept]
    by_cases hid : id = sender
    · rw [if_pos hid, hid, hget]
      simp
    · rw [if_neg hid]
      simp [hid, get?]

end Registry

namespace Order

variable {o : Order} {r : Run} {sender e : Entity}

theorem meets_kindsOf (o : Order) (kinds : Kinds) :
    kinds.meets (Dispatch.kindsOf o.flags) = true ↔ o.Asks kinds := by
  have hsome : Kinds.fixed ≠ .none ∧ Kinds.item ≠ .none ∧ Kinds.npc ≠ .none := by decide
  unfold Dispatch.kindsOf Asks
  cases o.flags.has 'f' <;> cases o.flags.has 'i' <;> cases o.flags.has 'n' <;>
    simp [Kinds.union_eq_none_iff, hsome, or_assoc]

theorem inGroup_dispatch (e : Entity) :
    (o.dispatch r).inGroup e = true ↔ (o.flags.has 'g' → e.inGroup (o.group r)) := by
  unfold Dispatch.inGroup dispatch
  cases o.flags.has 'g' <;> simp

theorem hears_dispatch (e : Entity) : (o.dispatch r).hears e = true ↔ o.Hears r e := by
  have hkinds : (o.dispatch r).kinds = Dispatch.kindsOf o.flags := rfl
  simp only [Dispatch.hears, Kinds.deaf, Kinds.meets_union, hkinds, Bool.and_eq_true,
    meets_kindsOf, inGroup_dispatch]
  simp [Hears, and_assoc]

theorem ascending_filter (w : World) (p : Entity → Bool) :
    (w.entities.entities.filter p).Pairwise (·.id < ·.id) := w.entities.ascending.sublist List.filter_sublist

/-- Whoever receives the event is listed once, in ascending order. -/
theorem receivers_dispatch (o : Order) (r : Run) (sender : Entity) :
    match (o.dispatch r).receivers r.world sender with
    | .error _ => o.Misses r sender
    | .ok all => ¬o.Misses r sender ∧ all.Pairwise (·.id < ·.id) ∧
        ∀ e, e ∈ all ↔ e ∈ r.world.entities.entities ∧ o.Reaches r sender e := by
  unfold Dispatch.receivers Misses Reaches
  cases hradius : o.flags.has 'r' with
  | true =>
    have haim : (o.dispatch r).targets = .radius (o.radius r) := by simp [dispatch, hradius]
    rw [haim]
    refine ⟨not_false, ascending_filter _ _, fun e => ?_⟩
    simp only [List.mem_filter, hears_dispatch, Bool.and_eq_true, bne_iff_ne, decide_eq_true_eq, and_assoc, if_true]
    rfl
  | false =>
    cases hzone : o.flags.has 'z' with
    | true =>
      have haim : (o.dispatch r).targets = .zone (o.zone r) := by simp [dispatch, hradius, hzone]
      rw [haim]
      dsimp only
      cases hfound : ZoneMap.find? r.world.zones (o.zone r) with
      | none => simp
      | some zone =>
        refine ⟨by simp, ascending_filter _ _, fun e => ?_⟩
        simp [List.mem_filter, hears_dispatch]
    | false =>
      cases hgroup : o.flags.has 'g' with
      | true =>
        have haim : (o.dispatch r).targets = .group := by simp [dispatch, hradius, hzone, hgroup]
        rw [haim]
        refine ⟨by simp, ascending_filter _ _, fun e => ?_⟩
        simp [List.mem_filter, inGroup_dispatch, hgroup]
      | false =>
        have haim : (o.dispatch r).targets = .single (o.target r) := by
          simp [dispatch, hradius, hzone, hgroup]
        rw [haim]
        dsimp only
        cases hfound : r.world.entities.find? (o.target r) (some sender.id) with
        | none => simp
        | some e =>
          refine ⟨by simp, List.pairwise_singleton _ _, fun f => ?_⟩
          simp only [List.mem_singleton, Bool.false_eq_true, if_false, Option.some.injEq]
          refine ⟨?_, fun h => h.2.symm⟩
          rintro rfl
          exact ⟨Registry.mem_of_find? hfound, rfl⟩

def reached (o : Order) (r : Run) (sender : Entity) : List EntityId :=
  (r.world.entities.entities.filter fun e => o.Reaches r sender e).map (·.id)

theorem mem_reached {id : EntityId} :
    id ∈ o.reached r sender ↔ ∃ e, r.world.entities.get? id = some e ∧ o.Reaches r sender e :=
  Registry.mem_ids_iff fun e => by rw [List.mem_filter, decide_eq_true_eq]

/-- The numbers in ascending order are one list. -/
theorem eq_reached {ids : List EntityId} (hascending : ids.Pairwise (· < ·))
    (hmem : ∀ id, id ∈ ids ↔ ∃ e, r.world.entities.get? id = some e ∧ o.Reaches r sender e) :
    ids = o.reached r sender := by
  have hreached : (o.reached r sender).Pairwise (· < ·) := List.pairwise_map.2 (ascending_filter r.world _)
  exact hascending.eq_of_mem_iff hreached fun id => (hmem id).trans mem_reached.symm

end Order

namespace Dispatch

variable (d : Dispatch) (sender : EntityId) (targets : List EntityId) (w : World)

theorem queue_foldl_sendTo :
    (targets.foldl (d.sendTo sender) w).queue.toList =
      w.queue.toList ++ targets.map (⟨·, d.event, d.params, some sender⟩) := by
  induction targets generalizing w with
  | nil => simp
  | cons target targets ih =>
    rw [List.foldl_cons, ih]
    simp [sendTo, World.enqueue]

theorem get?_foldl_sendTo (id : EntityId) :
    (targets.foldl (d.sendTo sender) w).entities.get? id = (w.entities.get? id).map fun e =>
      { e with sent := e.sent + if id = sender then targets.length else 0 } := by
  induction targets generalizing w with
  | nil => cases hget : w.entities.get? id <;> simp [hget]
  | cons target targets ih =>
    have hone : (d.sendTo sender w target).entities = w.entities.update sender Entity.countSent := rfl
    rw [List.foldl_cons, ih, hone, Registry.get?_countSent, Option.map_map]
    congr 1
    funext e
    by_cases hid : id = sender
    · simp [hid, Entity.countSent, Nat.add_comm, Nat.add_left_comm]
    · simp [hid]

end Dispatch

namespace Exec

variable {r : Run} {sender : Entity}

theorem runSendEvent_order (hsender : r.owner.bind r.world.entities.get? = some sender) :
    let done := runSendEvent.run r
    match ((Order.of r).dispatch r).send r.world sender with
    | .error _ => done.1 = .failed ∧ done.2.world = r.world
    | .ok world => done.1 = .success ∧ done.2.world = world := by
  obtain ⟨t, hread, hscene⟩ := readDispatch_order r
  have hthere : t.owner.bind t.world.entities.get? = some sender := by rw [hscene.owner, hscene.world, hsender]
  rw [runSendEvent, run_bind_of hread]
  simp only [StateT.run_bind, StateT.run_get, pure_bind, hthere, withSender_run, post_run]
  rw [hscene.world]
  cases ((Order.of r).dispatch r).send r.world sender with
  | error diagnostic => exact ⟨rfl, rfl⟩
  | ok world => exact ⟨rfl, rfl⟩

/-- The event goes once to every entity that the order reaches, in ascending order of their numbers,
and the sender counts each. If the order misses, the world stays as it is. -/
theorem runSendEvent_reaches (hsender : r.owner.bind r.world.entities.get? = some sender) :
    let o := Order.of r
    let done := runSendEvent.run r
    (o.Misses r sender → done.1 = .failed ∧ done.2.world = r.world) ∧
      (¬o.Misses r sender → done.1 = .success ∧ ∃ targets : List EntityId,
        targets.Pairwise (· < ·) ∧
        (∀ id, id ∈ targets ↔ ∃ e, r.world.entities.get? id = some e ∧ o.Reaches r sender e) ∧
        done.2.world.queue.toList =
          r.world.queue.toList ++ targets.map (⟨·, o.event r, o.params, some sender.id⟩) ∧
        ∀ id, done.2.world.entities.get? id = (r.world.entities.get? id).map fun e =>
          { e with sent := e.sent + if id = sender.id then targets.length else 0 }) := by
  have hdone := runSendEvent_order hsender
  have hreceivers := Order.receivers_dispatch (Order.of r) r sender
  intro o done
  unfold Dispatch.send at hdone
  cases hall : (o.dispatch r).receivers r.world sender with
  | error diagnostic =>
    rw [hall] at hdone hreceivers
    exact ⟨fun _ => hdone, fun h => absurd hreceivers h⟩
  | ok all =>
    rw [hall] at hdone hreceivers
    obtain ⟨hhits, hascending, hmem⟩ := hreceivers
    obtain ⟨houtcome, hworld⟩ := hdone
    refine ⟨fun h => absurd h hhits, fun _ => ⟨houtcome, all.map (·.id), ?_, fun id => ?_, ?_, fun id => ?_⟩⟩
    · exact List.pairwise_map.2 hascending
    · exact Registry.mem_ids_iff hmem
    · rw [hworld]
      exact Dispatch.queue_foldl_sendTo ..
    · rw [hworld]
      exact Dispatch.get?_foldl_sendTo ..

def herd : Registry where
  entities := [
    { id := 1, name := "a", kinds := .npc, groups := ["herd"], position := ⟨3, 0, 4⟩ },
    { id := 2, name := "b", kinds := .npc, groups := ["herd"] },
    { id := 3, name := "c", kinds := .npc, position := ⟨3, 0, 5⟩ },
    { id := 4, name := "d", kinds := .marker, groups := ["herd"] }]
  nextId := 5
  ascending := by decide

def pen : Zone where
  name := "pen"
  outline := Zone.rectangle (-1) (-1) 4 4.5
  floor := 0
  height := 0

def crier (line : String) : Run where
  script := .ofText "crier" ("sendevent" ++ line)
  place := .ofPosition 0 line.toList
  owner := some 2
  own := .fresh 0
  shared :=
    { globals := .withCapacity 0, timers := .withCapacity 0, random := .ofSeed 0, maxCallDepth := 1 }
  world := { entities := herd, zones := ZoneMap.insert Dict.empty pen }
  sender := none

/-- The group hears of it, the marker in it too; a radius of five has the first one in it and not the third, and
so has the pen, but with the sender; one entity is reached by its name, and nobody in a zone that is not there. -/
theorem runSendEvent_reaches_crier :
    (∀ call ∈ [(" -g herd wave hi", [1, 4]), (" -r wave 5 hi", [1]), (" -z wave pen hi", [1, 2]),
        (" wave c hi", [3])],
      let done := runSendEvent.run (crier call.1)
      done.1 = .success ∧ done.2.world.queue.toList = call.2.map (⟨·, "wave", "hi", some 2⟩) ∧
        (done.2.world.entities.get? 2).map (·.sent) = some call.2.length) ∧
    let done := runSendEvent.run (crier " -z wave fold hi")
    done.1 = .failed ∧ done.2.world = (crier " -z wave fold hi").world := by
  let sender := herd.entities.get ⟨1, by decide⟩
  have hsender : ∀ line, (crier line).owner.bind (crier line).world.entities.get? = some sender := fun _ => rfl
  refine ⟨fun call hcall => ?_, ?_⟩
  · have hmeant : ¬(Order.of (crier call.1)).Misses (crier call.1) sender ∧
        (Order.of (crier call.1)).reached (crier call.1) sender = call.2 ∧
        (Order.of (crier call.1)).event (crier call.1) = "wave" ∧ (Order.of (crier call.1)).params = "hi" := by
      revert call
      decide +kernel
    obtain ⟨hhits, hreached, hevent, hparams⟩ := hmeant
    obtain ⟨houtcome, targets, hascending, hmem, hqueue, hsent⟩ := (runSendEvent_reaches (hsender _)).2 hhits
    have htargets : targets = call.2 := (Order.eq_reached hascending hmem).trans hreached
    rw [hevent, hparams, htargets] at hqueue
    refine ⟨houtcome, hqueue, ?_⟩
    rw [hsent 2, ← htargets]
    exact congrArg some (Nat.zero_add _)
  · have hmissed : (Order.of (crier " -z wave fold hi")).Misses (crier " -z wave fold hi") sender := by
      decide +kernel
    exact (runSendEvent_reaches (hsender _)).1 hmissed

end Exec

end EntityScript
