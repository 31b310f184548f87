/-!
Finite maps as lists of pairs with distinct keys. A key keeps its place when its value is replaced,
and a new key goes to the end. All is said through `get?`: what an operation does to the value of
every key, and how it changes the number of entries.
-/

namespace EntityScript

structure Dict (κ α : Type) where
  entries : List (κ × α)
  /-- No key occurs twice. -/
  nodup : (entries.map (·.1)).Nodup

namespace Dict

variable {κ α : Type} [DecidableEq κ]

def find? (k : κ) : List (κ × α) → Option α
  | [] => none
  | (k', v) :: rest => if k' = k then some v else find? k rest

def put (k : κ) (v : α) : List (κ × α) → List (κ × α)
  | [] => [(k, v)]
  | (k', v') :: rest => if k' = k then (k, v) :: rest else (k', v') :: put k v rest

theorem find?_eq_none_iff (k : κ) (l : List (κ × α)) : find? k l = none ↔ k ∉ l.map (·.1) := by
  induction l with
  | nil => simp [find?]
  | cons p l ih =>
    obtain ⟨k', v'⟩ := p
    by_cases h : k' = k
    · simp [find?, h]
    · simp [find?, h, ih, Ne.symm h]

theorem keys_put (k : κ) (v : α) (l : List (κ × α)) :
    (put k v l).map (·.1) = if k ∈ l.map (·.1) then l.map (·.1) else l.map (·.1) ++ [k] := by
  induction l with
  | nil => simp [put]
  | cons p l ih =>
    obtain ⟨k', v'⟩ := p
    by_cases h : k' = k
    · simp [put, h]
    · simp only [put, h, if_false, List.map_cons, ih, List.mem_cons, Ne.symm h, false_or]
      split <;> simp

theorem nodup_put (k : κ) (v : α) {l : List (κ × α)} (h : (l.map (·.1)).Nodup) :
    ((put k v l).map (·.1)).Nodup := by
  rw [keys_put]
  split
  · exact h
  · rename_i hk
    rw [List.nodup_append]
    exact ⟨h, by simp, fun a ha b hb => by simp at hb; rintro rfl; exact hk (hb ▸ ha)⟩

def empty : Dict κ α := ⟨[], List.nodup_nil⟩

instance : Inhabited (Dict κ α) := ⟨empty⟩

def get? (d : Dict κ α) (k : κ) : Option α := find? k d.entries

def contains (d : Dict κ α) (k : κ) : Bool := (d.get? k).isSome

def set (d : Dict κ α) (k : κ) (v : α) : Dict κ α := ⟨put k v d.entries, nodup_put k v d.nodup⟩

def erase (d : Dict κ α) (k : κ) : Dict κ α :=
  ⟨d.entries.filter (·.1 ≠ k), (List.filter_sublist.map _).nodup d.nodup⟩

def modify (d : Dict κ α) (k : κ) (f : α → α) : Dict κ α :=
  match d.get? k with
  | some v => d.set k (f v)
  | none => d

def size (d : Dict κ α) : Nat := d.entries.length

/-- The keys, in the order in which they came. -/
def keys (d : Dict κ α) : List κ := d.entries.map (·.1)

@[simp] theorem get?_empty (k : κ) : (empty : Dict κ α).get? k = none := rfl

theorem mem_keys_iff {d : Dict κ α} {k : κ} : k ∈ d.keys ↔ d.get? k ≠ none := by
  simp [keys, get?, find?_eq_none_iff]

theorem mem_entries_of_get? {d : Dict κ α} {k : κ} {v : α} (h : d.get? k = some v) : (k, v) ∈ d.entries := by
  unfold get? at h
  generalize d.entries = l at h
  induction l with
  | nil => cases h
  | cons p l ih =>
    obtain ⟨k', v'⟩ := p
    rw [find?] at h
    split at h
    · rename_i hk
      cases h
      exact hk ▸ List.mem_cons_self
    · exact List.mem_cons_of_mem _ (ih h)

theorem get?_of_mem_entries {d : Dict κ α} {k : κ} {v : α} (h : (k, v) ∈ d.entries) : d.get? k = some v := by
  have hnodup := d.nodup
  unfold get?
  generalize d.entries = l at h hnodup
  induction l with
  | nil => cases h
  | cons p l ih =>
    obtain ⟨k', v'⟩ := p
    rw [List.map_cons, List.nodup_cons] at hnodup
    rw [find?]
    rcases List.mem_cons.1 h with heq | hmem
    · cases heq
      exact if_pos rfl
    · have hk : k' ≠ k := by
        rintro rfl
        exact hnodup.1 (List.mem_map.2 ⟨_, hmem, rfl⟩)
      rw [if_neg hk]
      exact ih hmem hnodup.2

theorem get?_set (d : Dict κ α) (k j : κ) (v : α) :
    (d.set k v).get? j = if k = j then some v else d.get? j := by
  simp only [set, get?]
  generalize d.entries = l
  induction l with
  | nil => simp [put, find?]
  | cons p l ih =>
    obtain ⟨k', v'⟩ := p
    by_cases h : k' = k
    · by_cases hj : k = j <;> simp [put, find?, h, hj]
    · by_cases hj : k' = j
      · subst hj
        simp [put, find?, h, Ne.symm h]
      · simp [put, find?, h, hj, ih]

theorem get?_erase (d : Dict κ α) (k j : κ) :
    (d.erase k).get? j = if k = j then none else d.get? j := by
  simp only [erase, get?]
  generalize d.entries = l
  induction l with
  | nil => simp [find?]
  | cons p l ih =>
    obtain ⟨k', v'⟩ := p
    by_cases h : k' = k
    · by_cases hj : k = j
      · simpa [find?, h, hj] using ih
      · simpa [find?, h, hj] using ih
    · by_cases hj : k' = j
      · subst hj
        simp [find?, h, Ne.symm h]
      · simpa [find?, h, hj] using ih

theorem get?_modify (d : Dict κ α) (k j : κ) (f : α → α) :
    (d.modify k f).get? j = if k = j then (d.get? j).map f else d.get? j := by
  unfold modify
  split
  · rename_i v hv
    rw [get?_set]
    by_cases h : k = j
    · subst h; simp [hv]
    · simp [h]
  · rename_i hn
    by_cases h : k = j
    · subst h; simp [hn]
    · simp [h]

theorem keys_modify (d : Dict κ α) (k : κ) (f : α → α) : (d.modify k f).keys = d.keys := by
  unfold modify
  split
  · rename_i v hv
    have hk : k ∈ d.entries.map (·.1) := mem_keys_iff.2 (by simp [hv])
    exact (keys_put k (f v) d.entries).trans (if_pos hk)
  · rfl

/-- Maps with the same keys in the same order and the same values are the same. -/
theorem ext_of_keys {d e : Dict κ α} (hkeys : d.keys = e.keys) (h : ∀ k, d.get? k = e.get? k) : d = e := by
  obtain ⟨l, hl⟩ := d
  obtain ⟨m, hm⟩ := e
  simp only [keys, get?, mk.injEq] at hkeys h ⊢
  induction l generalizing m with
  | nil => exact (List.map_eq_nil_iff.1 hkeys.symm).symm
  | cons p l ih =>
    obtain ⟨k, v⟩ := p
    cases m with
    | nil => cases hkeys
    | cons q m =>
      obtain ⟨k', v'⟩ := q
      rw [List.map_cons, List.map_cons, List.cons.injEq] at hkeys
      obtain ⟨rfl, hkeys⟩ := hkeys
      rw [List.map_cons, List.nodup_cons] at hl hm
      have hfirst := h k
      simp only [find?, if_true, Option.some.injEq] at hfirst
      subst hfirst
      rw [ih hl.2 m hm.2 hkeys fun j => ?_]
      have hj := h j
      by_cases hk : k = j
      · subst hk
        rw [(find?_eq_none_iff k l).2 hl.1, (find?_eq_none_iff k m).2 hm.1]
      · simpa [find?, hk] using hj

theorem size_set (d : Dict κ α) (k : κ) (v : α) :
    (d.set k v).size = if d.contains k then d.size else d.size + 1 := by
  have h := congrArg List.length (keys_put k v d.entries)
  simp only [List.length_map] at h
  have hm : d.contains k = true ↔ k ∈ d.entries.map (·.1) := by
    rw [contains, Option.isSome_iff_ne_none, ← mem_keys_iff, keys]
  simp only [size, set, h]
  by_cases hk : k ∈ d.entries.map (·.1)
  · simp [hm.2 hk, if_pos hk]
  · have : d.contains k = false := by
      cases hc : d.contains k with
      | false => rfl
      | true => exact absurd (hm.1 hc) hk
    simp [this, if_neg hk]

theorem size_erase_le (d : Dict κ α) (k : κ) : (d.erase k).size ≤ d.size :=
  List.length_filter_le _ _

end Dict

end EntityScript
