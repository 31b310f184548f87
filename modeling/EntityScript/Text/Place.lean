import EntityScript.Text.Size

/-!
A place in a text is what is left to read from there. Positions count bytes, so a position may also
lie inside a character or beyond the end, and a place remembers how far it is from the text it
leaves. Every position has its place, from which `position_ofPosition` gets the position back, and
the place after a part of the text is before what follows that part.
-/

namespace EntityScript.Text

structure Place where
  /-- The characters that lie wholly after the place. -/
  rest : List Char
  /-- Bytes from the beginning of `rest` to the place: fewer than none inside a character, more than
  none beyond the end. -/
  offset : Int := 0
  /-- A place beyond the end leaves nothing. -/
  rest_eq_nil : 0 < offset → rest = [] := by exact fun h => absurd h (by decide)
deriving DecidableEq, Repr

namespace Place

def ofPosition : Nat → List Char → Place
  | 0, text => { rest := text }
  | n + 1, [] => ⟨[], (n + 1 : Nat), fun _ => rfl⟩
  | n + 1, c :: text =>
    if _h : n + 1 < c.utf8Size then
      ⟨text, (n + 1 : Nat) - (c.utf8Size : Int), fun _ => by omega⟩
    else ofPosition (n + 1 - c.utf8Size) text

def position (text : List Char) (p : Place) : Nat := (positionOf text p.rest + p.offset).toNat

/-- The place lies inside a character. -/
def insideChar (p : Place) : Bool := p.offset < 0

/-- Reads on to an ending of the rest. Beyond the end there is nothing to read, and the place stays. -/
def readTo (p : Place) (rest : List Char) : Place :=
  if 0 < p.offset && rest.isEmpty then p else { rest }

@[simp] theorem rest_readTo (p : Place) (rest : List Char) : (p.readTo rest).rest = rest := by
  unfold readTo
  split
  · rename_i hc
    simp only [Bool.and_eq_true, decide_eq_true_eq] at hc
    rw [p.rest_eq_nil hc.1, List.isEmpty_iff.1 hc.2]
  · rfl

/-- After reading a place lies between two characters. -/
theorem insideChar_readTo (p : Place) (rest : List Char) : (p.readTo rest).insideChar = false := by
  unfold readTo insideChar
  split
  · rename_i hbeyond
    simp only [Bool.and_eq_true, decide_eq_true_eq] at hbeyond
    exact decide_eq_false (by omega)
  · rfl

/-- Between two characters, reading on to where the place is changes nothing. -/
theorem readTo_rest {p : Place} (h : p.insideChar = false) : p.readTo p.rest = p := by
  have hbetween : ¬p.offset < 0 := of_decide_eq_false h
  obtain ⟨rest, offset, hrest⟩ := p
  by_cases hbeyond : 0 < offset
  · simp [readTo, hbeyond, hrest hbeyond]
  · obtain rfl : offset = 0 := by dsimp only at hbetween; omega
    rfl

/-- Reading on twice is reading on to where the second time ends. -/
theorem readTo_readTo {p : Place} {mid rest : List Char} (hmid : mid <:+ p.rest)
    (hrest : rest <:+ mid) : (p.readTo mid).readTo rest = p.readTo rest := by
  by_cases hp : 0 < p.offset
  · have hm : mid = [] := List.suffix_nil.1 (p.rest_eq_nil hp ▸ hmid)
    have hr : rest = [] := List.suffix_nil.1 (hm ▸ hrest)
    simp [readTo, hp, hm, hr]
  · simp [readTo, hp]

theorem ofPosition_suffix (n : Nat) (text : List Char) : (ofPosition n text).rest <:+ text := by
  induction text generalizing n with
  | nil => cases n <;> exact List.suffix_refl _
  | cons c text ih =>
    cases n with
    | zero => exact List.suffix_refl _
    | succ n =>
      rw [ofPosition]
      split
      · exact List.suffix_cons c text
      · exact (ih _).trans (List.suffix_cons c text)

theorem ofPosition_size_append (cs ds : List Char) :
    ofPosition (size cs) (cs ++ ds) = { rest := ds } := by
  induction cs with
  | nil => simp [size, ofPosition]
  | cons c cs ih =>
    have hpos := c.utf8Size_pos
    obtain ⟨n, hn⟩ : ∃ n, c.utf8Size + size cs = n + 1 := ⟨c.utf8Size + size cs - 1, by omega⟩
    have hle : ¬n + 1 < c.utf8Size := by omega
    rw [size, List.cons_append, hn, ofPosition, dif_neg hle, ← hn, Nat.add_sub_cancel_left, ih]

theorem size_rest_ofPosition (n : Nat) (text : List Char) :
    (size (ofPosition n text).rest : Int) + n = size text + (ofPosition n text).offset := by
  induction text generalizing n with
  | nil => cases n <;> simp [ofPosition, size]
  | cons c text ih =>
    cases n with
    | zero => simp [ofPosition]
    | succ n =>
      rw [ofPosition]
      split
      · simp only [size]
        omega
      · have := ih (n + 1 - c.utf8Size)
        simp only [size]
        omega

theorem position_ofPosition (n : Nat) (text : List Char) :
    (ofPosition n text).position text = n := by
  have hrest := size_rest_ofPosition n text
  have hle := size_le_of_suffix (ofPosition_suffix n text)
  rw [position, positionOf]
  omega

theorem position_of_rest (text rest : List Char) : position text { rest } = positionOf text rest := by
  simp [position]

end Place

end EntityScript.Text
