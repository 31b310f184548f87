/-!
Positions in a text count bytes of its UTF-8 form. This module measures texts that way.
-/

namespace EntityScript.Text

/-- Number of bytes of the text in UTF-8. -/
def size : List Char → Nat
  | [] => 0
  | c :: rest => c.utf8Size + size rest

@[simp] theorem size_append (cs ds : List Char) : size (cs ++ ds) = size cs + size ds := by
  induction cs with
  | nil => simp [size]
  | cons c cs ih => simp [size, ih, Nat.add_assoc]

theorem size_le_of_suffix {cs ds : List Char} (h : cs <:+ ds) : size cs ≤ size ds := by
  obtain ⟨front, rfl⟩ := h
  simp

/-- The position in `whole` at which its ending `rest` begins. -/
def positionOf (whole rest : List Char) : Nat := size whole - size rest

theorem positionOf_append (cs ds : List Char) : positionOf (cs ++ ds) ds = size cs := by
  simp [positionOf]

end EntityScript.Text
