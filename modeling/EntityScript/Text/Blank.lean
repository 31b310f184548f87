import EntityScript.Text.Pieces

/-!
White space in the Unicode sense. Option lines are trimmed by it, a number may be preceded by it,
and the parameter text of an event is cut into words at it. Script text itself is cut at its own
separators, which are fewer.
-/

namespace EntityScript.Text

def blankRanges : List (Nat × Nat) := [
  (0x9, 0xD), (0x20, 0x20), (0x85, 0x85), (0xA0, 0xA0), (0x1680, 0x1680), (0x2000, 0x200A),
  (0x2028, 0x2029), (0x202F, 0x202F), (0x205F, 0x205F), (0x3000, 0x3000)]

def isBlank (c : Char) : Bool :=
  blankRanges.any fun (first, last) => first ≤ c.toNat && c.toNat ≤ last

def trimStart (cs : List Char) : List Char := cs.dropWhile isBlank

def trim (cs : List Char) : List Char := (trimStart (trimStart cs).reverse).reverse

def blankSeparated (cs : List Char) : List (List Char) :=
  (pieces isBlank cs).filter (!·.isEmpty)

end EntityScript.Text
