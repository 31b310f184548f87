/-!
Cutting a text at given characters and looking for one text inside another. A text is never without
pieces: the empty text has one, which is empty.
-/

namespace EntityScript.Text

def pieces (cut : Char → Bool) : List Char → List (List Char)
  | [] => [[]]
  | c :: rest =>
    if cut c then [] :: pieces cut rest
    else
      match pieces cut rest with
      | [] => [[c]]
      | piece :: more => (c :: piece) :: more

theorem pieces_ne_nil (cut : Char → Bool) (cs : List Char) : pieces cut cs ≠ [] := by
  cases cs with
  | nil => simp [pieces]
  | cons c rest =>
    rw [pieces]
    split
    · simp
    · split <;> simp

theorem pieces_of_uncut {cut : Char → Bool} {cs : List Char} (h : ∀ c ∈ cs, cut c = false) :
    pieces cut cs = [cs] := by
  induction cs with
  | nil => rfl
  | cons c cs ih =>
    obtain ⟨hc, hcs⟩ := List.forall_mem_cons.1 h
    rw [pieces, if_neg (by simp [hc]), ih hcs]

theorem pieces_append {cut : Char → Bool} {c : Char} (hc : cut c = true) (cs ds : List Char) :
    pieces cut (cs ++ c :: ds) = pieces cut cs ++ pieces cut ds := by
  induction cs with
  | nil => simp [pieces, hc]
  | cons b cs ih =>
    rw [List.cons_append, pieces, pieces, ih]
    split
    · rfl
    · obtain ⟨piece, more, hpieces⟩ := List.exists_cons_of_ne_nil (pieces_ne_nil cut cs)
      rw [hpieces]
      rfl

def lines (cs : List Char) : List (List Char) := pieces (· == '\n') cs

def occursIn (needle : List Char) : List Char → Bool
  | [] => needle.isEmpty
  | c :: rest => needle.isPrefixOf (c :: rest) || occursIn needle rest

def upTo (needle : List Char) : List Char → List Char
  | [] => []
  | c :: rest => if needle.isPrefixOf (c :: rest) then [] else c :: upTo needle rest

end EntityScript.Text
