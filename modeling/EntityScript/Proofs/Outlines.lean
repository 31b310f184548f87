import EntityScript.World.Zone
import Mathlib.Data.List.Rotate

/-! A zone does not depend on how its outline is written down. Whichever corner comes first, the edges are the
same ones, and a corner that is written twice adds an edge of no length, which no ray crosses, whatever its
numbers are. So a point lies in the zone or not, however the outline is redrawn. -/

namespace EntityScript

namespace Zone

/-- The outline drawn again: begun at another corner, or with corners written once more on the spot. -/
inductive Redrawn (outline : List Corner) : List Corner → Prop
  | same : Redrawn outline outline
  | restarted {drawn : List Corner} (h : Redrawn outline drawn) (n : Nat) : Redrawn outline (drawn.rotate n)
  | repeated {before after : List Corner} {corner : Corner} (h : Redrawn outline (before ++ corner :: after)) :
    Redrawn outline (before ++ corner :: corner :: after)

variable {outline drawn : List Corner}

theorem Redrawn.length_le (h : Redrawn outline drawn) : outline.length ≤ drawn.length := by
  induction h with
  | same => exact le_rfl
  | restarted _ n ih => simpa using ih
  | repeated _ ih =>
    simp only [List.length_append, List.length_cons] at ih ⊢
    omega

/-- To close an outline with its first corner is to write that corner twice. -/
theorem Redrawn.closed (h : Redrawn outline drawn) : Redrawn outline (drawn ++ drawn.take 1) := by
  cases drawn with
  | nil => exact h
  | cons corner corners =>
    have hlast := h.restarted 1
    rw [List.rotate_cons_succ, List.rotate_zero] at hlast
    have htwice : Redrawn outline ((corners ++ [corner]) ++ [corner]) := by
      rw [List.append_assoc]
      exact hlast.repeated
    have hback := htwice.restarted (corners ++ [corner]).length
    rw [List.rotate_append_length_eq] at hback
    exact hback

/-- The last edge of a line of corners leads to the corner that is added. -/
theorem zip_concat (first last : Corner) (corners : List Corner) :
    (first :: (corners ++ [last])).zip (corners ++ [last]) =
      (first :: corners).zip corners ++ [(corners.getLast?.getD first, last)] := by
  induction corners generalizing first with
  | nil => rfl
  | cons corner corners ih => simp [ih, List.getLast?_cons]

theorem edges_cons (first : Corner) (corners : List Corner) :
    edges (first :: corners) = (corners.getLast?.getD first, first) :: (first :: corners).zip corners := by
  rw [edges, List.getLast?_cons]
  rfl

/-- The outline begun at its second corner has the same edges, of which the first one is now the last. -/
theorem edges_concat (first : Corner) (corners : List Corner) :
    (edges (corners ++ [first])).Perm (edges (first :: corners)) := by
  have hedges : edges (corners ++ [first]) =
      (first :: corners).zip corners ++ [(corners.getLast?.getD first, first)] := by
    rw [edges, List.getLast?_concat]
    exact zip_concat first first corners
  rw [hedges, edges_cons]
  exact List.perm_append_singleton _ _

theorem edges_rotate (outline : List Corner) (n : Nat) : (edges (outline.rotate n)).Perm (edges outline) := by
  induction n generalizing outline with
  | zero => rw [List.rotate_zero]
  | succ n ih =>
    cases outline with
    | nil => rw [List.rotate_nil]
    | cons first corners =>
      rw [List.rotate_cons_succ]
      exact (ih _).trans (edges_concat first corners)

/-- A corner that is written twice is an edge by itself. -/
theorem edges_repeated (before after : List Corner) (corner : Corner) :
    (edges (before ++ corner :: corner :: after)).Perm ((corner, corner) :: edges (before ++ corner :: after)) := by
  have hfirst : ∀ corners, edges (corner :: corner :: corners) =
      (corners.getLast?.getD corner, corner) :: (corner, corner) :: (corner :: corners).zip corners := by
    intro corners
    rw [edges_cons, List.getLast?_cons]
    rfl
  -- seen from the corner itself, only the first two edges matter
  have htwice := (edges_rotate (before ++ corner :: corner :: after) before.length).symm
  have honce := edges_rotate (before ++ corner :: after) before.length
  rw [List.rotate_append_length_eq, List.cons_append, List.cons_append, hfirst] at htwice
  rw [List.rotate_append_length_eq, List.cons_append, edges_cons] at honce
  exact (htwice.trans (.swap _ _ _)).trans (honce.cons _)

/-- No ray crosses an edge of no length: its two ends are on the same side. -/
theorem crosses_self (x z : Float32) (corner : Corner) : crosses x z (corner, corner) = false := by
  simp [crosses]

theorem crossings_redrawn (h : Redrawn outline drawn) (x z : Float32) :
    (edges drawn).countP (crosses x z) = (edges outline).countP (crosses x z) := by
  induction h with
  | same => rfl
  | @restarted drawn _ n ih => rw [(edges_rotate drawn n).countP_eq, ih]
  | @repeated before after corner _ ih =>
    rw [(edges_repeated before after corner).countP_eq, List.countP_cons_of_neg (by simp [crosses_self]), ih]

/-- A point lies in a zone or not, however the outline is redrawn; and an outline may end with its first
corner. -/
theorem contains_redrawn {zone : Zone} (hcorners : 3 ≤ zone.outline.length) (p : Point) :
    (∀ outline, Redrawn zone.outline outline → contains { zone with outline } p = contains zone p) ∧
      contains { zone with outline := zone.outline ++ zone.outline.take 1 } p = contains zone p := by
  have hredrawn : ∀ outline, Redrawn zone.outline outline →
      contains { zone with outline } p = contains zone p := by
    intro outline h
    have hmore : 3 ≤ outline.length := hcorners.trans h.length_le
    have hencloses : encloses outline p.x p.z = encloses zone.outline p.x p.z := by
      simp only [encloses, hmore, hcorners, crossings_redrawn h]
    rw [contains, contains, hencloses]
  exact ⟨hredrawn, hredrawn _ Redrawn.same.closed⟩

def court : Zone where
  name := "court"
  outline := [⟨0, 0⟩, ⟨10, 0⟩, ⟨10, 5⟩, ⟨5, 5⟩, ⟨5, 10⟩, ⟨0, 10⟩]
  floor := -1
  height := 4

def courtAgain : List Corner :=
  [⟨5, 5⟩, ⟨5, 5⟩, ⟨5, 5⟩, ⟨5, 10⟩, ⟨0, 10⟩, ⟨0, 0⟩, ⟨10, 0⟩, ⟨10, 5⟩, ⟨5, 5⟩]

theorem court_redrawn : Redrawn court.outline courtAgain := by
  have hsame : Redrawn court.outline court.outline := .same
  have hclosed := (hsame.restarted 3).closed
  have htwice := @Redrawn.repeated _ [] _ _ hclosed
  exact @Redrawn.repeated _ [] _ _ htwice

/-- Seen from inside the court, from where its corner is cut out, and from above it. -/
theorem contains_redrawn_court :
    contains { court with outline := courtAgain } ⟨2, 0, 8⟩ = true ∧
      contains { court with outline := courtAgain } ⟨8, 0, 8⟩ = false ∧
      contains { court with outline := courtAgain } ⟨2, 4, 8⟩ = false := by
  have hcorners : 3 ≤ court.outline.length := by decide
  have hagain : ∀ p, contains { court with outline := courtAgain } p = contains court p :=
    fun p => (contains_redrawn hcorners p).1 courtAgain court_redrawn
  simp only [hagain]
  decide +kernel

end Zone

end EntityScript
