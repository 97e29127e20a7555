import Testwright.Text.Basic

namespace Testwright
namespace Text

/-!
Cutting at commas and blanks outside angle brackets.

The depth counts the angle brackets that are open.  A closing bracket without
an opening one leaves the depth at zero, so the cuts depend on what stands to
the left only.
-/

open Character (isBlank)

/-- The depth behind the character `c`, if it is `depth` before it. -/
def nest (depth : Nat) (c : Char) : Nat :=
  if c = '<' then depth + 1 else if c = '>' then depth - 1 else depth

/-- The pieces between the commas at depth zero, as they stand. -/
def commaPieces : Nat → Text → List Text
  | _, [] => [[]]
  | depth, c :: t =>
      if c = ',' ∧ depth = 0 then
        [] :: commaPieces 0 t
      else
        match commaPieces (nest depth c) t with
        | [] => [[c]]
        | piece :: pieces => (c :: piece) :: pieces

/-- The pieces between the commas outside angle brackets, trimmed.  A blank
text has one empty piece. -/
def topLevelPieces (t : Text) : List Text :=
  (commaPieces 0 t).map trim

/-- The last blank at depth zero, as what precedes it and what begins with
it. -/
def lastTopLevelBlank? : Nat → Text → Option (Text × Text)
  | _, [] => none
  | depth, c :: t =>
      match lastTopLevelBlank? (nest depth c) t with
      | some cut => some (c :: cut.1, cut.2)
      | none => if isBlank c ∧ depth = 0 then some ([], c :: t) else none

/-- The text without what stands in angle brackets, and without the brackets. -/
def eraseAngles : Nat → Text → Text
  | _, [] => []
  | depth, c :: t =>
      if depth = 0 ∧ c ≠ '<' ∧ c ≠ '>' then
        c :: eraseAngles depth t
      else
        eraseAngles (nest depth c) t

/-! ### Pieces are no longer than the text -/

theorem length_trim_le (t : Text) : (trim t).length ≤ t.length := by
  have front : (trimStart t).length ≤ t.length := (List.dropWhile_sublist isBlank).length_le
  have back : ((trimStart t).reverse.dropWhile isBlank).length ≤ (trimStart t).reverse.length :=
    (List.dropWhile_sublist isBlank).length_le
  simp only [trim, trimEnd, List.length_reverse] at back ⊢
  exact Nat.le_trans back front

theorem length_le_of_mem_commaPieces {depth : Nat} {t piece : Text}
    (member : piece ∈ commaPieces depth t) : piece.length ≤ t.length := by
  induction t generalizing depth piece with
  | nil =>
      have : piece = [] := by simpa [commaPieces] using member
      simp [this]
  | cons c t ih =>
      simp only [commaPieces] at member
      split at member
      · rcases List.mem_cons.mp member with rfl | member
        · simp
        · exact Nat.le_trans (ih member) (by simp)
      · split at member
        · have : piece = [c] := by simpa using member
          simp [this]
        · rename_i first pieces found
          rcases List.mem_cons.mp member with rfl | member
          · have := @ih (nest depth c) first (by simp [found])
            simpa using this
          · have := @ih (nest depth c) piece (by simp [found, member])
            exact Nat.le_trans this (by simp)

theorem length_le_of_mem_topLevelPieces {t piece : Text}
    (member : piece ∈ topLevelPieces t) : piece.length ≤ t.length := by
  obtain ⟨whole, cut, rfl⟩ := List.mem_map.mp member
  exact Nat.le_trans (length_trim_le whole) (length_le_of_mem_commaPieces cut)

end Text
end Testwright
