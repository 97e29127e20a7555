namespace Testwright
namespace Character

/-!
Membership of a code point in a list of closed ranges, the form in which the
character properties of this folder are written down.
-/

/-- Whether `n` lies in one of the closed ranges. -/
def inRanges (ranges : List (Nat × Nat)) (n : Nat) : Bool :=
  ranges.any fun range => range.1 ≤ n && n ≤ range.2

/-- Whether the ranges are in order and apart, each with its ends in order. -/
def areIncreasing : List (Nat × Nat) → Bool
  | [] => true
  | [range] => range.1 ≤ range.2
  | range :: next :: rest =>
      range.1 ≤ range.2 && range.2 + 1 < next.1 && areIncreasing (next :: rest)

theorem inRanges_eq_true_iff (ranges : List (Nat × Nat)) (n : Nat) :
    inRanges ranges n = true ↔ ∃ range ∈ ranges, range.1 ≤ n ∧ n ≤ range.2 := by
  simp [inRanges]

end Character
end Testwright
