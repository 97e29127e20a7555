import Testwright.Character.Blank
import Testwright.Character.Word

namespace Testwright
namespace Character

/-!
# How the character classes lie to each other

Blanks and word characters are disjoint.  Inside ASCII this is arithmetic; above
it the two classes are tables, and the kernel compares their ranges pair by pair.
Everything that follows about names and dotted names is read off this one fact,
so no later proof looks into a table.
-/

/-- A statement about the characters of a list is decided along the list.  The
way through all characters there are never ends in practice. -/
instance (priority := high) decidableForallMem (cs : List Char) (p : Char → Prop)
    [DecidablePred p] :
    Decidable (∀ c ∈ cs, p c) :=
  List.decidableBAll p cs

/-- Whether no range of the first list meets a range of the second. -/
def areApart (left right : List (Nat × Nat)) : Bool :=
  left.all fun l => right.all fun r => l.2 < r.1 || r.2 < l.1

theorem not_inRanges_of_areApart {left right : List (Nat × Nat)}
    (apart : areApart left right = true) {n : Nat} (inLeft : inRanges left n = true) :
    inRanges right n = false := by
  apply Bool.eq_false_iff.mpr
  intro inRight
  obtain ⟨l, lMember, lLow, lHigh⟩ := (inRanges_eq_true_iff left n).mp inLeft
  obtain ⟨r, rMember, rLow, rHigh⟩ := (inRanges_eq_true_iff right n).mp inRight
  have pair := List.all_eq_true.mp (List.all_eq_true.mp apart l lMember) r rMember
  simp only [Bool.or_eq_true, decide_eq_true_eq] at pair
  omega

theorem areApart_blankRanges_wordRanges : areApart blankRanges wordRanges = true := by
  decide +kernel

/-! ## Blanks against names -/

/-- The code points of core's letters and digits. -/
theorem toNat_of_isAlphanum {c : Char} (h : c.isAlphanum = true) :
    (65 ≤ c.toNat ∧ c.toNat ≤ 90) ∨ (97 ≤ c.toNat ∧ c.toNat ≤ 122) ∨
      (48 ≤ c.toNat ∧ c.toNat ≤ 57) := by
  delta Char.isAlphanum Char.isAlpha Char.isUpper Char.isLower Char.isDigit at h
  simp only [Bool.or_eq_true, Bool.and_eq_true, decide_eq_true_eq, ge_iff_le,
    UInt32.le_iff_toNat_le] at h
  simp only [Char.toNat]
  have : 'A'.val.toNat = 65 := rfl
  have : 'Z'.val.toNat = 90 := rfl
  have : 'a'.val.toNat = 97 := rfl
  have : 'z'.val.toNat = 122 := rfl
  have : '0'.val.toNat = 48 := rfl
  have : '9'.val.toNat = 57 := rfl
  omega

/-- No blank is a word character. -/
theorem not_isWord_of_isBlank {c : Char} (blank : isBlank c = true) : isWord c = false := by
  by_cases ascii : c.toNat < 0x80
  · simp only [isBlank, ascii, if_true, Bool.or_eq_true, beq_iff_eq, Bool.and_eq_true,
      decide_eq_true_eq] at blank
    simp only [isWord, ascii, if_true, Bool.or_eq_false_iff, beq_eq_false_iff_ne]
    constructor
    · apply Bool.eq_false_iff.mpr
      intro alphanumeric
      have := toNat_of_isAlphanum alphanumeric
      omega
    · rintro rfl
      have : ('_' : Char).toNat = 95 := rfl
      omega
  · simp only [isBlank, ascii, if_false] at blank
    simp only [isWord, ascii, if_false]
    exact not_inRanges_of_areApart areApart_blankRanges_wordRanges blank

theorem not_isBlank_of_isWord {c : Char} (word : isWord c = true) : isBlank c = false := by
  apply Bool.eq_false_iff.mpr
  intro blank
  rw [not_isWord_of_isBlank blank] at word
  cases word

/-- A dotted name holds no blank. -/
theorem not_isBlank_of_isDottedPart {c : Char} (dotted : isDottedPart c = true) :
    isBlank c = false := by
  simp only [isDottedPart, isNamePart, Bool.or_eq_true, beq_iff_eq] at dotted
  rcases dotted with (word | rfl) | rfl
  · exact not_isBlank_of_isWord word
  · decide
  · decide

theorem isDottedPart_of_isNamePart {c : Char} (name : isNamePart c = true) :
    isDottedPart c = true := by
  simp [isDottedPart, name]

theorem isNamePart_of_isWord {c : Char} (word : isWord c = true) : isNamePart c = true := by
  simp [isNamePart, word]

theorem not_isBlank_of_isNamePart {c : Char} (name : isNamePart c = true) : isBlank c = false :=
  not_isBlank_of_isDottedPart (isDottedPart_of_isNamePart name)

theorem not_isNamePart_of_isBlank {c : Char} (blank : isBlank c = true) :
    isNamePart c = false := by
  apply Bool.eq_false_iff.mpr
  intro name
  rw [not_isBlank_of_isNamePart name] at blank
  cases blank

theorem not_isDottedPart_of_isBlank {c : Char} (blank : isBlank c = true) :
    isDottedPart c = false := by
  apply Bool.eq_false_iff.mpr
  intro dotted
  rw [not_isBlank_of_isDottedPart dotted] at blank
  cases blank

end Character
end Testwright
