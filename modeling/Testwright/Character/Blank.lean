import Testwright.Character.Ranges

namespace Testwright
namespace Character

/-!
Blank characters: the code points with the Unicode property `White_Space`.
Layout around words, brackets and commas is made of these, and only these are
trimmed.  A zero-width space and the byte-order mark are not among them.
-/

/-- The blank code points above ASCII. -/
def blankRanges : List (Nat × Nat) :=
  [(0x85, 0x85), (0xA0, 0xA0), (0x1680, 0x1680), (0x2000, 0x200A), (0x2028, 0x2029),
    (0x202F, 0x202F), (0x205F, 0x205F), (0x3000, 0x3000)]

/-- A blank is a space, one of the ASCII controls from tab to carriage return,
or one of `blankRanges`. -/
def isBlank (c : Char) : Bool :=
  if c.toNat < 0x80 then
    c.toNat == 0x20 || (9 ≤ c.toNat && c.toNat ≤ 13)
  else
    inRanges blankRanges c.toNat

@[simp] theorem isBlank_space : isBlank ' ' = true := by decide

end Character
end Testwright
