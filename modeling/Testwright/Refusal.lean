import Testwright.Text.Basic

namespace Testwright

/-!
Why a source is refused.
-/

inductive Refusal where
  /-- The source declares no class. -/
  | missingClassDeclaration
  /-- The source is larger than the policy allows; both sizes are in bytes. -/
  | sourceTooLarge (size limit : Nat)
  /-- The test source follows neither convention. -/
  | unrecognizedConvention
  /-- The test class extends a class already, so it cannot extend the base
  class of the legacy convention. -/
  | incompatibleBaseClass (base : Text)
  /-- The test source has no closing brace to append before. -/
  | missingClassBody
deriving DecidableEq

namespace Refusal

/-- The refusal as a sentence. -/
def message : Refusal → Text
  | missingClassDeclaration => "No class declaration found in source".toList
  | sourceTooLarge size limit =>
      "Source of ".toList ++ Nat.toDigits 10 size ++ " bytes exceeds maximum size (".toList ++
        Nat.toDigits 10 limit ++ " bytes)".toList
  | unrecognizedConvention =>
      "Test source matches neither the legacy nor the modern convention".toList
  | incompatibleBaseClass base =>
      "Test class already extends ".toList ++ base ++
        ", cannot convert to the legacy convention".toList
  | missingClassBody => "Test source has no class body to append to".toList

end Refusal
end Testwright
