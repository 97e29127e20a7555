import Testwright.Surface.Visibility

namespace Testwright

/-!
What a reader of class sources is free to decide.
-/

structure ExtractionPolicy where
  /-- The visibility of a signature that shows none. -/
  implicitVisibility : Visibility
  /-- Whether a name that a single import covers becomes the imported path. -/
  qualifyImported : Bool
  /-- Whether a name that nothing else explains is taken from the package. -/
  qualifyPackage : Bool
  /-- Whether a type variable (a capital, or a capital and a digit) becomes
  `Object`. -/
  eraseVariables : Bool
  /-- The largest source that is read, in bytes. -/
  maxSourceSize : Nat
  /-- Whether a batch of sources is read in parallel. -/
  parallel : Bool
  /-- How many workers a parallel batch asks for.  No result depends on it. -/
  workers : Option Nat

namespace ExtractionPolicy

/-- Names stay as written, variables are erased, sources hold ten mebibytes. -/
def standard : ExtractionPolicy where
  implicitVisibility := Visibility.publicAccess
  qualifyImported := false
  qualifyPackage := false
  eraseVariables := true
  maxSourceSize := 10 * 1024 * 1024
  parallel := false
  workers := none

/-- Names become fully qualified wherever the imports and the package tell how. -/
def qualifying : ExtractionPolicy :=
  { standard with qualifyImported := true, qualifyPackage := true }

end ExtractionPolicy
end Testwright
