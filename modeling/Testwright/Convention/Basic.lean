import Testwright.Text.Basic

namespace Testwright

/-!
Test conventions.

A test source follows one of two.  In the legacy convention the test class
extends a base class and a prefix marks the test methods; in the modern one a
mark in front of each test method does, and the class extends nothing.
-/

inductive Convention where
  | legacy
  | modern
deriving DecidableEq

namespace Convention

/-- The convention in a word. -/
def describe : Convention → Text
  | legacy => "legacy".toList
  | modern => "modern".toList

/-- The statement that imports the static assertions. -/
def assertionsImport : Text :=
  "import static org.junit.Assert.*;".toList

/-- The statement that imports the mark of the modern convention. -/
def markImport : Text :=
  "import org.junit.Test;".toList

/-- The statement that imports the base class of the legacy convention. -/
def baseClassImport : Text :=
  "import junit.framework.TestCase;".toList

/-- The import statements that a test source of the convention needs. -/
def imports : Convention → List Text
  | modern => [assertionsImport, markImport]
  | legacy => [baseClassImport]

end Convention
end Testwright
