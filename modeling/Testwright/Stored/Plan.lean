import Testwright.Stored.Surface
import Testwright.Testing.Plan

namespace Testwright

/-!
The stored form of planned tests.  The test of a method holds the method as a
whole, so a stored plan can be read without the class.
-/

namespace Subject

def toJson : Subject → Json
  | .type => .string "TypeCheck".toList
  | .instantiation => .string "InstantiationCheck".toList
  | .method _ tested => Json.ofFields [("Method", tested.toJson)]

end Subject

namespace PlannedTest

def toJson (test : PlannedTest) : Json :=
  Json.ofFields [("kind", test.subject.toJson), ("test_name", .string test.name)]

end PlannedTest
end Testwright
