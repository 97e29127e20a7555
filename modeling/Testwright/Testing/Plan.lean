import Testwright.Settings.TestStyle
import Testwright.Surface.ClassSurface

namespace Testwright

/-!
Test plans.

A class calls for a test of its type, a test of its instantiation, and one test
for each of its methods, in this order.  A test of a method carries the name of
the method and a token for each parameter type, so that overloads get tests of
their own.  Where that name is taken by an earlier method, tokens that name the
packages are used instead.
-/

/-- What a test exercises. -/
inductive Subject where
  | type
  | instantiation
  /-- A method, with its place among the methods of the class. -/
  | method (place : Nat) (method : Method)

structure PlannedTest where
  subject : Subject
  /-- The name without the prefix of the legacy convention. -/
  name : Text

/-- The tests that a class calls for. -/
structure TestPlan where
  target : ClassSurface
  tests : List PlannedTest

namespace TestPlan

/-- The name of the test of a method, with this token for each parameter type.
A method without parameters lends its bare name. -/
def nameWith (style : TestStyle) (token : TypeTree → Text) (method : Method) : Text :=
  if method.parameterTypes.isEmpty then
    method.name
  else
    method.name ++ style.parametersMark ++
      method.parameterTypes.flatMap fun type => style.tokenMark ++ token type

/-- The name of the test of a method, by the stored tokens. -/
def plainName (style : TestStyle) (method : Method) : Text :=
  nameWith style TypeTree.token method

/-- The name of the test of a method, by tokens that name the packages. -/
def qualifiedName (style : TestStyle) (method : Method) : Text :=
  nameWith style TypeTree.qualifiedToken method

/-- The names of the tests of methods, if these names are taken already. -/
def methodNames (style : TestStyle) : List Text → List Method → List Text
  | _, [] => []
  | taken, method :: methods =>
      let name :=
        if taken.contains (plainName style method) then qualifiedName style method
        else plainName style method
      name :: methodNames style (name :: taken) methods

/-- The test that the class exists. -/
def typeTest : PlannedTest :=
  ⟨.type, "type".toList⟩

/-- The test that the class can be instantiated. -/
def instantiationTest : PlannedTest :=
  ⟨.instantiation, "instantiation".toList⟩

/-- The plan for a class. -/
def ofSurface (style : TestStyle) (target : ClassSurface) : TestPlan where
  target := target
  tests := typeTest :: instantiationTest ::
    (target.methods.zipIdx.zip (methodNames style [] target.methods)).map fun entry =>
      ⟨.method entry.1.2 entry.1.1, entry.2⟩

/-- The name of the test class. -/
def className (plan : TestPlan) : Text :=
  plan.target.name ++ "Test".toList

def names (plan : TestPlan) : List Text :=
  plan.tests.map PlannedTest.name

end TestPlan
end Testwright
