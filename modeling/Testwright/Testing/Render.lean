import Testwright.Testing.Plan

namespace Testwright
namespace TestPlan

/-!
Test sources as text.

A test method is written line by line.  Its body declares a variable for the
object under test and for each parameter, each with a placeholder value, calls
the method, and compares the result with a placeholder.
-/

/-- Lines, each with the line separator behind it. -/
def joinLines (separator : Text) (lines : List Text) : Text :=
  lines.flatMap fun line => line ++ separator

/-- The placeholders of parameter types, the way a call lists them. -/
def placeholders (types : List TypeTree) : Text :=
  ", ".toList.intercalate (types.map TypeTree.placeholder)

/-- The statement that makes an object under test by the preferred
constructor. -/
def instantiationLine (target : ClassSurface) : Text :=
  let types := (target.preferredConstructor?.map Constructor.parameterTypes).getD []
  target.name ++ " target = new ".toList ++ target.name ++ '(' :: placeholders types ++
    ");".toList

/-- The statement that declares a variable with its placeholder. -/
def variableLine (type : TypeTree) (name : Text) : Text :=
  type.render ++ ' ' :: name ++ " = ".toList ++ type.placeholder ++ ";".toList

/-- The statement that compares the result.  Floating-point results are compared
with a tolerance of zero. -/
def comparisonLine (type : TypeTree) : Text :=
  let inexact := type.name == "double".toList || type.name == "float".toList
  "assertEquals(expected, actual".toList ++
    (if inexact && type.isPrimitive then ", 0.0".toList else []) ++ ");".toList

/-- The body of the test of a method. -/
def methodLines (target : ClassSurface) (method : Method) : List Text :=
  let receiver := if method.isStatic then target.name else "target".toList
  let call := receiver ++ '.' :: method.name ++
    '(' :: ", ".toList.intercalate method.parameterNames ++ ")".toList
  (if method.isStatic then [] else [instantiationLine target]) ++
    method.parameters.map (fun parameter => variableLine parameter.2 parameter.1) ++
    match method.returnType with
    | none => [call ++ ";".toList]
    | some type =>
        [type.render ++ " actual = ".toList ++ call ++ ";".toList,
          variableLine type "expected".toList, comparisonLine type]

/-- The body of a test. -/
def bodyLines (target : ClassSurface) : Subject → List Text
  | .type => ["assertNotNull(".toList ++ target.name ++ ".class);".toList]
  | .instantiation => [instantiationLine target, "assertNotNull(target);".toList]
  | .method _ method => methodLines target method

/-- The name of the test method for a test. -/
def methodName (style : TestStyle) (convention : Convention) (test : PlannedTest) : Text :=
  match convention with
  | .modern => test.name
  | .legacy => style.legacyPrefix ++ test.name

/-- The lines of a test method. -/
def testLines (style : TestStyle) (target : ClassSurface) (convention : Convention)
    (test : PlannedTest) : List Text :=
  (match convention with
    | .modern => [style.indent ++ "@Test".toList]
    | .legacy => []) ++
  [style.indent ++ "public void ".toList ++ methodName style convention test ++
    "() throws Exception \x7b".toList] ++
  (style.todoComment.toList ++ bodyLines target test.subject).map
    (fun line => style.indent ++ style.indent ++ line) ++
  [style.indent ++ ['}']]

/-- One test method. -/
def renderTest (style : TestStyle) (target : ClassSurface) (convention : Convention)
    (separator : Text) (test : PlannedTest) : Text :=
  joinLines separator (testLines style target convention test)

/-- Test methods, each with an empty line behind it. -/
def renderTests (style : TestStyle) (target : ClassSurface) (convention : Convention)
    (separator : Text) (tests : List PlannedTest) : Text :=
  tests.flatMap fun test => renderTest style target convention separator test ++ separator

/-- The statement that imports a name of a surface. -/
def importStatement (imported : Text) : Text :=
  "import ".toList ++ imported ++ ";".toList

/-- The imports of the class that are not imports of the convention. -/
def targetImports (target : ClassSurface) (convention : Convention) : List Text :=
  (target.imports.map importStatement).filter fun line => !convention.imports.contains line

/-- What a test class of the convention extends. -/
def extendsClause (convention : Convention) : Text :=
  match convention with
  | .legacy => " extends TestCase".toList
  | .modern => []

/-- A new test source for the plan. -/
def render (style : TestStyle) (convention : Convention) (plan : TestPlan) : Text :=
  let separator := style.lineSeparator
  let imports := targetImports plan.target convention
  (match plan.target.package with
    | some package => "package ".toList ++ package ++ ";".toList ++ separator ++ separator
    | none => []) ++
  joinLines separator convention.imports ++ separator ++
  (if imports.isEmpty then [] else joinLines separator imports ++ separator) ++
  "public class ".toList ++ plan.className ++ extendsClause convention ++ " \x7b".toList ++
  separator ++ separator ++
  renderTests style plan.target convention separator plan.tests ++
  '}' :: separator

end TestPlan
end Testwright
