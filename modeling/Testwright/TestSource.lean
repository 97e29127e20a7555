import Testwright.Convention.Conversion
import Testwright.Testing.Lacking
import Testwright.Testing.Render

namespace Testwright
namespace TestSource

/-!
Writing and keeping up the test source of a class.

Every operation is a function of the style, the class and the text it is given.
A blank text counts as no source yet, and is answered with a new one.
-/

/-- A new test source in a convention. -/
def newIn (style : TestStyle) (convention : Convention) (target : ClassSurface) : Text :=
  (TestPlan.ofSurface style target).render style convention

/-- A new test source in the convention of the style. -/
def new (style : TestStyle) (target : ClassSurface) : Text :=
  newIn style style.convention target

/-- The tests of the class that a source lacks. -/
def lacking (style : TestStyle) (target : ClassSurface) (existing : Text) : List PlannedTest :=
  (TestPlan.ofSurface style target).lacking style.legacyPrefix existing

/-- The source with the tests that it lacks appended, in the convention and with
the line separator that it shows. -/
def withLackingTests (style : TestStyle) (target : ClassSurface) (convention : Convention)
    (existing : Text) : Except Refusal Text :=
  match lacking style target existing with
  | [] => .ok existing
  | test :: tests =>
      let separator := Text.lineSeparator existing style.lineSeparator
      Text.appendMethods existing
        (TestPlan.renderTests style target convention separator (test :: tests)) separator

/-- The source with the tests that it lacks and the imports that it needs. -/
def merge (style : TestStyle) (target : ClassSurface) (existing : Text) : Except Refusal Text :=
  if Text.allBlank existing then
    .ok (new style target)
  else
    let convention := (Convention.ofSource? existing).getD style.convention
    match withLackingTests style target convention existing with
    | .error refusal => .error refusal
    | .ok merged => .ok (Header.addMissingImports merged target convention)

/-- The source with the imports that the class and the convention of the style
call for. -/
def addImports (style : TestStyle) (target : ClassSurface) (source : Text) : Text :=
  Header.addMissingImports source target style.convention

/-- The source in the wanted convention, with the imports that the class calls
for. -/
def unify (style : TestStyle) (target : ClassSurface) (wanted : Convention) (existing : Text) :
    Except Refusal Text :=
  if Text.allBlank existing then
    .ok (newIn style wanted target)
  else
    Convention.convert style (some target) wanted existing

end TestSource
end Testwright
