import Testwright.Convention.Basic

namespace Testwright

/-!
How generated tests look.
-/

structure TestStyle where
  /-- The convention of a new source, and of one that shows none. -/
  convention : Convention
  /-- The line separator of a new source, and of one that has no line break. -/
  lineSeparator : Text
  /-- One level of indentation. -/
  indent : Text
  /-- What the names of test methods begin with in the legacy convention. -/
  legacyPrefix : Text
  /-- Stands between the name of a method and the tokens of its parameters. -/
  parametersMark : Text
  /-- Stands in front of the token of each parameter. -/
  tokenMark : Text
  /-- The first line of every generated body. -/
  todoComment : Option Text

namespace TestStyle

def modern : TestStyle where
  convention := Convention.modern
  lineSeparator := ['\n']
  indent := ['\t']
  legacyPrefix := "test_".toList
  parametersMark := "_A".toList
  tokenMark := "$".toList
  todoComment := some "// TODO auto-generated by testscribe.".toList

def legacy : TestStyle :=
  { modern with convention := Convention.legacy }

end TestStyle
end Testwright
