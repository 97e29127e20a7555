import Testwright.Refusal
import Testwright.Source.Normalized
import Testwright.Testing.Plan

namespace Testwright

/-!
Tests that a source lacks, and appending them.

A test is present if the source declares a void method of its name, with or
without the prefix of the legacy convention.  Comments and literals declare
nothing.
-/

namespace Matcher

open Character (isBlank)

/-- The declaration of a void method of this name, with or without the prefix. -/
def voidMethod (legacyPrefix name : Text) : Matcher Unit := do
  wordEdge
  word "void".toList
  runs1 isBlank
  maybe (word legacyPrefix)
  word name
  run isBlank
  char '('

end Matcher

namespace TestPlan

/-- Whether a normalized source declares the test. -/
def declares (source legacyPrefix : Text) (test : PlannedTest) : Bool :=
  (Matcher.voidMethod legacyPrefix test.name).occursIn source

/-- The tests of the plan that a source lacks, in order. -/
def lacking (plan : TestPlan) (legacyPrefix source : Text) : List PlannedTest :=
  let normalized := Text.normalize source
  plan.tests.filter fun test => !declares normalized legacyPrefix test

end TestPlan

namespace Text

def endsWithBreak (t : Text) : Bool :=
  (t.reverse.dropWhile fun c => c == ' ' || c == '\t').head? == some '\n'

/-- The source with the methods in front of its last closing brace, on a line of
their own. -/
def appendMethods (source methods separator : Text) : Except Refusal Text :=
  match cutAtLast? '}' source with
  | none => .error .missingClassBody
  | some cut =>
      .ok (cut.1 ++ (if endsWithBreak cut.1 then [] else separator) ++ methods ++ '}' :: cut.2)

end Text
end Testwright
