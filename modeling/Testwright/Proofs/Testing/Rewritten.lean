import Testwright.Proofs.Convention.Rewriting
import Testwright.Proofs.Testing.Statement

namespace Testwright
namespace TestPlan

/-!
# Rendered tests, rewritten

A rendered test method is a heading, preceded by a mark in the modern convention, and
lines that the rewriting passes over (`isPassed_of_mem_innerLines`).  Putting marks into
the tests of a legacy source, or taking them out of those of a modern one, gives the
tests as they are rendered in the other convention (`markLines_tests`,
`unmarkLines_tests`).
-/

open Character (isBlank isDottedPart isNamePart)
open Convention (IsPlain markLine markLines marksBehind unmarkLine unmarkLines waitsBehind)
open Header (isSpaceOrTab)
open Matcher (markedLine voidLine)
open Text (Blank Unbroken)

/-! ## The lines of a test method -/

/-- The heading of a test method of this name. -/
def headingLine (style : TestStyle) (name : Text) : Text :=
  style.indent ++ "public void ".toList ++ name ++ "() throws Exception \x7b".toList

/-- The mark of a test on a line of its own. -/
def markLineOf (style : TestStyle) : Text :=
  style.indent ++ "@Test".toList

/-- The lines of a test method behind its heading. -/
def innerLines (style : TestStyle) (target : ClassSurface) (test : PlannedTest) : List Text :=
  (style.todoComment.toList ++ bodyLines target test.subject).map
    (fun line => style.indent ++ style.indent ++ line) ++ [style.indent ++ ['}']]

theorem testLines_modern (style : TestStyle) (target : ClassSurface) (test : PlannedTest) :
    testLines style target .modern test =
      markLineOf style :: headingLine style test.name :: innerLines style target test := by
  simp only [testLines, innerLines, headingLine, markLineOf, methodName, List.append_assoc,
    List.cons_append, List.nil_append]

theorem testLines_legacy (style : TestStyle) (target : ClassSurface) (test : PlannedTest) :
    testLines style target .legacy test =
      headingLine style (style.legacyPrefix ++ test.name) :: innerLines style target test := by
  simp only [testLines, innerLines, headingLine, methodName, List.append_assoc, List.cons_append,
    List.nil_append]

/-- The lines of test methods, each with an empty line behind it. -/
def testsLines (style : TestStyle) (target : ClassSurface) (convention : Convention)
    (tests : List PlannedTest) : List Text :=
  tests.flatMap fun test => testLines style target convention test ++ [[]]

theorem renderTests_eq (style : TestStyle) (target : ClassSurface) (convention : Convention)
    (separator : Text) (tests : List PlannedTest) :
    renderTests style target convention separator tests =
      joinLines separator (testsLines style target convention tests) := by
  induction tests with
  | nil => rfl
  | cons test tests ih =>
      have first : renderTest style target convention separator test ++ separator =
          joinLines separator (testLines style target convention test ++ [[]]) := by
        simp [renderTest, joinLines]
      have parted : testsLines style target convention (test :: tests) =
          (testLines style target convention test ++ [[]]) ++
            testsLines style target convention tests := rfl
      rw [parted, joinLines, List.flatMap_append, ← joinLines, ← joinLines, ← ih, ← first]
      rfl

/-! ## Lines that are passed over -/

/-- A line without a mark that declares no void method. -/
structure IsPassed (line : Text) : Prop where
  unbroken : Unbroken line
  unmarked : '@' ∉ line
  undeclared : voidLine.read? line = none

theorem isPassed_nil : IsPassed [] where
  unbroken := List.forall_mem_nil _
  unmarked := List.not_mem_nil
  undeclared := VoidLine.read?_eq_none_of_not_mem List.not_mem_nil

theorem IsPassed.isPlain {line : Text} (h : IsPassed line) (ending : Text) :
    IsPlain ⟨line, ending⟩ :=
  ⟨MarkedLine.read?_eq_none_of_not_mem h.unmarked, h.undeclared⟩

/-- Nothing that breaks a line, no sign of a mark and no parenthesis. -/
abbrev IsQuietLine (line : Text) : Prop :=
  ∀ c ∈ line, c ≠ '@' ∧ c ≠ '(' ∧ c ≠ '\n' ∧ c ≠ '\r'

/-- A line without a parenthesis. -/
theorem isPassed_of_quiet {line : Text} (quiet : IsQuietLine line) : IsPassed line where
  unbroken := fun c member => (quiet c member).2.2
  unmarked := fun member => (quiet '@' member).1 rfl
  undeclared := VoidLine.read?_eq_none_of_not_mem fun member => (quiet '(' member).2.1 rfl

theorem isPassed_of_acts {gap line : Text} (spaces : ∀ c ∈ gap, isSpaceOrTab c = true)
    (composed : Composed line) (acts : Acts line) : IsPassed (gap ++ line) := by
  have other : ∀ {c d : Char}, c ∈ gap → isSpaceOrTab d = false → c ≠ d := by
    rintro c d member none rfl
    rw [spaces c member] at none
    cases none
  refine ⟨List.forall_mem_append.mpr
    ⟨fun c member => ⟨other member (by decide), other member (by decide)⟩,
    fun c member => (composed.plain c member).2⟩, ?_, ?_⟩
  · simp only [List.mem_append, not_or]
    exact ⟨fun member => other member (by decide) rfl,
      fun member => (composed.plain '@' member).1 rfl⟩
  · have blank : Blank gap := fun c member => Header.isBlank_of_isSpaceOrTab (spaces c member)
    rcases acts with ⟨a, b, rfl, noParenthesis⟩ | ⟨w, b, rfl, dotted⟩
    · have apart : '(' ∉ gap ++ a := by
        simp only [List.mem_append, not_or]
        exact ⟨fun member => other member (by decide) rfl, noParenthesis⟩
      rw [← List.append_assoc]
      exact VoidLine.read?_eq_none_of_mark apart (by decide) (by decide) (by decide)
    · have word : ∀ c ∈ w, isBlank c = false ∧ c ≠ '(' := by
        intro c member
        refine ⟨Character.not_isBlank_of_isDottedPart (dotted c member), ?_⟩
        rintro rfl
        exact absurd (dotted _ member) (by decide)
      rw [← List.append_assoc]
      exact VoidLine.read?_eq_none_of_word blank word

section Rewritten

variable {style : TestStyle} (spaces : ∀ c ∈ style.indent, isSpaceOrTab c = true)
include spaces

theorem isQuiet_indent : IsQuietLine style.indent := by
  intro c member
  have space := spaces c member
  refine ⟨?_, ?_, ?_, ?_⟩ <;> rintro rfl <;> exact absurd space (by decide)

section Inner

variable (comment : ∀ line, style.todoComment = some line → IsQuietLine line)
  {target : ClassSurface} (named : target.IsNamed) {test : PlannedTest}
  (subject : test.subject.IsNamed)
include comment named subject

theorem isPassed_of_mem_innerLines : ∀ line ∈ innerLines style target test, IsPassed line := by
  have quiet := isQuiet_indent spaces
  intro line member
  rcases List.mem_append.mp member with inBody | closing
  · rcases List.mem_map.mp inBody with ⟨content, inContents, rfl⟩
    rcases List.mem_append.mp inContents with todo | body
    · have isQuiet := comment content (by simpa using todo)
      exact isPassed_of_quiet
        (List.forall_mem_append.mpr ⟨List.forall_mem_append.mpr ⟨quiet, quiet⟩, isQuiet⟩)
    · exact isPassed_of_acts (List.forall_mem_append.mpr ⟨spaces, spaces⟩)
        (composed_of_mem_bodyLines named subject content body)
          (acts_of_mem_bodyLines named subject content body)
  · rw [List.mem_singleton.mp closing]
    exact isPassed_of_quiet (List.forall_mem_append.mpr ⟨quiet, by simp⟩)

end Inner

/-! ## Headings and marks -/

/-- The heading of a test method declares it. -/
theorem read?_headingLine {name : Text} (nonempty : name ≠ [])
    (inName : ∀ c ∈ name, isNamePart c = true) :
    voidLine.read? (headingLine style name) =
      some ⟨style.indent, "public void ".toList, name, "() throws Exception \x7b".toList⟩ := by
  refine VoidLine.read?_eq_some_iff.mpr ⟨?_, ⟨spaces, ?_, nonempty, inName, ?_⟩⟩
  · simp only [headingLine, VoidLine.text, List.append_assoc]
  · refine ⟨"public ".toList, [' '], rfl, ⟨["public ".toList], rfl, ?_⟩, by simp, by decide⟩
    intro r member
    rw [List.mem_singleton.mp member]
    exact ⟨"public".toList, [' '], rfl, by decide, by simp, by decide⟩
  · exact ⟨[], ") throws Exception \x7b".toList, rfl, Text.blank_nil, by decide⟩

theorem unmarked_headingLine {name : Text} (inName : ∀ c ∈ name, isNamePart c = true) :
    markedLine.read? (headingLine style name) = none := by
  apply MarkedLine.read?_eq_none_of_not_mem
  simp only [headingLine, List.mem_append, not_or]
  exact ⟨⟨⟨fun member => (isQuiet_indent spaces '@' member).1 rfl, by decide⟩,
    fun member => absurd (inName '@' member) (by decide)⟩, by decide⟩

/-- A mark on a line of its own. -/
theorem read?_markLineOf : markedLine.read? (markLineOf style) = some ⟨style.indent, []⟩ := by
  have unbroken : '\n' ∉ markLineOf style := by
    simp only [markLineOf, List.mem_append, not_or]
    exact ⟨fun member => (isQuiet_indent spaces '\n' member).2.2.1 rfl, by decide⟩
  refine (MarkedLine.read?_eq_some_iff unbroken).mpr
    ⟨[], [], ⟨?_, spaces, rfl, .inr ⟨rfl, ?_⟩, by simp, rfl⟩⟩
  · simp only [markLineOf, List.append_nil]
  · intro gap inner rest blank
    simp

/-! ## Tests -/

section Tests

variable (comment : ∀ line, style.todoComment = some line → IsQuietLine line)
  {target : ClassSurface} (named : target.IsNamed) {separator : Text}

section Test

variable {test : PlannedTest} (subject : test.subject.IsNamed) (nonempty : test.name ≠ [])
  (inName : ∀ c ∈ test.name, isNamePart c = true)
include comment named subject nonempty inName

/-- A test of a legacy source becomes that of a modern one, and no mark is left over. -/
theorem markLines_test (inPrefix : ∀ c ∈ style.legacyPrefix, isNamePart c = true)
    (lines : List Line) :
    markLines style.legacyPrefix separator false
        (((testLines style target .legacy test ++ [[]]).map fun line => ⟨line, separator⟩) ++
          lines) =
      joinLines separator (testLines style target .modern test ++ [[]]) ++
        markLines style.legacyPrefix separator false lines := by
  have inFull : ∀ c ∈ style.legacyPrefix ++ test.name, isNamePart c = true :=
    List.forall_mem_append.mpr ⟨inPrefix, inName⟩
  have full : style.legacyPrefix ++ test.name ≠ [] := by simp [nonempty]
  have passed := isPassed_of_mem_innerLines spaces comment named subject
  have plain :
      ∀ line ∈ (innerLines style target test ++ [[]]).map fun line => (⟨line, separator⟩ : Line),
      IsPlain line := by
    intro line member
    rcases List.mem_map.mp member with ⟨content, inside, rfl⟩
    rcases List.mem_append.mp inside with inner | blank
    · exact (passed content inner).isPlain separator
    · rw [List.mem_singleton.mp blank]
      exact isPassed_nil.isPlain separator
  have heading : markLine style.legacyPrefix separator false
      ⟨headingLine style (style.legacyPrefix ++ test.name), separator⟩ =
        (style.indent ++ "@Test".toList ++ separator) ++
          (headingLine style test.name ++ separator) := by
    have unmarked := unmarked_headingLine spaces inFull
    have read := read?_headingLine spaces full inFull
    rw [Convention.markLine_of_declared unmarked read rfl nonempty]
    simp only [Bool.false_eq_true, if_false, VoidLine.text, headingLine, List.append_assoc]
  have behind :
      marksBehind false [⟨headingLine style (style.legacyPrefix ++ test.name), separator⟩] =
        false :=
    Convention.marksBehind_eq_false fun line member => by
      rw [List.mem_singleton.mp member]
      exact unmarked_headingLine spaces inFull
  have behind' := Convention.marksBehind_eq_false fun line member => (plain line member).unmarked
  rw [testLines_legacy, testLines_modern, List.cons_append, List.map_cons, List.cons_append,
    Convention.markLines_cons, behind, Convention.markLines_append, behind',
    Convention.markLines_of_plain plain, Line.texts_map, heading]
  simp only [joinLines, markLineOf, List.cons_append, List.flatMap_cons, List.append_assoc]

/-- A test of a modern source becomes that of a legacy one, and no mark is left over. -/
theorem unmarkLines_test (other : ¬ style.legacyPrefix <+: test.name) (lines : List Line) :
    unmarkLines style.legacyPrefix false
        (((testLines style target .modern test ++ [[]]).map fun line => ⟨line, separator⟩) ++
          lines) =
      joinLines separator (testLines style target .legacy test ++ [[]]) ++
        unmarkLines style.legacyPrefix false lines := by
  have passed := isPassed_of_mem_innerLines spaces comment named subject
  have unmarked :
      ∀ line ∈ (innerLines style target test ++ [[]]).map fun line => (⟨line, separator⟩ : Line),
      markedLine.read? line.content = none := by
    intro line member
    rcases List.mem_map.mp member with ⟨content, inside, rfl⟩
    rcases List.mem_append.mp inside with inner | blank
    · exact ((passed content inner).isPlain separator).unmarked
    · rw [List.mem_singleton.mp blank]
      exact (isPassed_nil.isPlain separator).unmarked
  have mark : unmarkLine style.legacyPrefix false ⟨markLineOf style, separator⟩ = [] ∧
      waitsBehind false [⟨markLineOf style, separator⟩] = true := by
    simp [unmarkLine, waitsBehind, read?_markLineOf spaces, Text.allBlank]
  have read := read?_headingLine spaces nonempty inName
  have heading : unmarkLine style.legacyPrefix true ⟨headingLine style test.name, separator⟩ =
      headingLine style (style.legacyPrefix ++ test.name) ++ separator := by
    have bare := unmarked_headingLine spaces inName
    rw [Convention.unmarkLine_of_declared bare read, Convention.prefixedLine_of_not_prefix other]
    simp only [VoidLine.text, headingLine, List.append_assoc]
  have behind : waitsBehind true [⟨headingLine style test.name, separator⟩] = false := by
    simp only [waitsBehind, unmarked_headingLine spaces inName, read, Option.isNone_some,
      Bool.and_false]
  have inner : unmarkLines style.legacyPrefix false
      ((innerLines style target test ++ [[]]).map fun line => ⟨line, separator⟩) = _ ∧ _ :=
    Convention.unmarkLines_of_unmarked unmarked
  rw [testLines_legacy, testLines_modern, List.cons_append, List.cons_append, List.map_cons,
    List.map_cons, List.cons_append, List.cons_append, Convention.unmarkLines_cons, mark.1, mark.2,
    Convention.unmarkLines_cons, heading, behind, Convention.unmarkLines_append, inner.1, inner.2,
    Line.texts_map]
  simp only [joinLines, List.cons_append, List.flatMap_cons, List.append_assoc, List.nil_append]

end Test

variable {tests : List PlannedTest} (subjects : ∀ test ∈ tests, test.subject.IsNamed)
  (nonempty : ∀ test ∈ tests, test.name ≠ [])
  (inNames : ∀ test ∈ tests, ∀ c ∈ test.name, isNamePart c = true)
include comment named subjects nonempty inNames

/-- The tests of a legacy source become those of a modern one. -/
theorem markLines_tests (inPrefix : ∀ c ∈ style.legacyPrefix, isNamePart c = true)
    (lines : List Line) :
    markLines style.legacyPrefix separator false
        (((testsLines style target .legacy tests).map fun line => ⟨line, separator⟩) ++ lines) =
      joinLines separator (testsLines style target .modern tests) ++
        markLines style.legacyPrefix separator false lines := by
  induction tests with
  | nil => rfl
  | cons test tests ih =>
      have rest := ih (fun other member => subjects other (List.mem_cons_of_mem test member))
        (fun other member => nonempty other (List.mem_cons_of_mem test member))
        fun other member => inNames other (List.mem_cons_of_mem test member)
      simp only [testsLines, List.flatMap_cons] at rest ⊢
      rw [List.map_append, List.append_assoc, markLines_test spaces comment named
        (subjects test List.mem_cons_self) (nonempty test List.mem_cons_self)
          (inNames test List.mem_cons_self)
        inPrefix, rest]
      simp only [joinLines, List.flatMap_append, List.append_assoc]

/-- The tests of a modern source become those of a legacy one. -/
theorem unmarkLines_tests (others : ∀ test ∈ tests, ¬ style.legacyPrefix <+: test.name)
    (lines : List Line) :
    unmarkLines style.legacyPrefix false
        (((testsLines style target .modern tests).map fun line => ⟨line, separator⟩) ++ lines) =
      joinLines separator (testsLines style target .legacy tests) ++
        unmarkLines style.legacyPrefix false lines := by
  induction tests with
  | nil => rfl
  | cons test tests ih =>
      have rest := ih (fun other member => subjects other (List.mem_cons_of_mem test member))
        (fun other member => nonempty other (List.mem_cons_of_mem test member))
        (fun other member => inNames other (List.mem_cons_of_mem test member))
        fun other member => others other (List.mem_cons_of_mem test member)
      simp only [testsLines, List.flatMap_cons] at rest ⊢
      rw [List.map_append, List.append_assoc, unmarkLines_test spaces comment named
        (subjects test List.mem_cons_self) (nonempty test List.mem_cons_self)
          (inNames test List.mem_cons_self)
        (others test List.mem_cons_self), rest]
      simp only [joinLines, List.flatMap_append, List.append_assoc]

end Tests

end Rewritten

end TestPlan
end Testwright
