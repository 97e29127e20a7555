import Testwright.Proofs.Testing.StatementLine
import Testwright.Proofs.Testing.TestHeading

namespace Testwright
namespace TestPlan

/-!
# The lines of a test class

Rendered tests are normalized to the headings of the test methods, statements and closing
braces (`exists_carries_renderTests`): the comment of a body is blank then, and an
annotation counts with the blanks in front of the heading behind it.  Such lines carry
the names of the tests (`Carries`), and nothing else that a reader of a class looks for
(`Carries.filterMap_areas`, `Carries.silent`).
-/

open Character (isBlank isNamePart isWord)
open Lexeme (IsKeyword)
open Matcher (Silent)
open Text (BecomesLine Blank NormalizesTo Scanned Terminated areas scanned_separator)

/-- The headings of test methods of these names, in order, and statements and closing
braces besides. -/
inductive Carries : List Text → List Text → Prop
  | nil : Carries [] []
  | method {name : Text} {lines names : List Text} (keyword : IsKeyword name)
      (later : Carries lines names) :
      Carries (heading name :: lines) (name :: names)
  | statement {s line : Text} {lines names : List Text} (blanked : Blanked s line)
      (isStatement : IsStatementLine line) (later : Carries lines names) :
        Carries (line :: lines) names
  | brace {lines names : List Text} (later : Carries lines names) : Carries (['}'] :: lines) names

variable {lines lines' names names' : List Text}

theorem Carries.append (first : Carries lines names) (second : Carries lines' names') :
    Carries (lines ++ lines') (names ++ names') := by
  induction first with
  | nil => exact second
  | method keyword _ ih => exact .method keyword ih
  | statement blanked isStatement _ ih => exact .statement blanked isStatement ih
  | brace _ ih => exact .brace ih

/-! ## What is read off the lines -/

theorem heading_eq_concat (name : Text) : heading name = "public void ".toList ++ name ++
    "() throws Exception ".toList ++ ['\x7b'] := by
  simp [heading, headingOf]

/-- A line of code with a name in it. -/
theorem becomesLine_around {front name back : Text} (inName : ∀ c ∈ name, isNamePart c = true)
    (plain : ∀ c ∈ front ++ back, Region.isQuiet c = true ∧ c ≠ '@' ∧ c ≠ '\t' ∧
      c ≠ '\n' ∧ c ≠ '\r')
    (last : back.getLast?.any (fun c => !isBlank c) = true) :
    BecomesLine (front ++ name ++ back) (front ++ name ++ back) := by
  have nonempty : back ≠ [] := by
    rintro rfl
    cases last
  have each : ∀ c ∈ front ++ name ++ back,
      Region.isQuiet c = true ∧ c ≠ '@' ∧ c ≠ '\t' ∧ c ≠ '\n' ∧ c ≠ '\r' := by
    intro c member
    have other : isNamePart c = true → ∀ d, isNamePart d = false → c ≠ d := by
      rintro named d none rfl
      rw [named] at none
      cases none
    simp only [List.mem_append] at member plain
    rcases member with (inFront | inside) | inBack
    · exact plain c (Or.inl inFront)
    · have apart := other (inName c inside)
      simp [Region.isQuiet, apart '"' (by decide), apart '\x27' (by decide), apart '/' (by decide),
        apart '@' (by decide), apart '\t' (by decide), apart '\n' (by decide),
        apart '\r' (by decide)]
    · exact plain c (Or.inr inBack)
  refine .of_quiet (by simp [nonempty])
    (fun c member => ⟨(each c member).1, (each c member).2.1, (each c member).2.2.1⟩)
    (fun c member => (each c member).2.2.2) fun c final => ?_
  rw [List.getLast?_append_of_ne_nil _ nonempty] at final
  simpa [final] using last

theorem becomesLine_heading {name : Text} (inName : ∀ c ∈ name, isNamePart c = true) :
    BecomesLine (heading name) (heading name) := by
  rw [heading_eq_concat, List.append_assoc]
  exact becomesLine_around inName (by decide) (by decide)

/-- A closing brace on a line of its own. -/
theorem becomesLine_brace : BecomesLine ['}'] ['}'] :=
  .of_quiet (by simp) (by decide) (by decide) fun c last => by
    rw [← Option.some.inj last]
    decide

theorem Carries.becomesLine (h : Carries lines names) : ∀ line ∈ lines, BecomesLine line line := by
  induction h with
  | nil => exact List.forall_mem_nil _
  | method keyword _ ih => exact List.forall_mem_cons.mpr ⟨becomesLine_heading keyword.2, ih⟩
  | statement blanked isStatement _ ih =>
      rcases isStatement.exists_concat with ⟨a, shape, -⟩
      exact List.forall_mem_cons.mpr ⟨(blanked.becomesLine shape (by decide)).2, ih⟩
  | brace _ ih => exact List.forall_mem_cons.mpr ⟨becomesLine_brace, ih⟩

theorem Carries.terminated (h : Carries lines names) : ∀ line ∈ lines, Terminated line := by
  induction h with
  | nil => exact List.forall_mem_nil _
  | @method name _ _ keyword _ ih =>
      exact List.forall_mem_cons.mpr ⟨Or.inr ⟨_, '\x7b', heading_eq_concat name, rfl⟩, ih⟩
  | statement _ isStatement _ ih => exact List.forall_mem_cons.mpr ⟨isStatement.terminated, ih⟩
  | brace _ ih => exact List.forall_mem_cons.mpr ⟨Or.inr ⟨[], '}', rfl, rfl⟩, ih⟩

/-- A reader that passes over statements reads the headings. -/
theorem Carries.filterMap_areas {α : Type} {read : Text → Option α}
    (passes : ∀ line, IsStatementLine line → ∀ area ∈ areas line, read area = none)
    (h : Carries lines names) :
    (lines.flatMap areas).filterMap read = (names.map heading).filterMap read := by
  induction h with
  | nil => rfl
  | @method name _ _ keyword _ ih =>
      have area : areas (heading name) = [heading name] := areas_heading keyword Text.blank_nil
      rw [List.flatMap_cons, List.filterMap_append, ih, area]
      exact List.filterMap_append.symm
  | @statement _ line _ _ _ isStatement _ ih =>
      rw [List.flatMap_cons, List.filterMap_append, ih,
        List.filterMap_eq_nil_iff.mpr (passes line isStatement), List.nil_append]
  | brace _ ih => exact ih

theorem Carries.silent {α : Type} {m : Matcher α} {key : Text} {opens passes : Char → Bool}
    (statement : Lexeme.IsStatement m key opens passes) (assign : passes '=' = false)
    (absent : ∀ value ∈ presets, Text.mentions (' ' :: value) key = false)
    (h : Carries lines names) :
    ∀ line ∈ lines, ∀ behind rest, Silent m behind line rest := by
  induction h with
  | nil => exact List.forall_mem_nil _
  | @method name _ _ keyword _ ih =>
      refine List.forall_mem_cons.mpr ⟨fun behind rest => ?_, ih⟩
      have noEnd : ';' ∉ "public void ".toList ++ name ++ "() throws Exception ".toList := by
        simp only [List.mem_append, not_or]
        exact ⟨⟨by decide, fun member => absurd (keyword.2 _ member) (by decide)⟩, by decide⟩
      rw [heading_eq_concat]
      exact Lexeme.silent_through_mark statement noEnd
        (statement.marks '\x7b' (by decide)).1 (by decide)
        (by decide) behind rest
  | statement _ isStatement _ ih =>
      exact List.forall_mem_cons.mpr ⟨isStatement.silent statement assign absent, ih⟩
  | brace _ ih =>
      exact List.forall_mem_cons.mpr ⟨Lexeme.silent_of_not_word statement.opened (by decide), ih⟩

/-! ## Rendered tests -/

section Tests

variable {style : TestStyle} (usual : style.IsUsual) {target : ClassSurface}
  (named : target.IsNamed) {separator : Text}
  (isBreak : separator = ['\n'] ∨ separator = ['\r', '\n'])
include usual isBreak

/-- An annotation and the heading behind it become the heading alone. -/
theorem normalizesTo_heading (convention : Convention) {name : Text}
    (inName : ∀ c ∈ name, isNamePart c = true) :
    NormalizesTo (leadOf style separator convention ++ heading name ++ separator)
      [heading name] := by
  have line := becomesLine_heading inName
  rcases exists_scanned_leadOf usual isBreak convention with ⟨lead, scanned, isLead⟩
  rcases isLead.exists_drops with ⟨gap, blank, drops⟩
  have front := scanned.append line.scanned (Text.seam_of_cons (by decide) (by decide) _ _)
  have whole := front.append (scanned_separator isBreak) (line.seam isBreak _)
  refine Text.normalizesTo_of_drops whole (Text.getLast?_append_separator isBreak _)
    (fun t => ?_) blank
    line.tidyLines_eq
  have noSign : '@' ∉ heading name ++ ['\n'] := by
    have absent : '@' ∉ heading name := fun member => (line.plain '@' member).1 rfl
    simp [absent]
  have first := drops (headingOf name ++ ['\n'] ++ t)
  have second := Text.drops_of_not_mem noSign t
  have both : Text.Drops (lead ++ (heading name ++ ['\n'])) t (gap ++ (heading name ++ ['\n'])) :=
    Text.Drops.append (by simpa [heading] using first) second
  simpa using both

include named

/-- A body is normalized to its statements, line by line. -/
theorem exists_lines_body {test : PlannedTest} (subject : test.subject.IsNamed) :
    ∃ lines, NormalizesTo
      (joinLines separator ((style.todoComment.toList ++ bodyLines target test.subject).map
        fun line => style.indent ++ style.indent ++ line)) lines ∧
      ∀ line ∈ lines, ∃ s ∈ bodyLines target test.subject,
        Blanked s line ∧ IsStatementLine line := by
  have blank := usual.indent.append usual.indent
  have statements : ∀ body : List Text, (∀ line ∈ body, GivesStatement line) →
      ∃ lines, NormalizesTo
        (joinLines separator (body.map fun line => style.indent ++ style.indent ++ line)) lines ∧
        ∀ line ∈ lines, ∃ s ∈ body, Blanked s line ∧ IsStatementLine line := by
    intro body gives
    induction body with
    | nil => exact ⟨[], Text.normalizesTo_nil, List.forall_mem_nil _⟩
    | cons line body ih =>
        rcases gives line List.mem_cons_self with ⟨w, blanked, isStatement⟩
        rcases isStatement.exists_concat with ⟨a, shape, -⟩
        rcases ih fun other member => gives other (List.mem_cons_of_mem line member) with
          ⟨lines, rest, each⟩
        have first := (blanked.becomesLine shape (by decide)).1.normalizesTo isBreak blank
        refine ⟨w :: lines, first.append rest, List.forall_mem_cons.mpr
          ⟨⟨line, List.mem_cons_self, blanked, isStatement⟩, fun other member => ?_⟩⟩
        rcases each other member with ⟨s, inBody, gives⟩
        exact ⟨s, List.mem_cons_of_mem line inBody, gives⟩
  rcases statements _ (givesStatement_of_mem_bodyLines named subject) with ⟨lines, rest, each⟩
  cases todo : style.todoComment with
  | none => exact ⟨lines, by simpa [todo] using rest, each⟩
  | some comment =>
      rcases exists_scanned_comment isBreak blank (usual.todoComment comment todo) with
        ⟨w, scanned, blank'⟩
      have first :=
        Text.normalizesTo_of_blank scanned (Text.getLast?_append_separator isBreak _) blank'
      exact ⟨lines, by simpa [todo, joinLines] using first.append rest, each⟩

/-- A test is normalized to its heading, the lines of its body and a brace. -/
theorem exists_lines_test (convention : Convention) {test : PlannedTest}
    (subject : test.subject.IsNamed)
    (inName : ∀ c ∈ methodName style convention test, isNamePart c = true) :
    ∃ body, NormalizesTo (renderTest style target convention separator test ++ separator)
        (heading (methodName style convention test) :: (body ++ [['}']])) ∧
      ∀ line ∈ body, ∃ s ∈ bodyLines target test.subject,
        Blanked s line ∧ IsStatementLine line := by
  rcases exists_lines_body usual named isBreak subject with ⟨body, inner, each⟩
  have front := normalizesTo_heading usual isBreak convention inName
  have close := becomesLine_brace.normalizesTo isBreak usual.indent
  have empty : NormalizesTo separator [] :=
    (blank_separator isBreak).normalizesTo
      (by simpa using Text.getLast?_append_separator isBreak [])
  refine ⟨body, ?_, each⟩
  have whole := (front.append (inner.append close)).append empty
  rw [renderTest_append]
  simpa [remainderOf, heading] using whole

theorem exists_carries_test (convention : Convention) {test : PlannedTest}
    (subject : test.subject.IsNamed) (keyword : IsKeyword (methodName style convention test)) :
    ∃ lines, NormalizesTo (renderTest style target convention separator test ++ separator) lines ∧
      Carries lines [methodName style convention test] := by
  have ofStatements : ∀ body : List Text,
      (∀ line ∈ body, ∃ s, Blanked s line ∧ IsStatementLine line) →
      Carries body [] := by
    intro body each
    induction body with
    | nil => exact .nil
    | cons line body ih =>
        rcases each line List.mem_cons_self with ⟨s, blanked, isStatement⟩
        exact .statement blanked isStatement (ih fun other member =>
          each other (List.mem_cons_of_mem line member))
  rcases exists_lines_test usual named isBreak convention subject keyword.2 with
    ⟨body, normalizes, each⟩
  have carries := ofStatements body fun line member =>
    (each line member).imp fun s gives => gives.2
  exact ⟨_, normalizes, .method keyword (carries.append (.brace .nil))⟩

/-- Rendered tests carry their names. -/
theorem exists_carries_renderTests (convention : Convention) {tests : List PlannedTest}
    (subjects : ∀ test ∈ tests, test.subject.IsNamed)
    (keywords : ∀ test ∈ tests, IsKeyword (methodName style convention test)) :
    ∃ lines, NormalizesTo (renderTests style target convention separator tests) lines ∧
      Carries lines (tests.map (methodName style convention)) := by
  induction tests with
  | nil => exact ⟨[], Text.normalizesTo_nil, .nil⟩
  | cons test tests ih =>
      rcases exists_carries_test usual named isBreak convention (subjects test List.mem_cons_self)
        (keywords test List.mem_cons_self) with ⟨lines, first, carries⟩
      rcases ih (fun other member => subjects other (List.mem_cons_of_mem test member))
        (fun other member => keywords other (List.mem_cons_of_mem test member)) with
        ⟨lines', rest, carries'⟩
      refine ⟨lines ++ lines', ?_, carries.append carries'⟩
      exact first.append rest

end Tests

end TestPlan
end Testwright
