import Testwright.Proofs.Header.Upper
import Testwright.Proofs.Testing.NewSource
import Testwright.Proofs.Testing.Rewritten

namespace Testwright

/-!
# Sources as lines

A generated source is the rows of its header, the header of its class, and its tests.
Where the header of the class and the tests may be in different conventions, it is a
`sheet`: what conversion makes of the header of the class
(`TestPlan.dropBaseClass_layout`, `TestPlan.addBaseClass_layout`) and of the lines
(`TestPlan.markLines_sheet`, `TestPlan.unmarkLines_sheet`) is a sheet again.  An import
is taken out with its row (`TestPlan.exists_removeImport_layout`).
-/

open Character (isNamePart)
open Convention (IsPlain markLines marksBehind unmarkLines waitsBehind)
open Header (IsHeaderText IsImportLine Row entries isSpaceOrTab rowsText)
open Matcher (classHeader extendsBase extendsTestCase)
open TestPlan (joinLines)
open Text (Blank Unbroken)

namespace TestPlan

/-! ## Sources by lines -/

/-- A source whose class has the header of one convention and the tests of another. -/
def sheet (style : TestStyle) (convention tests : Convention) (separator : Text) (rows : List Row)
    (plan : TestPlan) : Text :=
  rowsText separator rows ++
    ((classParts convention plan).text ++ '\x7b' :: classBody style tests separator plan)

theorem layout_eq_sheet (style : TestStyle) (convention : Convention) (separator : Text)
    (rows : List Row) (plan : TestPlan) : layout style convention separator rows plan =
      sheet style convention convention separator rows plan := rfl

/-- The lines of a source up to the empty one behind the header of the class. -/
def frontLines (convention : Convention) (rows : List Row) (plan : TestPlan) : List Text :=
  rows.map Row.text ++ [classLine convention plan, []]

section Sheet

variable {style : TestStyle} {convention tests : Convention} {separator : Text}
  (isBreak : separator = ['\n'] ∨ separator = ['\r', '\n']) {rows : List Row}
  (dotted : ∀ row ∈ rows, row.IsDotted) {plan : TestPlan}

theorem sheet_eq_joinLines : sheet style convention tests separator rows plan =
    joinLines separator (frontLines convention rows plan ++
      (testsLines style plan.target tests plan.tests ++ [['}']])) := by
  simp [sheet, classBody, renderTests_eq, joinLines, frontLines, classLine, rowsText]

variable (inName : ∀ c ∈ plan.target.name, isNamePart c = true)
include dotted inName

theorem isQuietLine_of_mem_frontLines :
    ∀ line ∈ frontLines convention rows plan, IsQuietLine line := by
  intro line member
  rcases List.mem_append.mp member with inRows | inClass
  · rcases List.mem_map.mp inRows with ⟨row, inside, rfl⟩
    have header := (dotted row inside).isHeaderText
    exact fun c inLine =>
      ⟨header.ne inLine (by decide), header.ne inLine (by decide),
        (dotted row inside).unbroken c inLine⟩
  · rcases List.mem_cons.mp inClass with rfl | empty
    · have names : IsQuietLine plan.target.name := fun c inside => by
        have name := inName c inside
        refine ⟨?_, ?_, ?_, ?_⟩ <;> rintro rfl <;> exact absurd name (by decide)
      have heading : IsQuietLine (classParts convention plan).heading :=
        List.forall_mem_append.mpr ⟨by decide, List.forall_mem_append.mpr ⟨names, by decide⟩⟩
      have clauses : IsQuietLine (extendsClause convention ++ [' ']) := by
        cases convention <;> decide
      rw [classLine, classParts_text]
      exact List.forall_mem_append.mpr ⟨List.forall_mem_append.mpr ⟨heading, clauses⟩, by decide⟩
    · rw [List.mem_singleton.mp empty]
      exact List.forall_mem_nil _

theorem isPlain_of_mem_frontLines :
    ∀ line ∈ (frontLines convention rows plan).map fun line => (⟨line, separator⟩ : Line),
      IsPlain line := by
  intro line member
  rcases List.mem_map.mp member with ⟨content, inside, rfl⟩
  exact (isPassed_of_quiet (isQuietLine_of_mem_frontLines dotted inName content inside)).isPlain
    separator

end Sheet

/-! ## Lines of tests -/

/-- A line with a character that no header statement has. -/
def IsForeign (line : Text) : Prop :=
  ∃ c ∈ line, Header.isHeaderPart c = false

theorem IsForeign.append_left {line : Text} (h : IsForeign line) (gap : Text) :
    IsForeign (gap ++ line) := by
  rcases h with ⟨c, member, other⟩
  exact ⟨c, List.mem_append_right gap member, other⟩

/-- Blanks at its ends aside, a foreign line is no row of a header. -/
theorem IsForeign.trim_ne {line : Text} (h : IsForeign line) {t : Text} (header : IsHeaderText t) :
    Text.trim line ≠ t := by
  rintro rfl
  rcases h with ⟨c, member, other⟩
  rcases Text.exists_surround line with ⟨gap, gap', blank, blank', -, whole⟩
  have notBlank : ∀ {u : Text}, Blank u → c ∉ u := fun blank inside => by
    rw [Header.isHeaderPart_of_isBlank (blank c inside)] at other
    cases other
  rw [whole] at member
  rcases List.mem_append.mp member with first | member
  · exact notBlank blank first
  · rcases List.mem_append.mp member with inside | last
    · exact header.ne inside other rfl
    · exact notBlank blank' last

theorem isForeign_of_acts {line : Text} (acts : Acts line) : IsForeign line := by
  rcases acts with ⟨a, b, rfl, -⟩ | ⟨w, b, rfl, -⟩
  · exact ⟨'=', by simp, by decide⟩
  · exact ⟨'(', by simp, by decide⟩

/-! ## Styles that conversion undoes -/

end TestPlan

/-- The style breaks lines in one of the two ways, indents with spaces and tabs, names
tests as the preset styles do, and begins a body with their comment or with none. -/
structure TestStyle.IsPreset (style : TestStyle) : Prop where
  lineSeparator : style.lineSeparator = ['\n'] ∨ style.lineSeparator = ['\r', '\n']
  indent : ∀ c ∈ style.indent, isSpaceOrTab c = true
  legacyPrefix : style.legacyPrefix = "test_".toList
  parametersMark : style.parametersMark = "_A".toList
  tokenMark : style.tokenMark = ['$']
  todoComment : style.todoComment = none ∨ style.todoComment = TestStyle.modern.todoComment

namespace TestStyle.IsPreset

variable {style : TestStyle} (preset : style.IsPreset)
include preset

/-- What holds of the comment of the preset styles holds of every first line. -/
theorem forall_todoComment {P : Text → Prop}
    (h : P "// TODO auto-generated by testscribe.".toList) :
    ∀ line, style.todoComment = some line → P line := by
  intro line same
  rcases preset.todoComment with none | usual
  · rw [none] at same
    cases same
  · rw [usual] at same
    rwa [← Option.some.inj same]

theorem isUsual : style.IsUsual where
  lineSeparator := preset.lineSeparator
  indent := fun c member => Header.isBlank_of_isSpaceOrTab (preset.indent c member)
  legacyPrefix := by
    rw [preset.legacyPrefix]
    decide
  parametersMark := by
    rw [preset.parametersMark]
    decide
  tokenMark := by
    rw [preset.tokenMark]
    decide
  todoComment := preset.forall_todoComment
    ⟨" TODO auto-generated by testscribe.".toList, by decide, by decide, by decide⟩

end TestStyle.IsPreset

namespace TestPlan

theorem name_ne_nil_of_mem_tests {style : TestStyle} {target : ClassSurface}
    (methods : ∀ method ∈ target.methods, method.name ≠ []) :
    ∀ test ∈ (ofSurface style target).tests, test.name ≠ [] := by
  have nameWith_ : ∀ (token : TypeTree → Text) (method : Method),
      method.name ≠ [] → nameWith style token method ≠ [] := by
    intro token method nonempty
    rw [nameWith]
    split <;> simp [nonempty]
  intro test member
  rcases name_of_mem_tests member with name | name | ⟨method, inside, name | name⟩ <;> rw [name]
  · decide
  · decide
  · exact nameWith_ _ method (methods method inside)
  · exact nameWith_ _ method (methods method inside)

theorem isPlain_of_mem_closing {separator : Text} :
    ∀ line ∈ [(⟨['}'], separator⟩ : Line)], IsPlain line := by
  intro line member
  rw [List.mem_singleton.mp member]
  have quiet : IsQuietLine ['}'] := by decide
  exact (isPassed_of_quiet quiet).isPlain separator

section Preset

variable {style : TestStyle} (preset : style.IsPreset) {target : ClassSurface}
  (named : target.IsNamed)
include preset named

/-- The lines of tests break no line, and are no rows of a header. -/
theorem unbroken_and_isForeign_of_mem_testLines {test : PlannedTest}
    (subject : test.subject.IsNamed) (inName : ∀ c ∈ test.name, isNamePart c = true)
    (convention : Convention) :
    ∀ line ∈ testLines style target convention test, Unbroken line ∧ IsForeign line := by
  have inner : ∀ line ∈ innerLines style target test, Unbroken line ∧ IsForeign line := by
    intro line member
    have passed :=
      isPassed_of_mem_innerLines preset.indent (preset.forall_todoComment (by decide)) named subject
    refine ⟨(passed line member).unbroken, ?_⟩
    rcases List.mem_append.mp member with inBody | closing
    · rcases List.mem_map.mp inBody with ⟨content, inContents, rfl⟩
      apply IsForeign.append_left
      rcases List.mem_append.mp inContents with todo | body
      · exact preset.forall_todoComment ⟨'/', by decide, by decide⟩ content
          (Option.mem_toList.mp todo)
      · exact isForeign_of_acts (acts_of_mem_bodyLines named subject content body)
    · rw [List.mem_singleton.mp closing]
      exact ⟨'\x7d', by simp, by decide⟩
  have unbrokenIndent : Unbroken style.indent :=
    fun c member => (isQuiet_indent preset.indent c member).2.2
  have heading : ∀ name : Text, (∀ c ∈ name, isNamePart c = true) →
      Unbroken (headingLine style name) ∧ IsForeign (headingLine style name) := by
    intro name inside
    have unbrokenName : Unbroken name := fun c member => by
      refine ⟨?_, ?_⟩ <;> rintro rfl <;> exact absurd (inside _ member) (by decide)
    exact ⟨((unbrokenIndent.append (by decide)).append unbrokenName).append (by decide), '\x7b',
      by simp [headingLine], by decide⟩
  cases convention with
  | legacy =>
      rw [testLines_legacy]
      exact List.forall_mem_cons.mpr
        ⟨heading _ (List.forall_mem_append.mpr ⟨preset.isUsual.legacyPrefix, inName⟩), inner⟩
  | modern =>
      rw [testLines_modern]
      refine List.forall_mem_cons.mpr
        ⟨⟨unbrokenIndent.append (by decide), '@', by simp [markLineOf], by decide⟩,
        List.forall_mem_cons.mpr ⟨heading _ inName, inner⟩⟩

variable {separator : Text} (isBreak : separator = ['\n'] ∨ separator = ['\r', '\n'])
  {rows : List Row} (dotted : ∀ row ∈ rows, row.IsDotted)

theorem unbroken_and_trim_ne_of_mem_testsLines (convention : Convention) :
    ∀ line ∈ testsLines style target convention (ofSurface style target).tests,
      Unbroken line ∧ ∀ {wanted : Text}, wanted ≠ [] → IsHeaderText wanted →
      Text.trim line ≠ wanted := by
  intro line member
  rcases List.mem_flatMap.mp member with ⟨test, inTests, inside⟩
  rcases List.mem_append.mp inside with inTest | empty
  · have parts :=
      unbroken_and_isForeign_of_mem_testLines preset named (subject_isNamed named test inTests)
      (isNamePart_of_mem_tests preset.isUsual named test inTests) convention line inTest
    exact ⟨parts.1, fun _ => parts.2.trim_ne⟩
  · rw [List.mem_singleton.mp empty]
    exact ⟨List.forall_mem_nil _, fun some _ same => some same.symm⟩

include dotted in
theorem unbroken_of_mem_lines (convention tests : Convention) :
    ∀ line ∈ frontLines convention rows (ofSurface style target) ++
      (testsLines style target tests (ofSurface style target).tests ++ [['}']]), Unbroken line := by
  intro line member
  rcases List.mem_append.mp member with front | behind
  · exact fun c inside => (isQuietLine_of_mem_frontLines dotted named.name line front c inside).2.2
  · rcases List.mem_append.mp behind with inTests | closing
    · exact (unbroken_and_trim_ne_of_mem_testsLines preset named tests line inTests).1
    · rw [List.mem_singleton.mp closing]
      decide

include isBreak dotted

/-- The lines of a source. -/
theorem ofText_sheet (convention tests : Convention) :
    Line.ofText (sheet style convention tests separator rows (ofSurface style target)) =
      ((frontLines convention rows (ofSurface style target)).map fun line => ⟨line, separator⟩) ++
        (((testsLines style target tests (ofSurface style target).tests).map fun line =>
          ⟨line, separator⟩) ++
          [⟨['}'], separator⟩]) := by
  have lines :=
    Line.ofText_joinLines isBreak (unbroken_of_mem_lines preset named dotted convention tests)
  rw [List.map_append, List.map_append] at lines
  rw [sheet_eq_joinLines]
  exact lines

theorem lineSeparator_sheet (convention tests : Convention) (fallback : Text) :
    Text.lineSeparator (sheet style convention tests separator rows (ofSurface style target))
      fallback = separator := by
  rw [sheet_eq_joinLines]
  exact Text.lineSeparator_joinLines isBreak
    (unbroken_of_mem_lines preset named dotted convention tests)
    (List.append_ne_nil_of_right_ne_nil
      _ (List.append_ne_nil_of_right_ne_nil _ (List.cons_ne_nil ['}'] []))) fallback

variable (methods : ∀ method ∈ target.methods, method.name ≠ [])
include methods

/-- Marking turns legacy tests into modern ones. -/
theorem markLines_sheet (convention : Convention) : markLines style.legacyPrefix separator false
    (Line.ofText (sheet style convention .legacy separator rows (ofSurface style target))) =
      sheet style convention .modern separator rows (ofSurface style target) := by
  have plain : ∀ line ∈ (frontLines convention rows (ofSurface style target)).map fun line =>
      (⟨line, separator⟩ : Line), IsPlain line := isPlain_of_mem_frontLines dotted named.name
  have front := Convention.marksBehind_eq_false fun line member => (plain line member).unmarked
  rw [ofText_sheet preset named isBreak dotted, Convention.markLines_append,
    Convention.markLines_of_plain plain, front,
    markLines_tests preset.indent (preset.forall_todoComment (by decide)) named
      (subject_isNamed named)
      (name_ne_nil_of_mem_tests methods) (isNamePart_of_mem_tests preset.isUsual named)
        preset.isUsual.legacyPrefix,
    Convention.markLines_of_plain isPlain_of_mem_closing, Line.texts_map, sheet_eq_joinLines]
  simp only [joinLines, List.flatMap_append]
  rfl

/-- Taking the marks out turns modern tests into legacy ones. -/
theorem unmarkLines_sheet
    (others : ∀ test ∈ (ofSurface style target).tests, ¬ style.legacyPrefix <+: test.name)
    (convention : Convention) : unmarkLines style.legacyPrefix false
      (Line.ofText (sheet style convention .modern separator rows (ofSurface style target))) =
        sheet style convention .legacy separator rows (ofSurface style target) := by
  have plain : ∀ line ∈ (frontLines convention rows (ofSurface style target)).map fun line =>
      (⟨line, separator⟩ : Line), IsPlain line := isPlain_of_mem_frontLines dotted named.name
  have front : unmarkLines style.legacyPrefix false
      ((frontLines convention rows (ofSurface style target)).map fun line => ⟨line, separator⟩) =
        _ ∧ _ :=
    Convention.unmarkLines_of_unmarked fun line member => (plain line member).unmarked
  have closing : unmarkLines style.legacyPrefix false [(⟨['}'], separator⟩ : Line)] = _ ∧ _ :=
    Convention.unmarkLines_of_unmarked fun line member =>
      (isPlain_of_mem_closing line member).unmarked
  rw [ofText_sheet preset named isBreak dotted, Convention.unmarkLines_append, front.1, front.2,
    unmarkLines_tests preset.indent (preset.forall_todoComment (by decide)) named
      (subject_isNamed named)
      (name_ne_nil_of_mem_tests methods) (isNamePart_of_mem_tests preset.isUsual named) others,
    closing.1, Line.texts_map, sheet_eq_joinLines]
  simp only [joinLines, List.flatMap_append]
  rfl

end Preset

/-! ## The header of the class -/

theorem dropBaseClass_eq {header : ClassHeader} {clause : Stretch}
    (found : extendsTestCase.find? header.clauses.text = some clause) :
    Convention.dropBaseClass header =
      header.clauses.before ++ clause.before ++ clause.after ++ header.clauses.after := by
  rw [Convention.dropBaseClass, found]

section Header

variable (style : TestStyle) {separator : Text}
  (isBreak : separator = ['\n'] ∨ separator = ['\r', '\n']) {rows : List Row}
  (dotted : ∀ row ∈ rows, row.IsDotted) (plan : TestPlan)
  (inName : ∀ c ∈ plan.target.name, isNamePart c = true)
include isBreak dotted inName

/-- Without its base class, a legacy class has the header of a modern one. -/
theorem dropBaseClass_layout : ∃ header,
    classHeader.find? (layout style .legacy separator rows plan) = some header ∧
      Convention.dropBaseClass header = sheet style .modern .legacy separator rows plan := by
  refine ⟨_, find?_layout isBreak dotted inName, ?_⟩
  have found : (extendsTestCase.find? (extendsClause .legacy ++ [' '])).map
      (fun clause => (clause.before, clause.after)) = some ([], [' ']) := by
    decide +kernel
  rcases Option.map_eq_some_iff.mp found with ⟨clause, read, parts⟩
  rcases Prod.mk.inj parts with ⟨before, after⟩
  have read' :
      extendsTestCase.find?
        ((classParts .legacy plan).header ((rowsText separator rows).reverse ++ [])
      (classBody style .legacy separator plan)).clauses.text = some clause := by
    rw [ClassHeader.Parts.header_clauses_text]
    exact read
  rw [dropBaseClass_eq read', before, after, ClassHeader.Parts.header_clauses_before,
    ClassHeader.Parts.header_clauses_after, sheet, classParts_text]
  change ((rowsText separator rows).reverse ++ []).reverse ++
    ([] ++ ((classParts .modern plan).heading ++ [])) ++
    [] ++ [' '] ++ '\x7b' :: classBody style .legacy separator plan = rowsText separator rows ++
      ((classParts .modern plan).heading ++ ([] ++ [' ']) ++
        '\x7b' :: classBody style .legacy separator plan)
  simp only [List.append_nil, List.nil_append, List.reverse_reverse, List.append_assoc]

/-- With a base class, a modern class has the header of a legacy one. -/
theorem addBaseClass_layout : ∃ header,
    classHeader.find? (layout style .modern separator rows plan) = some header ∧
      extendsBase.find? header.clauses.text = none ∧
      Convention.addBaseClass header = sheet style .legacy .modern separator rows plan := by
  refine ⟨_, find?_layout isBreak dotted inName, ?_, ?_⟩
  · have none : (extendsBase.find? (extendsClause .modern ++ [' '])).isNone = true := by
      decide +kernel
    rw [ClassHeader.Parts.header_clauses_text]
    exact Option.isNone_iff_eq_none.mp none
  · rw [Convention.addBaseClass, ClassHeader.Parts.header_declaration_before,
      ClassHeader.Parts.header_declaration_text, ClassHeader.Parts.header_declaration_after, sheet,
      classParts_text]
    change ((rowsText separator rows).reverse ++ []).reverse ++ [] ++
      ((classParts .legacy plan).heading ++ []) ++
      extendsClause .legacy ++ ([' '] ++ '\x7b' :: classBody style .modern separator plan) =
        rowsText separator rows ++
          ((classParts .legacy plan).heading ++ (extendsClause .legacy ++ [' ']) ++
          '\x7b' :: classBody style .modern separator plan)
    simp only [List.append_nil, List.reverse_reverse, List.append_assoc]

end Header

/-! ## Imports that are taken out -/

section Rows

variable {style : TestStyle} (preset : style.IsPreset) {target : ClassSurface}
  (named : target.IsNamed) {separator : Text}
  (isBreak : separator = ['\n'] ∨ separator = ['\r', '\n']) {rows : List Row}
  (dotted : ∀ row ∈ rows, row.IsDotted)
include preset named isBreak dotted

/-- An import is taken out of a source with its row, and leaves the class as it is. -/
theorem exists_removeImport_layout (convention : Convention) {line : Text}
    (isImport : IsImportLine line) :
    ∃ rows' : List Row, rows'.Sublist rows ∧
      rows'.filterMap Row.entry? = (rows.filterMap Row.entry?).filter (· != (true, line)) ∧
      Header.removeImport (layout style convention separator rows (ofSurface style target)) line =
        layout style convention separator rows' (ofSurface style target) := by
  have row : (Row.imported line).IsDotted := isImport
  have header_ : IsHeaderText line := row.isHeaderText
  have some : line ≠ [] := by
    rcases isImport with ⟨form, -, rfl⟩
    exact List.append_ne_nil_of_right_ne_nil _ (List.cons_ne_nil ';' [])
  have brace : '\x7b' ∈ classLine convention (ofSurface style target) :=
    List.mem_append_right _ List.mem_cons_self
  have lines : Line.ofText ((classParts convention (ofSurface style target)).text ++ '\x7b' ::
      classBody style convention separator (ofSurface style target)) =
        ⟨classLine convention (ofSurface style target), separator⟩ :: ⟨[], separator⟩ ::
          (((testsLines style target convention (ofSurface style target).tests).map fun line =>
            ⟨line, separator⟩) ++
            [⟨['}'], separator⟩]) :=
    have noRow : ∀ row ∈ ([] : List Row), row.IsDotted := List.forall_mem_nil _
    ofText_sheet preset named isBreak noRow convention convention
  refine Header.exists_removeImport_rowsText isBreak dotted isImport lines ?_ ?_ ?_
  · refine Bool.eq_false_iff.mpr fun blank => ?_
    exact absurd (List.all_eq_true.mp blank '\x7b' brace) (by decide)
  · intro other member
    rcases List.mem_cons.mp member with rfl | member
    · exact IsForeign.trim_ne ⟨'\x7b', brace, by decide⟩ header_
    rcases List.mem_cons.mp member with rfl | member
    · exact some.symm
    rcases List.mem_append.mp member with inTests | closing
    · rcases List.mem_map.mp inTests with ⟨content, inside, rfl⟩
      exact (unbroken_and_trim_ne_of_mem_testsLines preset named convention content inside).2
        some header_
    · rw [List.mem_singleton.mp closing]
      exact IsForeign.trim_ne ⟨'\x7d', List.mem_cons_self, by decide⟩ header_
  · rw [header_class named.name, entries,
      Header.entriesFrom_eq_nil (semicolon_not_mem_classParts named.name)]

end Rows

end TestPlan
end Testwright
