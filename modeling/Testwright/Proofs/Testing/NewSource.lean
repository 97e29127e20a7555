import Testwright.Proofs.Convention.BaseClass
import Testwright.Proofs.Testing.Imported
import Testwright.TestSource

namespace Testwright
namespace TestPlan

/-!
# New test sources

A new source is a preamble of header rows (`preamble`), the header of its class and
the tests (`render_eq`).  No class header begins in the preamble, so the class is the
one of the plan, and it extends the base class in the legacy convention alone; the
statements are the package and the imports of the convention and of the target; and
every test of the plan is declared.
-/

open Character (isBlank isNamePart)
open Header (IsHeaderText IsImportLine Row entries isHeaderPart rowsText)
open Matcher (classHeader)
open Text (Blank StandsFree bare)

/-- Imports and an empty line, if there are imports. -/
def importRows (imports : List Text) : List Row :=
  if imports.isEmpty then [] else imports.map Row.imported ++ [Row.blank]

/-- The package statement and an empty line, if there is a package. -/
def packageRows : Option Text → List Row
  | some name => [Row.package name, Row.blank]
  | none => []

/-- What stands in front of the class of a new source. -/
def preamble (convention : Convention) (target : ClassSurface) : List Row :=
  packageRows target.package ++
    (importRows convention.imports ++ importRows (targetImports target convention))

/-- The header of the class of a new source. -/
def classParts (convention : Convention) (plan : TestPlan) : ClassHeader.Parts where
  lead := []
  heading := "public class ".toList ++ plan.className
  angles := []
  clauses := extendsClause convention ++ [' ']

/-- The line of the header of the class. -/
def classLine (convention : Convention) (plan : TestPlan) : Text :=
  (classParts convention plan).text ++ ['\x7b']

/-- The class of a test source behind its opening brace. -/
def classBody (style : TestStyle) (convention : Convention) (separator : Text) (plan : TestPlan) :
    Text :=
  separator ++ separator ++
    (renderTests style plan.target convention separator plan.tests ++ '}' :: separator)

theorem rowsText_importRows (separator : Text) (imports : List Text) :
    rowsText separator (importRows imports) =
      if imports.isEmpty then [] else joinLines separator imports ++ separator := by
  rw [importRows]
  split
  · rfl
  · rw [Header.rowsText_append, Header.rowsText_imported]
    simp [rowsText, joinLines, Row.text]

theorem rowsText_packageRows (separator : Text) (package : Option Text) :
    rowsText separator (packageRows package) = match package with
      | some name => "package ".toList ++ name ++ ";".toList ++ separator ++ separator
      | none => [] := by
  cases package with
  | none => rfl
  | some name =>
      change Header.packageLine name ++ separator ++ (separator ++ []) =
        Header.packageLine name ++ separator ++ separator
      rw [List.append_nil]

theorem render_eq (style : TestStyle) (convention : Convention) (plan : TestPlan) :
    render style convention plan = rowsText style.lineSeparator (preamble convention plan.target) ++
      ((classParts convention plan).text ++
        '\x7b' :: classBody style convention style.lineSeparator plan) := by
  have brace : " \x7b".toList = [' ', '\x7b'] := by decide
  have some : convention.imports.isEmpty = false := by cases convention <;> rfl
  rw [preamble, Header.rowsText_append, Header.rowsText_append, rowsText_importRows,
    rowsText_importRows, rowsText_packageRows, some]
  unfold render classParts classBody ClassHeader.Parts.text
  rw [brace]
  generalize "public class ".toList = word
  cases plan.target.package <;>
    simp only [List.append_assoc, List.nil_append, List.cons_append, Bool.false_eq_true, if_false]

/-! ## Sources laid out in rows -/

/-- Header rows, the header of the class of the plan and its tests. -/
def layout (style : TestStyle) (convention : Convention) (separator : Text) (rows : List Row)
    (plan : TestPlan) :
    Text :=
  rowsText separator rows ++
    ((classParts convention plan).text ++ '\x7b' :: classBody style convention separator plan)

theorem classParts_text (convention : Convention) (plan : TestPlan) :
    (classParts convention plan).text =
    (classParts convention plan).heading ++ (extendsClause convention ++ [' ']) := rfl

theorem isClassHeading_heading {convention : Convention} {plan : TestPlan}
    (inName : ∀ c ∈ plan.target.name, isNamePart c = true) :
    Matcher.IsClassHeading (classParts convention plan).heading := by
  refine ⟨"public class ".toList, plan.className, rfl, ?_, by simp [className], ?_⟩
  · refine ⟨"public ".toList, [' '], by decide, ⟨["public ".toList], by decide, ?_⟩,
      by decide, by decide⟩
    intro r member
    rcases List.mem_singleton.mp member with rfl
    exact ⟨"public".toList, [' '], by decide, by decide, by decide, by decide⟩
  · exact List.forall_mem_append.mpr ⟨inName, by decide⟩

theorem isHeaderText_classParts {convention : Convention} {plan : TestPlan}
    (inName : ∀ c ∈ plan.target.name, isNamePart c = true) :
    IsHeaderText (classParts convention plan).text := by
  rw [classParts_text]
  refine List.forall_mem_append.mpr ⟨fun c member => ?_, by cases convention <;> decide⟩
  rcases Matcher.isNamePart_or_isBlank (isClassHeading_heading inName) c member with name | blank
  · simp [isHeaderPart, HeaderStatement.isWordingPart_of_isNamePart name]
  · exact Header.isHeaderPart_of_isBlank blank

theorem classParts_fits {convention : Convention} {plan : TestPlan}
    (inName : ∀ c ∈ plan.target.name, isNamePart c = true) {behind : Text}
    (begins : Matcher.BeginsLine behind) :
    (classParts convention plan).Fits behind where
  lead := Or.inl ⟨begins, by simp [classParts]⟩
  heading := isClassHeading_heading inName
  stops := by
    have stopped : Matcher.Stops isNamePart (extendsClause convention ++ [' ']) := by
      cases convention
      · exact (by decide : isNamePart ' ' = false)
      · exact (by decide : isNamePart ' ' = false)
    exact stopped
  clauses := by
    refine Or.inr ⟨rfl, fun gap inner rest _ same => ?_⟩
    have absent : '<' ∉ extendsClause convention ++ [' '] := by cases convention <;> decide
    exact absent (by rw [show extendsClause convention ++ [' '] = _ from same]; simp)
  noBrace := by
    have absent : '\x7b' ∉ extendsClause convention ++ [' '] := by cases convention <;> decide
    exact absent

theorem semicolon_not_mem_classParts {convention : Convention} {plan : TestPlan}
    (inName : ∀ c ∈ plan.target.name, isNamePart c = true) :
    ';' ∉ (classParts convention plan).text := by
  rw [classParts_text]
  intro member
  rcases List.mem_append.mp member with inHeading | inClauses
  · rcases Matcher.isNamePart_or_isBlank (isClassHeading_heading inName) _ inHeading with
      name | blank
    · exact absurd name (by decide)
    · exact absurd blank (by decide)
  · have absent : ';' ∉ extendsClause convention ++ [' '] := by cases convention <;> decide
    exact absent inClauses

/-- The header of a class ends at its brace. -/
theorem header_class {convention : Convention} {plan : TestPlan}
    (inName : ∀ c ∈ plan.target.name, isNamePart c = true) (body : Text) :
    HeaderStatement.header ((classParts convention plan).text ++ '\x7b' :: body) =
      (classParts convention plan).text := by
  have fits : (classParts convention plan).Fits [] :=
    classParts_fits inName fun c head => by cases head
  rw [HeaderStatement.header_append (ClassHeader.noBrace_text fits)]
  simp [HeaderStatement.header, Text.before]

/-- Whatever rows are, they end a line or are none. -/
theorem beginsLine_rowsText {separator : Text}
    (isBreak : separator = ['\n'] ∨ separator = ['\r', '\n']) (rows : List Row) :
    Matcher.BeginsLine ((rowsText separator rows).reverse ++ []) := by
  by_cases none : rows = []
  · rw [none]
    intro c head
    cases head
  · exact ClassHeader.beginsLine_of_last (Header.getLast?_rowsText isBreak none) []

theorem occursIn_clauses (convention : Convention) :
    Matcher.extendsTestCase.occursIn (extendsClause convention ++ [' ']) =
      decide (convention = .legacy) := by
  rw [Bool.eq_iff_iff, Matcher.occursIn_extendsTestCase_iff, decide_eq_true_iff]
  cases convention with
  | legacy =>
      refine iff_of_true ⟨[' '], "extends TestCase".toList, [' '], by decide,
        ?_, by decide, by decide⟩ rfl
      exact ⟨[' '], [], by decide, by decide, by decide, Or.inl rfl⟩
  | modern =>
      refine iff_of_false ?_ (by decide)
      rintro ⟨x, s, y, whole, isClause, -, -⟩
      rcases isClause.exists_ends with ⟨⟨r, rfl⟩, -⟩
      have member : 'e' ∈ extendsClause .modern ++ [' '] := by rw [whole]; simp
      exact absurd member (by decide)

section Layout

variable {style : TestStyle} {convention : Convention} {separator : Text}
  (isBreak : separator = ['\n'] ∨ separator = ['\r', '\n']) {rows : List Row}
  (dotted : ∀ row ∈ rows, row.IsDotted) {plan : TestPlan}
  (inName : ∀ c ∈ plan.target.name, isNamePart c = true)
include isBreak dotted inName

/-- The class of a source laid out in rows is the class of the plan. -/
theorem find?_layout : classHeader.find? (layout style convention separator rows plan) =
    some ((classParts convention plan).header ((rowsText separator rows).reverse ++ [])
      (classBody style convention separator plan)) := by
  have silent := ClassHeader.silent_rowsText isBreak dotted []
    ((classParts convention plan).text ++ '\x7b' :: classBody style convention separator plan)
  have fits : (classParts convention plan).Fits _ :=
    classParts_fits inName (beginsLine_rowsText isBreak rows)
  rw [layout, Matcher.find?, Matcher.findFrom_append silent]
  exact Matcher.findFrom_of_reads (fits.reads _)

theorem extendsBaseClass_layout :
    Convention.extendsBaseClass (layout style convention separator rows plan) =
    decide (convention = .legacy) := by
  rw [Convention.extendsBaseClass, find?_layout isBreak dotted inName, Option.any_some,
    ClassHeader.Parts.header_clauses_text]
  exact occursIn_clauses convention

theorem entries_layout :
    entries (HeaderStatement.header (layout style convention separator rows plan)) =
    rows.filterMap Row.entry? := by
  have blank := (Header.blank_of_isBreak isBreak).1
  have noBrace : '\x7b' ∉ rowsText separator rows := fun member =>
    (Header.isHeaderText_rowsText blank dotted).ne member (by decide) rfl
  rw [layout, HeaderStatement.header_append noBrace, header_class inName,
    Header.entries_rowsText blank dotted, entries,
    Header.entriesFrom_eq_nil (semicolon_not_mem_classParts inName), List.append_nil]

end Layout

theorem isDotted_of_mem_importRows {imports : List Text}
    (each : ∀ line ∈ imports, IsImportLine line) :
    ∀ row ∈ importRows imports, row.IsDotted := by
  rw [importRows]
  split
  · simp
  · exact List.forall_mem_append.mpr ⟨Header.isDotted_of_mem_imported each, by simp [Row.IsDotted]⟩

theorem isImportLine_of_mem_targetImports {target : ClassSurface}
    (imports : Header.HasDottedImports target) {convention : Convention} {line : Text}
    (member : line ∈ targetImports target convention) :
    IsImportLine line := by
  rcases List.mem_map.mp (List.mem_filter.mp member).1 with ⟨imported, inside, rfl⟩
  rcases imports imported inside with ⟨form, isPath, rfl⟩
  exact ⟨form, isPath, rfl⟩

theorem isDotted_of_mem_preamble {target : ClassSurface} (imports : Header.HasDottedImports target)
    (package : target.HasDottedPackage) (convention : Convention) :
    ∀ row ∈ preamble convention target, row.IsDotted := by
  have ofPackage : ∀ row ∈ packageRows target.package, row.IsDotted := by
    cases found : target.package with
    | none => simp [packageRows]
    | some name => simp [packageRows, Row.IsDotted, package name found]
  exact List.forall_mem_append.mpr ⟨ofPackage, List.forall_mem_append.mpr
    ⟨isDotted_of_mem_importRows fun _ => Header.isImportLine_of_mem_imports,
      isDotted_of_mem_importRows fun _ => isImportLine_of_mem_targetImports imports⟩⟩

theorem entries_importRows (imports : List Text) :
    (importRows imports).filterMap Row.entry? = imports.map (Prod.mk true) := by
  rw [importRows]
  split
  · simp_all
  · simp [List.filterMap_map, Function.comp_def, Row.entry?]

/-- The statements of a preamble. -/
theorem entries_preamble (convention : Convention) (target : ClassSurface) :
    (preamble convention target).filterMap Row.entry? =
      target.package.toList.map (fun name => (false, Header.packageLine name)) ++
        (convention.imports ++ targetImports target convention).map (Prod.mk true) := by
  have ofPackage : (packageRows target.package).filterMap Row.entry? =
      target.package.toList.map (fun name => (false, Header.packageLine name)) := by
    cases target.package <;> rfl
  rw [preamble, List.filterMap_append, List.filterMap_append, ofPackage, entries_importRows,
    entries_importRows, List.map_append]

/-- The imports that a class needs are in the preamble of its test source. -/
theorem entry_of_mem_neededImports {target : ClassSurface} {convention : Convention} {line : Text}
    (member : line ∈ Header.neededImports (some target) convention) :
    (true, line) ∈ (preamble convention target).filterMap Row.entry? := by
  rw [entries_preamble]
  refine List.mem_append_right _ (List.mem_map_of_mem (List.mem_append.mpr ?_))
  by_cases ofConvention : line ∈ convention.imports
  · exact Or.inl ofConvention
  · refine Or.inr (List.mem_filter.mpr ⟨(List.mem_append.mp member).resolve_right ofConvention, ?_⟩)
    simpa using ofConvention

section Convention

variable {style : TestStyle} {convention : Convention} {separator : Text}
  (isBreak : separator = ['\n'] ∨ separator = ['\r', '\n']) {rows : List Row}
  (dotted : ∀ row ∈ rows, row.IsDotted) {plan : TestPlan}
  (inName : ∀ c ∈ plan.target.name, isNamePart c = true)
include isBreak dotted inName

theorem containsImport_layout {line : Text} (isImport : IsImportLine line)
    (member : (true, line) ∈ rows.filterMap Row.entry?) :
    Header.containsImport (layout style convention separator rows plan) line = true := by
  rw [Header.containsImport_eq isImport.ofLine?_eq, entries_layout isBreak dotted inName,
    List.any_eq_true]
  exact ⟨(true, line), member, by simp⟩

/-- A source laid out in rows shows its convention, if the imports of the convention
are among the rows. -/
theorem ofSource?_layout
    (imported : ∀ line ∈ convention.imports, (true, line) ∈ rows.filterMap Row.entry?) :
    Convention.ofSource? (layout style convention separator rows plan) = some convention :=
  Convention.ofSource?_eq_of_imports (extendsBaseClass_layout isBreak dotted inName)
    fun line member =>
    containsImport_layout isBreak dotted inName (Header.isImportLine_of_mem_imports member)
      (imported line member)

end Convention

section Declared

variable {style : TestStyle} (usual : style.IsUsual) {target : ClassSurface}
  (named : target.IsNamed)
include usual named

/-- A source lacks the tests of the plan that it does not declare. -/
theorem mem_lacking_iff {source : Text} {test : PlannedTest} :
    test ∈ TestSource.lacking style target source ↔
      test ∈ (ofSurface style target).tests ∧
      ¬ Declares style.legacyPrefix test.name (bare source) := by
  rw [TestSource.lacking, lacking, List.mem_filter]
  refine and_congr_right fun member => ?_
  have inName := isNamePart_of_mem_tests usual named test member
  have declared : declares (Text.normalize source) style.legacyPrefix test = true ↔
      Declares style.legacyPrefix test.name (bare source) :=
    declares_tidyLines_iff usual.legacyPrefix inName test rfl
  rw [← declared, Bool.not_eq_true, Bool.not_eq_true']

theorem lacking_eq_nil_iff {source : Text} : TestSource.lacking style target source = [] ↔
    ∀ test ∈ (ofSurface style target).tests,
      Declares style.legacyPrefix test.name (bare source) := by
  rw [List.eq_nil_iff_forall_not_mem]
  refine forall_congr' fun test => ?_
  rw [mem_lacking_iff usual named, not_and_not_right]

variable {separator : Text} (isBreak : separator = ['\n'] ∨ separator = ['\r', '\n'])
  {rows : List Row} (dotted : ∀ row ∈ rows, row.IsDotted)
include isBreak dotted

/-- A source laid out in rows declares every test of the plan. -/
theorem lacking_layout (convention : Convention) : TestSource.lacking style target
    (layout style convention separator rows (ofSurface style target)) = [] := by
  rw [lacking_eq_nil_iff usual named]
  let head := rowsText separator rows ++ (classParts convention (ofSurface style target)).text
  let front := head ++ '\x7b' :: (separator ++ separator)
  have blank := (Header.blank_of_isBreak isBreak).1
  have isHeader : IsHeaderText head := List.forall_mem_append.mpr
    ⟨Header.isHeaderText_rowsText blank dotted, isHeaderText_classParts named.name⟩
  have isHeader' : IsHeaderText (separator ++ separator) :=
    Header.isHeaderText_of_blank (blank.append blank)
  have free : StandsFree front separator := by
    apply Text.standsFree_of_quiet
    · exact List.forall_mem_append.mpr ⟨isHeader.quiet,
        List.forall_mem_cons.mpr ⟨by decide, isHeader'.quiet⟩⟩
    · intro member
      rcases List.mem_append.mp member with inHead | inBody
      · exact isHeader.noSign inHead
      · exact isHeader'.noSign (List.mem_of_ne_of_mem (by decide) inBody)
  have ends : Text.endsWithBreak front = true := by
    apply Text.endsWithBreak_of_last
    have shape : front = (head ++ '\x7b' :: separator) ++ separator := by simp [front]
    rw [shape]
    exact Text.getLast?_append_separator isBreak _
  have declared := (declares_appended usual named isBreak convention (subject_isNamed named)
    (isNamePart_of_mem_tests usual named) free).2
  have whole : layout style convention separator rows (ofSurface style target) =
      front ++ (renderTests style target convention separator (ofSurface style target).tests ++
        '}' :: separator) := by
    simp only [layout, classBody, front, head, List.append_assoc, List.cons_append]
    rfl
  rw [if_pos ends, List.nil_append] at declared
  rw [whole]
  exact declared

end Declared

end TestPlan
end Testwright
