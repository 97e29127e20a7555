import Testwright.Proofs.Testing.Merging
import Testwright.Proofs.Testing.Naming
import Testwright.Proofs.Testing.NewSource

namespace Testwright
namespace TestSource

/-!
# Merging is complete

A merge leaves no test lacking and no import missing, keeps the convention that the
source shows, and a second merge has nothing to do (`merge_complete`).  The parts of
the source are read on their own, so the proof goes part by part: the tests that are
appended go behind the first opening brace, which settles the header; the imports that
are added settle nothing but themselves.
-/

open Character (isNamePart)
open Header (StatementsInCode addMissingImports containsImport insertBlock neededImports)
open Matcher (classHeader)
open Text (StandsFree bare)
open TestPlan (Declares joinLines)

/-- A source that a merge can keep up: it shows a convention, it has a class whose
header stands in front of the last closing brace, and neither that brace nor the
statements of the header stand in a comment or a literal.  The brace stands in no
annotation either. -/
structure IsMergeable (existing : Text) : Prop where
  shows : (Convention.ofSource? existing).isSome = true
  body : ∃ header, classHeader.find? existing = some header ∧ '}' ∈ header.clauses.after
  free : ∃ front rest, existing = front ++ '}' :: rest ∧ '}' ∉ rest ∧ StandsFree front rest
  inCode : StatementsInCode existing

/-- The header of the class, up to its brace, what follows in front of the last closing
brace, and what follows that. -/
theorem IsMergeable.exists_cut {existing : Text} (h : IsMergeable existing) :
    ∃ header front body rest, classHeader.find? existing = some header ∧
      header.clauses.after = '\x7b' :: (body ++ '}' :: rest) ∧
      existing = front ++ '\x7b' :: (body ++ '}' :: rest) ∧ '}' ∉ rest ∧
      StandsFree (front ++ '\x7b' :: body) rest := by
  rcases h.body with ⟨header, found, brace⟩
  rcases h.free with ⟨upper, rest, cut, last, free⟩
  rcases ClassHeader.exists_of_find? found with ⟨x, parts, inner, whole, -, -, rfl⟩
  rw [ClassHeader.Parts.header_clauses_after] at brace
  rcases Text.exists_last_cut (List.mem_of_ne_of_mem (by decide) brace) with
    ⟨body, rest', rfl, last'⟩
  have same : (x ++ parts.text ++ '\x7b' :: body, rest') = (upper, rest) := by
    have shape : existing = (x ++ parts.text ++ '\x7b' :: body) ++ '}' :: rest' := by
      rw [whole]
      simp
    have first := Text.cutAtLast?_append last' (x ++ parts.text ++ '\x7b' :: body)
    rw [← shape, cut, Text.cutAtLast?_append last] at first
    exact (Option.some.inj first).symm
  rcases Prod.mk.inj same with ⟨rfl, rfl⟩
  exact ⟨_, x ++ parts.text, body, rest', found, rfl, by simp [whole], last, free⟩

theorem allBlank_of_mem_brace {t : Text} (brace : '}' ∈ t) : Text.allBlank t = false := by
  rw [Bool.eq_false_iff]
  intro blank
  exact absurd (List.all_eq_true.mp blank '}' brace) (by decide)

theorem IsMergeable.visible {existing : Text} (h : IsMergeable existing) :
    Text.allBlank existing = false := by
  rcases h.free with ⟨front, rest, rfl, -, -⟩
  exact allBlank_of_mem_brace (by simp)

/-! ## A source that is up to date -/

section Settled

variable {style : TestStyle} {target : ClassSurface} {convention : Convention} {source : Text}

/-- A merge leaves a source as it is that lacks no test and no import. -/
theorem merge_eq_self (brace : '}' ∈ source) (none : lacking style target source = [])
    (shown : Convention.ofSource? source = some convention)
    (present : ∀ line ∈ neededImports (some target) convention, containsImport source line = true) :
    merge style target source = .ok source := by
  have convention' : shownConvention style source = convention := by
    rw [shownConvention, shown, Option.getD_some]
  rw [merge_of_visible (allBlank_of_mem_brace brace), convention', withLackingTests, none]
  change Except.ok (addMissingImports source target convention) = .ok source
  rw [addMissingImports, Header.missingImports_eq_nil present, Header.insertBlock_nil]

end Settled

section Complete

variable {style : TestStyle} (usual : style.IsUsual) {target : ClassSurface}
  (named : target.IsNamed)
include usual named

/-! ## New sources -/

/-- A new source is up to date. -/
theorem newIn_upToDate (package : target.HasDottedPackage) (convention : Convention) :
    lacking style target (newIn style convention target) = [] ∧
      Convention.ofSource? (newIn style convention target) = some convention ∧
      merge style target (newIn style convention target) = .ok (newIn style convention target) := by
  let plan := TestPlan.ofSurface style target
  have dotted := TestPlan.isDotted_of_mem_preamble named.imports package convention
  have whole : newIn style convention target =
      TestPlan.layout style convention style.lineSeparator
        (TestPlan.preamble convention target) plan :=
    TestPlan.render_eq style convention plan
  have present : ∀ line ∈ neededImports (some target) convention,
      containsImport (newIn style convention target) line = true := fun line member => by
    rw [whole]
    exact TestPlan.containsImport_layout usual.lineSeparator dotted named.name
      (Header.isImportLine_of_mem_neededImports named.imports member)
        (TestPlan.entry_of_mem_neededImports member)
  have none : lacking style target (newIn style convention target) = [] := by
    rw [whole]
    exact TestPlan.lacking_layout usual named usual.lineSeparator dotted convention
  have shown : Convention.ofSource? (newIn style convention target) = some convention := by
    rw [whole]
    exact TestPlan.ofSource?_layout usual.lineSeparator dotted named.name fun line member =>
      TestPlan.entry_of_mem_neededImports (List.mem_append_right _ member)
  have brace : '}' ∈ newIn style convention target := by
    rw [whole]
    simp [TestPlan.layout, TestPlan.classBody]
  exact ⟨none, shown, merge_eq_self brace none shown present⟩

/-! ## Sources that are kept up -/

/-- With its lacking tests in front of its last closing brace a source lacks none. -/
theorem lacking_appendedTests {existing front rest : Text} (cut : existing = front ++ '}' :: rest)
    (free : StandsFree front rest) (convention : Convention) :
    lacking style target
      (front ++ appendedTests style target convention existing front ++ '}' :: rest) = [] := by
  have inLacking : ∀ other, other ∈ lacking style target existing ↔ _ := fun other =>
    TestPlan.mem_lacking_iff usual named
  rw [TestPlan.lacking_eq_nil_iff usual named]
  intro test planned
  rw [appendedTests]
  cases tests : lacking style target existing with
  | nil =>
      have declared := (TestPlan.lacking_eq_nil_iff usual named).mp tests test planned
      rw [cut] at declared
      simpa using declared
  | cons first others =>
      have ofPlan : ∀ other ∈ first :: others, other ∈ (TestPlan.ofSurface style target).tests := by
        intro other member
        rw [← tests] at member
        exact ((inLacking other).mp member).1
      have kept := TestPlan.declares_appended usual named
        (Header.lineSeparator_isBreak_of usual.lineSeparator existing) convention
        (fun other member => TestPlan.subject_isNamed named other (ofPlan other member))
        (fun other member =>
          TestPlan.isNamePart_of_mem_tests usual named other (ofPlan other member)) free
      have goal : Declares style.legacyPrefix test.name (bare (front ++
          ((if Text.endsWithBreak front then []
            else Text.lineSeparator existing style.lineSeparator) ++
            (TestPlan.renderTests style target convention
              (Text.lineSeparator existing style.lineSeparator)
              (first :: others) ++ '}' :: rest)))) := by
        by_cases isLacking : test ∈ first :: others
        · exact kept.2 test isLacking
        · refine kept.1 test.name (TestPlan.isNamePart_of_mem_tests usual named test planned) ?_
          rw [← cut]
          refine Classical.byContradiction fun undeclared => isLacking ?_
          rw [← tests]
          exact (inLacking test).mpr ⟨planned, undeclared⟩
      simpa only [List.append_assoc] using goal

/-- Adding the missing imports declares no test less. -/
theorem lacking_addMissingImports {source : Text} (inCode : StatementsInCode source)
    (none : lacking style target source = []) (convention : Convention) :
    lacking style target (addMissingImports source target convention) = [] := by
  rw [TestPlan.lacking_eq_nil_iff usual named] at none ⊢
  intro test planned
  rw [addMissingImports, Header.missingImports_eq]
  have each : ∀ line ∈ (neededImports (some target) convention).filter
      (fun line => !containsImport source line), Header.IsImportLine line := fun line member =>
    Header.isImportLine_of_mem_neededImports named.imports (List.mem_of_mem_filter member)
  exact Header.declares_insertBlock (Header.lineSeparator_isBreak source) each inCode
    usual.legacyPrefix
    (TestPlan.isNamePart_of_mem_tests usual named test planned) (none test planned)

omit usual in
theorem extendsBaseClass_addMissingImports (source : Text) (convention : Convention) :
    Convention.extendsBaseClass (addMissingImports source target convention) =
      Convention.extendsBaseClass source := by
  rw [addMissingImports, Header.missingImports_eq]
  have each : ∀ line ∈ (neededImports (some target) convention).filter
      (fun line => !containsImport source line), Header.IsImportLine line := fun line member =>
    Header.isImportLine_of_mem_neededImports named.imports (List.mem_of_mem_filter member)
  exact ClassHeader.extendsBaseClass_insertBlock (Header.lineSeparator_isBreak source) each source

/-- The merge of a mergeable source is up to date, and in the convention of the source. -/
theorem exists_merge_of_isMergeable {existing : Text} (mergeable : IsMergeable existing) :
    ∃ merged, merge style target existing = .ok merged ∧ lacking style target merged = [] ∧
      Convention.ofSource? merged = Convention.ofSource? existing ∧
      merge style target merged = .ok merged := by
  rcases Option.isSome_iff_exists.mp mergeable.shows with ⟨convention, shown⟩
  rcases mergeable.exists_cut with ⟨header, front, body, rest, found, behind, cut, last, free⟩
  let upper := front ++ '\x7b' :: body
  have cut' : existing = upper ++ '}' :: rest := by simp [cut, upper]
  let appended := appendedTests style target convention existing upper
  let written := upper ++ appended ++ '}' :: rest
  let merged := addMissingImports written target convention
  have shape : written = (front ++ ['\x7b']) ++ (body ++ appended ++ '}' :: rest) := by
    simp [written, upper]
  have sameHeader : HeaderStatement.header existing = HeaderStatement.header written := by
    have shape' : existing = (front ++ ['\x7b']) ++ (body ++ '}' :: rest) := by simp [cut]
    have brace : '\x7b' ∈ front ++ ['\x7b'] := by simp
    rw [shape', shape, HeaderStatement.header_append_of_mem brace,
      HeaderStatement.header_append_of_mem brace]
  have inCode : StatementsInCode written :=
    Header.statementsInCode_congr sameHeader mergeable.inCode
  have none : lacking style target merged = [] := lacking_addMissingImports usual named inCode
    (lacking_appendedTests usual named cut' free convention) convention
  have present : ∀ line ∈ neededImports (some target) convention,
      containsImport merged line = true := fun _ =>
    Header.containsImport_addMissingImports named.imports written
  have extended : Convention.extendsBaseClass merged = decide (convention = .legacy) := by
    have congr :=
      ClassHeader.extendsBaseClass_congr found behind cut (body ++ appended ++ '}' :: rest)
    rw [extendsBaseClass_addMissingImports named, shape, List.append_assoc,
      List.singleton_append, congr]
    exact Convention.extendsBaseClass_of_ofSource? shown
  have shown' : Convention.ofSource? merged = some convention :=
    Convention.ofSource?_eq_of_imports extended fun line member =>
      present line (List.mem_append_right _ member)
  have brace : '}' ∈ merged := by
    rcases Header.exists_stretch written _ _ with ⟨before, stretch, after, parts, whole⟩
    have member : '}' ∈ before ++ after := by
      rw [← parts]
      simp [written]
    have inMerged : merged = before ++ stretch ++ after := whole
    rw [inMerged]
    simp only [List.mem_append] at member ⊢
    exact member.imp_left Or.inl
  refine ⟨merged, ?_, none, by rw [shown', shown], merge_eq_self brace none shown' present⟩
  have convention' : shownConvention style existing = convention := by
    rw [shownConvention, shown, Option.getD_some]
  rw [merge_of_visible mergeable.visible, convention', withLackingTests_of_cut cut' last]
  rfl

/-- A merge of a blank or a mergeable source gives a source that lacks no test of the
class, shows the convention of the source (that of the style for a blank one), and is
its own merge. -/
theorem merge_complete {existing : Text}
    (usable : Text.allBlank existing = true ∧ target.HasDottedPackage ∨ IsMergeable existing) :
    ∃ merged, merge style target existing = .ok merged ∧ lacking style target merged = [] ∧
      Convention.ofSource? merged =
        (if Text.allBlank existing then some style.convention else Convention.ofSource? existing) ∧
      merge style target merged = .ok merged := by
  rcases usable with ⟨blank, package⟩ | mergeable
  · rcases newIn_upToDate usual named package style.convention with ⟨none, shown, again⟩
    refine ⟨newIn style style.convention target, ?_, none, ?_, again⟩
    · rw [merge, if_pos blank]
      rfl
    · rw [if_pos blank, shown]
  · rw [if_neg (by simp [mergeable.visible])]
    exact exists_merge_of_isMergeable usual named mergeable

end Complete

/-- Where the last closing brace is an argument of an annotation, a declaration around the
annotation does not survive the tests that are put there.  A package that is no name may
open a comment. -/
theorem merge_beside_annotation :
    let front := "class T extends TestCase \x7b void @A(\x7b".toList
    let rest := ") type()".toList
    let existing := front ++ '}' :: rest
    let target := ClassSurface.named "S".toList
    let packaged := { target with package := some "/*".toList }
    let lackingNames :=
      fun surface merged => (lacking TestStyle.modern surface merged).map PlannedTest.name
    TestStyle.modern.IsUsual ∧ target.IsNamed ∧ Convention.ofSource? existing = some .legacy ∧
      (classHeader.find? existing).any (fun header => header.clauses.after.any (· == '}')) = true ∧
      '}' ∉ rest ∧ Region.after .code 0 (Text.unifyLineBreaks front) = (.code, 0) ∧
      StatementsInCode existing ∧
      (merge TestStyle.modern target existing).toOption.map (lackingNames target) =
        some ["type".toList] ∧
      packaged.IsNamed ∧ (merge TestStyle.modern packaged []).toOption.map (lackingNames packaged) =
        some ["type".toList, "instantiation".toList] := by
  intro front rest existing target packaged lackingNames
  have named : target.IsNamed := ClassSurface.isNamed_named (by decide)
  have noStatement : (HeaderStatement.ofSource existing).length = 0 := by decide +kernel
  refine ⟨TestStyle.isUsual_modern, named, by decide +kernel, by decide +kernel, by decide,
    by decide +kernel, ?_, by decide +kernel,
    ⟨named.name, named.imports, named.constructors, named.methods⟩, by decide +kernel⟩
  intro statement member
  rw [List.length_eq_zero_iff.mp noStatement] at member
  exact absurd member List.not_mem_nil

/-- The tests of a modern source whose class has one of them already. -/
theorem merge_complete_modern :
    let style := TestStyle.modern
    let target := { ClassSurface.named "S".toList with
      imports := ["java.util.*".toList]
      methods := [TestPlan.overload "at".toList [TypeTree.named "java.util.Date".toList]] }
    let upper := "package a.b;\nclass STest \x7b\n\t".toList
    let lower := " void type() \x7b \x7d\n".toList
    let existing := upper ++ ("@Test".toList ++ lower) ++ ['}']
    style.IsUsual ∧ target.IsNamed ∧
      (Text.allBlank existing = true ∧ target.HasDottedPackage ∨ IsMergeable existing) ∧
      ∃ merged, merge style target existing = .ok merged ∧ lacking style target merged = [] ∧
        Convention.ofSource? merged =
          (if Text.allBlank existing then some style.convention
            else Convention.ofSource? existing) ∧
        merge style target merged = .ok merged := by
  intro style target upper lower existing
  have usual : style.IsUsual := TestStyle.isUsual_modern
  have named : target.IsNamed := {
    name := by decide
    imports := by
      intro imported member
      rcases List.mem_singleton.mp member with rfl
      exact ⟨⟨false, "java.util".toList, true⟩, by decide, by decide⟩
    constructors := by simp [target, ClassSurface.named]
    methods := by
      intro method member
      rcases List.mem_singleton.mp member with rfl
      exact ⟨by decide, by decide, by decide, by simp [TestPlan.overload, Method.withParameters,
        Method.named]⟩ }
  have mark : Text.IsMark "@Test".toList (lower ++ ['}']) :=
    @Text.IsMark.bare [] "Test".toList _ Text.blank_nil (by decide) (by decide)
      (Matcher.stops_cons.mpr (by decide))
      (@Text.noArguments_of_visible [' '] 'v' (by decide) (by decide) (by decide) _)
  have mergeable : IsMergeable existing := {
    shows := by decide +kernel
    body := by
      have found : ((classHeader.find? existing).any fun header =>
          header.clauses.after.any (· == '}')) = true := by
        decide +kernel
      cases isFound : classHeader.find? existing with
      | none => simp [isFound] at found
      | some header => exact ⟨header, rfl, by simpa [isFound] using found⟩
    free := by
      have scanned : Region.blankOut Region.code 0
          (Text.unifyLineBreaks (upper ++ ("@Test".toList ++ lower))) =
          upper ++ ("@Test".toList ++ lower) := by decide +kernel
      refine ⟨upper ++ ("@Test".toList ++ lower), [], rfl, by simp, by decide +kernel,
        upper ++ ' ' :: lower, ?_⟩
      rw [scanned]
      exact (Text.drops_of_not_mem (by decide) _).append
        (.mark mark (Text.drops_of_not_mem (by decide) _))
    inCode := by
      have each : (HeaderStatement.ofSource existing).all
          (fun statement => decide (Region.after Region.code 0
          (Text.unifyLineBreaks (existing.take statement.start)) = (Region.code, 0))) =
            true := by decide +kernel
      exact fun statement member => of_decide_eq_true (List.all_eq_true.mp each statement member) }
  exact ⟨usual, named, Or.inr mergeable, merge_complete usual named (Or.inr mergeable)⟩

end TestSource
end Testwright
