import Testwright.Proofs.Header.Addition
import Testwright.TestSource

namespace Testwright
namespace TestSource

/-!
# What a merge leaves as it is

A merge puts the lacking tests in front of the last closing brace and the missing
imports into the header, and changes nothing else.  It is refused only where there
are tests to append and no brace to put them in front of.  Which imports are
missing is asked of the text with the tests appended; for an import that is a
statement this makes no difference, since the tests go behind the header
(`containsImport_append`).
-/

open Header (containsImport insertBlock missingImports neededImports)
open HeaderStatement (header ofLine?)
open TestPlan (joinLines renderTests)

/-! ## Tests in front of the last brace -/

/-- What is put between `front`, which the last closing brace follows, and that
brace. -/
def appendedTests (style : TestStyle) (target : ClassSurface) (convention : Convention)
    (existing front : Text) : Text :=
  let separator := Text.lineSeparator existing style.lineSeparator
  match lacking style target existing with
  | [] => []
  | test :: tests =>
      (if Text.endsWithBreak front then [] else separator) ++
        renderTests style target convention separator (test :: tests)

section Appending

variable {style : TestStyle} {target : ClassSurface} {convention : Convention} {existing : Text}

theorem renderTest_ne_nil (style : TestStyle) (target : ClassSurface) (convention : Convention)
    (separator : Text) (test : PlannedTest) :
    TestPlan.renderTest style target convention separator test ≠ [] := by
  intro none
  have closing := List.flatMap_eq_nil_iff.mp none (style.indent ++ ['}'])
    (by simp [TestPlan.testLines])
  simp at closing

theorem appendedTests_eq_nil_iff (front : Text) :
    appendedTests style target convention existing front = [] ↔
    lacking style target existing = [] := by
  rw [appendedTests]
  cases lacking style target existing with
  | nil => exact iff_of_true rfl rfl
  | cons test tests =>
      have some := renderTest_ne_nil style target convention
        (Text.lineSeparator existing style.lineSeparator) test
      simp [renderTests, some]

/-- Where the source has a closing brace, the tests go in front of the last one. -/
theorem withLackingTests_of_cut {front rest : Text} (cut : existing = front ++ '}' :: rest)
    (last : '}' ∉ rest) :
    withLackingTests style target convention existing =
      .ok (front ++ appendedTests style target convention existing front ++ '}' :: rest) := by
  have found : Text.cutAtLast? '}' existing = some (front, rest) := by
    rw [cut]
    exact Text.cutAtLast?_append last front
  rw [withLackingTests, appendedTests]
  cases lacking style target existing with
  | nil => simp [cut]
  | cons test tests => simp [Text.appendMethods, found]

theorem withLackingTests_eq_error_iff {refusal : Refusal} :
    withLackingTests style target convention existing = .error refusal ↔
      refusal = .missingClassBody ∧ lacking style target existing ≠ [] ∧ '}' ∉ existing := by
  by_cases brace : '}' ∈ existing
  · rcases Text.exists_last_cut brace with ⟨front, rest, cut, last⟩
    rw [withLackingTests_of_cut cut last]
    simp [brace]
  · rw [withLackingTests]
    cases lacking style target existing with
    | nil => simp
    | cons test tests =>
        simp [Text.appendMethods, Text.cutAtLast?_eq_none brace, brace, eq_comm]

/-- The tests are one stretch of the result. -/
theorem exists_stretch_of_withLackingTests {merged : Text}
    (h : withLackingTests style target convention existing = .ok merged) :
    ∃ a s b, existing = a ++ b ∧ merged = a ++ s ++ b := by
  by_cases brace : '}' ∈ existing
  · rcases Text.exists_last_cut brace with ⟨front, rest, cut, last⟩
    rw [withLackingTests_of_cut cut last] at h
    exact ⟨_, _, _, cut, (Except.ok.inj h).symm⟩
  · have none : lacking style target existing = [] := by
      apply Classical.byContradiction
      intro some
      rw [withLackingTests_eq_error_iff.mpr ⟨rfl, some, brace⟩] at h
      cases h
    rw [withLackingTests, none] at h
    exact ⟨existing, [], [], by simp, by simpa using (Except.ok.inj h).symm⟩

end Appending

/-! ## Two stretches -/

/-- Two insertions, wherever the second one falls, are two stretches at most. -/
theorem exists_two_stretches {existing merged result : Text}
    (first : ∃ a s b, existing = a ++ b ∧ merged = a ++ s ++ b)
    (second : ∃ a s b, merged = a ++ b ∧ result = a ++ s ++ b) :
    ∃ a s b s' c, existing = a ++ b ++ c ∧ result = a ++ s ++ b ++ s' ++ c := by
  rcases first with ⟨a, s, b, rfl, rfl⟩
  rcases second with ⟨a', s', b', same, rfl⟩
  rw [List.append_assoc] at same
  rcases List.append_eq_append_iff.mp same with ⟨x, rfl, rest⟩ | ⟨x, rfl, rfl⟩
  · rcases List.append_eq_append_iff.mp rest with ⟨y, rfl, rfl⟩ | ⟨y, rfl, rfl⟩
    · exact ⟨a, s, y, s', b', by simp, by simp⟩
    · exact ⟨a, x ++ s' ++ y, [], [], b, by simp, by simp⟩
  · exact ⟨a', s', x, s, b, by simp, by simp⟩

/-! ## The merge -/

theorem containsImport_append {front : Text} (brace : '\x7b' ∈ front) {line : Text}
    (isStatement : (ofLine? line).isSome = true) (t t' : Text) :
    containsImport (front ++ t) line = containsImport (front ++ t') line := by
  rcases Option.isSome_iff_exists.mp isStatement with ⟨wanted, words⟩
  rw [Header.containsImport_eq words, Header.containsImport_eq words,
    HeaderStatement.header_append_of_mem brace, HeaderStatement.header_append_of_mem brace]

/-- The convention that a merge follows. -/
def shownConvention (style : TestStyle) (existing : Text) : Convention :=
  (Convention.ofSource? existing).getD style.convention

section Merge

variable {style : TestStyle} {target : ClassSurface} {existing : Text}
  (visible : Text.allBlank existing = false)
include visible

theorem merge_of_visible :
    merge style target existing =
      (withLackingTests style target (shownConvention style existing) existing).map fun merged =>
        Header.addMissingImports merged target (shownConvention style existing) := by
  rw [merge, if_neg (by simp [visible]), shownConvention]
  dsimp only
  cases withLackingTests style target ((Convention.ofSource? existing).getD style.convention)
    existing <;>
    rfl

theorem merge_eq_error_iff {refusal : Refusal} :
    merge style target existing = .error refusal ↔
      refusal = .missingClassBody ∧ lacking style target existing ≠ [] ∧ '}' ∉ existing := by
  have appending : withLackingTests style target (shownConvention style existing) existing =
      .error refusal ↔ _ := withLackingTests_eq_error_iff
  rw [merge_of_visible visible, ← appending]
  cases withLackingTests style target (shownConvention style existing) existing <;>
    simp [Except.map]

/-- The source is what remains of the result without two stretches. -/
theorem exists_stretches_of_merge {result : Text} (h : merge style target existing = .ok result) :
    ∃ a s b s' c, existing = a ++ b ++ c ∧ result = a ++ s ++ b ++ s' ++ c := by
  rw [merge_of_visible visible] at h
  cases appending : withLackingTests style target (shownConvention style existing) existing with
  | error refusal =>
      rw [appending] at h
      cases h
  | ok merged =>
      rw [appending] at h
      rw [← Except.ok.inj h]
      exact exists_two_stretches (exists_stretch_of_withLackingTests appending)
        (Header.exists_stretch merged _ _)

end Merge

/-- A merge is refused exactly if there are tests to append and no closing brace,
and else takes nothing from the source.  Where the last closing brace stands
behind an opening one, the missing imports go in front of the first opening brace
and the lacking tests in front of the last closing one, each set off by line
breaks. -/
theorem merge_frame (style : TestStyle) (target : ClassSurface) {existing : Text}
    (visible : Text.allBlank existing = false) :
    (∀ refusal, merge style target existing = .error refusal ↔
      refusal = .missingClassBody ∧ lacking style target existing ≠ [] ∧ '}' ∉ existing) ∧
    (∀ result, merge style target existing = .ok result →
      ∃ a s b s' c, existing = a ++ b ++ c ∧ result = a ++ s ++ b ++ s' ++ c) ∧
    ∀ front rest, existing = front ++ '}' :: rest → '}' ∉ rest → '\x7b' ∈ front →
      let convention := shownConvention style existing
      let tests := lacking style target existing
      let separator := Text.lineSeparator existing style.lineSeparator
      ∃ a b imports appended, front = a ++ b ∧ '\x7b' ∉ a ∧
        merge style target existing = .ok (a ++ imports ++ b ++ appended ++ '}' :: rest) ∧
        (appended = [] ↔ tests = []) ∧
        (tests ≠ [] → appended = (if Text.endsWithBreak front then [] else separator) ++
          renderTests style target convention separator tests) ∧
        let merged := front ++ appended ++ '}' :: rest
        let missing := (neededImports (some target) convention).filter fun line =>
          !containsImport merged line
        let separator' := Text.lineSeparator merged ['\n']
        (imports = [] ↔ missing = []) ∧
        (missing ≠ [] → ∃ lead trail n, imports = lead ++ joinLines separator' missing ++ trail ∧
          lead ++ trail = (List.replicate n separator').flatten ∧ n ≤ 2) ∧
        ∀ line, (ofLine? line).isSome = true →
          containsImport merged line = containsImport existing line := by
  refine ⟨fun refusal => merge_eq_error_iff visible,
    fun result => exists_stretches_of_merge visible, ?_⟩
  intro front rest cut last brace convention tests separator
  let appended := appendedTests style target convention existing front
  have whole : merge style target existing =
      .ok (Header.addMissingImports (front ++ appended ++ '}' :: rest) target convention) := by
    rw [merge_of_visible visible, withLackingTests_of_cut cut last]
    rfl
  have ofTests : tests ≠ [] → appended = (if Text.endsWithBreak front then [] else separator) ++
      renderTests style target convention separator tests := by
    intro some
    rcases List.exists_cons_of_ne_nil some with ⟨test, others, found⟩
    have found : lacking style target existing = test :: others := found
    simp only [appended, appendedTests, tests, found]
    rfl
  have same : ∀ line, (ofLine? line).isSome = true →
      containsImport (front ++ appended ++ '}' :: rest) line = containsImport existing line := by
    intro line isStatement
    rw [cut, List.append_assoc]
    exact containsImport_append brace isStatement _ _
  let merged := front ++ appended ++ '}' :: rest
  let missing :=
    (neededImports (some target) convention).filter fun line => !containsImport merged line
  let separator' := Text.lineSeparator merged ['\n']
  have added : Header.addMissingImports merged target convention =
      insertBlock merged (joinLines separator' missing) separator' := by
    rw [Header.addMissingImports, Header.missingImports_eq]
  have nonempty : separator' ≠ [] :=
    (Header.blank_of_isBreak (Header.lineSeparator_isBreak merged)).2
  by_cases none : missing = []
  · refine ⟨[], front, [], appended, rfl, by simp, ?_, appendedTests_eq_nil_iff front, ofTests,
      iff_of_true rfl none, fun some => absurd none some, same⟩
    rw [whole, added, none]
    simp [joinLines, merged, Header.insertBlock_nil]
  · have block := mt (Header.joinLines_eq_nil_iff nonempty).mp none
    rcases Header.exists_insertBlock brace block (appended ++ '}' :: rest) separator' with
      ⟨a, b, lead, trail, n, front', before, inserted, breaks, bound⟩
    refine ⟨a, b, lead ++ joinLines separator' missing ++ trail, appended, front', before, ?_,
      appendedTests_eq_nil_iff front, ofTests, iff_of_false (by simp [block]) none,
      fun _ => ⟨lead, trail, n, rfl, breaks, bound⟩, same⟩
    rw [whole, added]
    simp only [merged] at inserted ⊢
    rw [List.append_assoc front, inserted]
    simp

/-- A legacy source on a single line, without tests. -/
theorem merge_frame_single_line :
    let style := TestStyle.legacy
    let target := ClassSurface.named "S".toList
    let front := "class S extends TestCase \x7b".toList
    let existing := front ++ ['}']
    Text.allBlank existing = false ∧ '}' ∉ ([] : Text) ∧ '\x7b' ∈ front ∧
      (∀ refusal, merge style target existing = .error refusal ↔
        refusal = .missingClassBody ∧ lacking style target existing ≠ [] ∧ '}' ∉ existing) ∧
      ∃ a b imports appended, front = a ++ b ∧ '\x7b' ∉ a ∧
        merge style target existing = .ok (a ++ imports ++ b ++ appended ++ ['}']) ∧
        (appended = [] ↔ lacking style target existing = []) := by
  intro style target front existing
  have visible : Text.allBlank existing = false := by decide
  have brace : '\x7b' ∈ front := by decide
  have frame := merge_frame style target visible
  rcases frame.2.2 front [] rfl (by simp) brace with
    ⟨a, b, imports, appended, cut, before, merged, isAppended, -⟩
  exact ⟨visible, by simp, brace, frame.1, a, b, imports, appended, cut, before, merged, isAppended⟩

/-- An import that is no statement is present if a line of an appended test is the
same, so none is added although the source has no such line. -/
theorem merge_beside_todo_comment :
    let style := { TestStyle.legacy with todoComment := some "import a b;".toList }
    let target := { ClassSurface.named "S".toList with imports := ["a b".toList] }
    let existing := "import junit.framework.TestCase;class S extends TestCase \x7b\n\x7d".toList
    Text.allBlank existing = false ∧
      "import a b;".toList ∈ neededImports (some target) (shownConvention style existing) ∧
      containsImport existing "import a b;".toList = false ∧
      (merge style target existing).toOption.map header = some (header existing) := by
  decide +kernel

end TestSource
end Testwright
