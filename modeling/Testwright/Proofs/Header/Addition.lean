import Testwright.Proofs.Header.Lines

namespace Testwright
namespace Header

/-!
# Adding the imports that are missing

The block of missing imports has each wanted line that the source lacks, in order
and as often as it is wanted.  Behind its insertion every wanted line is present
(`containsImport_insertBlock_missing`), so nothing is missing any more
(`missingImports_addMissingImports`), and adding again changes nothing.
-/

open HeaderStatement (header ofLine?)
open TestPlan (joinLines)
open Text (Blank)

theorem IsImportLine.ofLine?_eq {line : Text} (h : IsImportLine line) :
    ofLine? line = some line := by
  rcases h with ⟨form, dotted, rfl⟩
  exact ImportForm.ofLine?_line dotted

section Missing

variable {separator : Text} (blank : Blank separator) (nonempty : separator ≠ [])
  {lines : List Text} (each : ∀ line ∈ lines, IsImportLine line) (source : Text)
include blank nonempty each

/-- Behind the insertion of the lines that were missing, every line is present. -/
theorem containsImport_insertBlock_missing {line : Text} (member : line ∈ lines) :
    containsImport (insertBlock source (lines.foldl (appendIfAbsent source separator) []) separator)
      line = true := by
  have kept : ∀ line ∈ lines.filter fun line => !containsImport source line, IsImportLine line :=
    fun line inside => each line (List.mem_of_mem_filter inside)
  rw [foldl_appendIfAbsent, List.nil_append,
    containsImport_insertBlock blank kept nonempty (each line member).ofLine?_eq]
  cases present : containsImport source line with
  | true => exact Or.inl rfl
  | false => exact Or.inr (List.mem_filter.mpr ⟨member, by simp [present]⟩)

/-- What was present stays present. -/
theorem containsImport_insertBlock_of_containsImport {line : Text}
    (isStatement : (ofLine? line).isSome = true) (present : containsImport source line = true) :
    containsImport (insertBlock source (lines.foldl (appendIfAbsent source separator) []) separator)
      line = true := by
  have kept : ∀ line ∈ lines.filter fun line => !containsImport source line, IsImportLine line :=
    fun line inside => each line (List.mem_of_mem_filter inside)
  rcases Option.isSome_iff_exists.mp isStatement with ⟨wanted, words⟩
  rw [foldl_appendIfAbsent, List.nil_append, containsImport_insertBlock blank kept nonempty words]
  exact Or.inl present

end Missing

theorem isImportLine_of_mem_imports {convention : Convention} {line : Text}
    (member : line ∈ convention.imports) : IsImportLine line := by
  cases convention with
  | legacy =>
      rcases List.mem_singleton.mp member with rfl
      exact ⟨⟨false, "junit.framework.TestCase".toList, false⟩, by decide, by decide⟩
  | modern =>
      rcases List.mem_pair.mp member with rfl | rfl
      · exact ⟨⟨true, "org.junit.Assert".toList, true⟩, by decide, by decide⟩
      · exact ⟨⟨false, "org.junit.Test".toList, false⟩, by decide, by decide⟩

/-- The surface imports dotted paths. -/
def HasDottedImports (target : ClassSurface) : Prop :=
  ∀ imported ∈ target.imports, ∃ form : ImportForm,
    isDottedPath form.path = true ∧ imported = form.declared

theorem isImportLine_of_mem_neededImports {target : ClassSurface} (dotted : HasDottedImports target)
    {convention : Convention} {line : Text}
    (member : line ∈ neededImports (some target) convention) :
    IsImportLine line := by
  rcases List.mem_append.mp member with ofTarget | ofConvention
  · rcases List.mem_map.mp ofTarget with ⟨imported, inside, rfl⟩
    rcases dotted imported inside with ⟨form, isPath, rfl⟩
    exact ⟨form, isPath, rfl⟩
  · exact isImportLine_of_mem_imports ofConvention

theorem lineSeparator_isBreak_of {fallback : Text}
    (isBreak : fallback = ['\n'] ∨ fallback = ['\r', '\n']) (source : Text) :
    Text.lineSeparator source fallback = ['\n'] ∨
    Text.lineSeparator source fallback = ['\r', '\n'] := by
  rw [Text.lineSeparator]
  split
  · exact Or.inr rfl
  · split
    · exact Or.inl rfl
    · exact isBreak

theorem lineSeparator_isBreak (source : Text) :
    Text.lineSeparator source ['\n'] = ['\n'] ∨ Text.lineSeparator source ['\n'] = ['\r', '\n'] :=
  lineSeparator_isBreak_of (Or.inl rfl) source

theorem missingImports_eq_nil {source : Text} {target : Option ClassSurface}
    {convention : Convention}
    (present : ∀ line ∈ neededImports target convention, containsImport source line = true)
    (separator : Text) : missingImports source separator target convention = [] := by
  have none : (neededImports target convention).filter (fun line => !containsImport source line) =
      [] := by
    rw [List.filter_eq_nil_iff]
    intro line member
    simp [present line member]
  rw [missingImports_eq, none]
  rfl

theorem containsImport_addMissingImports {target : ClassSurface} (dotted : HasDottedImports target)
    (source : Text) {convention : Convention} {line : Text}
    (member : line ∈ neededImports (some target) convention) :
    containsImport (addMissingImports source target convention) line = true := by
  rcases blank_of_isBreak (lineSeparator_isBreak source) with ⟨blank, nonempty⟩
  exact containsImport_insertBlock_missing blank nonempty
    (fun _ => isImportLine_of_mem_neededImports dotted) source member

/-- Nothing is missing once the missing imports are added. -/
theorem missingImports_addMissingImports {target : ClassSurface} (dotted : HasDottedImports target)
    (source separator : Text) (convention : Convention) :
    missingImports (addMissingImports source target convention) separator (some target) convention =
      [] :=
  missingImports_eq_nil (fun _ => containsImport_addMissingImports dotted source) separator

/-! ## Additivity -/

/-- Import lines are added, each that the source lacks in its turn, and nothing is
lost: they are all present then, what was present still is, and the source is what
remains without one stretch.  So adding the imports of a surface a second time
changes nothing. -/
theorem insertBlock_additive {separator : Text}
    (isBreak : separator = ['\n'] ∨ separator = ['\r', '\n']) (source : Text)
    {forms : List ImportForm} (dotted : ∀ form ∈ forms, isDottedPath form.path = true) :
    let lines := forms.map ImportForm.line
    let block := lines.foldl (appendIfAbsent source separator) []
    let result := insertBlock source block separator
    block = joinLines separator (lines.filter fun line => !containsImport source line) ∧
      (∀ line ∈ lines, containsImport result line = true) ∧
      (∀ line, (ofLine? line).isSome = true → containsImport source line = true →
        containsImport result line = true) ∧
      (∃ before stretch after, source = before ++ after ∧ result = before ++ stretch ++ after) ∧
      ∀ (target : ClassSurface) (convention : Convention),
        target.imports = forms.map ImportForm.declared →
        let added := addMissingImports source target convention
        (∀ separator', missingImports added separator' (some target) convention = []) ∧
          addMissingImports added target convention = added := by
  intro lines block result
  rcases blank_of_isBreak isBreak with ⟨blank, nonempty⟩
  have each : ∀ line ∈ lines, IsImportLine line := by
    intro line member
    rcases List.mem_map.mp member with ⟨form, isOne, rfl⟩
    exact ⟨form, dotted form isOne, rfl⟩
  refine ⟨foldl_appendIfAbsent source separator [] lines,
    fun line => containsImport_insertBlock_missing blank nonempty each source,
    fun line => containsImport_insertBlock_of_containsImport blank nonempty each source,
    exists_stretch source block separator, fun target convention imports => ?_⟩
  have hasDotted : HasDottedImports target := by
    intro imported member
    rw [imports] at member
    rcases List.mem_map.mp member with ⟨form, isOne, rfl⟩
    exact ⟨form, dotted form isOne, rfl⟩
  intro added
  have none : ∀ separator', missingImports added separator' (some target) convention = [] :=
    fun separator' => missingImports_addMissingImports hasDotted source separator' convention
  refine ⟨none, ?_⟩
  rw [addMissingImports, none]
  rfl

/-- A package statement that shares its line, and an import that is wanted twice. -/
theorem insertBlock_additive_same_line :
    let forms : List ImportForm := [⟨true, "a.B".toList, true⟩, ⟨false, "a.$c".toList, false⟩,
      ⟨true, "a.B".toList, true⟩]
    let source := "package p;class C {}".toList
    let target := { ClassSurface.named "C".toList with imports := forms.map ImportForm.declared }
    let block := (forms.map ImportForm.line).foldl (appendIfAbsent source ['\n']) []
    (∀ form ∈ forms, isDottedPath form.path = true) ∧
      (∀ line ∈ forms.map ImportForm.line,
        containsImport (insertBlock source block ['\n']) line = true) ∧
      addMissingImports (addMissingImports source target .modern) target .modern =
        addMissingImports source target .modern := by
  intro forms source target block
  have dotted : ∀ form ∈ forms, isDottedPath form.path = true := by decide
  have additive := insertBlock_additive (Or.inl rfl) source dotted
  exact ⟨dotted, additive.2.1, (additive.2.2.2.2 target .modern rfl).2⟩

end Header
end Testwright
