import Testwright.Proofs.Testing.LiveImports

namespace Testwright
namespace Header

/-!
# A leading package statement

The block of missing imports goes behind the statements of the header, and the header
ends at the first brace of the raw text.  A brace in a comment in front of the package
statement therefore hides the statement, and the block goes to the top of the source.
`isLedBy_addMissingImports_iff` says when the package statement still leads the result:
when nothing is missing, or when the part in front of the block has it already.
-/

open Character (isWord)
open HeaderStatement (IsWording)
open Text (bare normalize unifyLineBreaks)
open TestPlan (joinLines)

/-- The package statement comes before all other statements of the normalized text. -/
def IsLedBy (package source : Text) : Prop :=
  (entries (normalize source)).head? = some (false, package)

instance (package source : Text) : Decidable (IsLedBy package source) :=
  inferInstanceAs (Decidable (_ = _))

/-- Tidying lines changes no statement. -/
theorem entries_normalize (source : Text) : entries (normalize source) = entries (bare source) :=
  (entries_of_respaced (Text.respaced_tidyLines (bare source))).symm

section Block

variable {separator : Text} (isBreak : separator = ['\n'] ∨ separator = ['\r', '\n'])
  {lines : List Text} (each : ∀ line ∈ lines, IsImportLine line) (nonempty : lines ≠ [])
  {slot : Slot} {source : Text} (fits : slot.Fits source separator) (free : slot.StandsFree)
include isBreak each nonempty fits free

/-- In a free slot the lines stand between the statements of the two parts. -/
theorem entries_normalize_fill :
    entries (normalize (slot.fill (joinLines separator lines))) =
      entries (normalize slot.before) ++
        (lines.map (Prod.mk true) ++ entries (bare slot.after)) := by
  have spaced := (Text.respaced_unifyLineBreaks_append (slot.stretch (joinLines separator lines))
    (bare slot.after)).append_left (bare slot.before)
  rw [entries_normalize, entries_normalize, bare_fill isBreak each nonempty fits free,
    ← entries_of_respaced spaced, ← fits.entries_stretch isBreak each]
  rcases List.exists_cons_of_ne_nil nonempty with ⟨line, others, rfl⟩
  rcases each line List.mem_cons_self with ⟨form, isPath, rfl⟩
  have opens :=
    entries_append_of_opening (ImportForm.isWording_line isPath) (fits.blank_around isBreak).1
    (free.not_word_last fits)
      (separator ++ (joinLines separator others ++ (slot.trail ++ bare slot.after)))
  simpa [Slot.stretch, joinLines] using opens

end Block

section Added

variable {source package : Text} {target : ClassSurface} {convention : Convention}

/-- The package statement of a source leads it after the missing imports are added exactly
if none is missing, or it leads the part of the source in front of their place already. -/
theorem isLedBy_addMissingImports_iff (dotted : HasDottedImports target)
    (first : IsLedBy package source)
    (place : missingImports source (Text.lineSeparator source ['\n']) (some target) convention ≠
      [] → (slotOf source (Text.lineSeparator source ['\n'])).StandsFree) :
    IsLedBy package (addMissingImports source target convention) ↔
      missingImports source (Text.lineSeparator source ['\n']) (some target) convention = [] ∨
        IsLedBy package (slotOf source (Text.lineSeparator source ['\n'])).before := by
  have isBreak := lineSeparator_isBreak source
  rw [addMissingImports]
  generalize Text.lineSeparator source ['\n'] = separator at isBreak place ⊢
  by_cases none : missingImports source separator (some target) convention = []
  · rw [none, insertBlock_nil]
    exact iff_of_true first (Or.inl rfl)
  · have free := place none
    have fits := slotOf_fits source separator
    rw [insertBlock_eq none]
    rw [missingImports_eq] at none ⊢
    have nonempty :=
      fun empty => none ((joinLines_eq_nil_iff (blank_of_isBreak isBreak).2).mpr empty)
    have each : ∀ line ∈ (neededImports (some target) convention).filter
        (fun line => !containsImport source line), IsImportLine line := fun line member =>
      isImportLine_of_mem_neededImports dotted (List.mem_of_mem_filter member)
    rcases List.exists_cons_of_ne_nil nonempty with ⟨line, others, lines⟩
    rw [or_iff_right none, IsLedBy, IsLedBy,
      entries_normalize_fill isBreak each nonempty fits free, lines]
    -- without a statement in front the first line leads, and it is no package statement
    cases entries (normalize (slotOf source separator).before) <;> simp

/-- Behind a licence comment the package statement stays in front. -/
theorem isLedBy_addMissingImports_behind_comment :
    IsLedBy "package a;".toList (addMissingImports
      "/*\n * License.\n */\npackage a;\n\nclass T \x7b\n\x7d\n".toList
        (.named "S".toList) .modern) := by
  let source := "/*\n * License.\n */\npackage a;\n\nclass T \x7b\n\x7d\n".toList
  have dotted : HasDottedImports (.named "S".toList) :=
    fun _ member => absurd member List.not_mem_nil
  have place : (slotOf source (Text.lineSeparator source ['\n'])).StandsFree :=
    ⟨by decide +kernel, _, fun g _ => Text.drops_of_not_mem (by decide +kernel) _⟩
  exact (isLedBy_addMissingImports_iff dotted (by decide +kernel) fun _ => place).mpr
    (Or.inr (by decide +kernel))

/-- A brace in a comment in front of the package statement brings the imports in front of it. -/
theorem not_isLedBy_addMissingImports :
    let source := "/* \x7b@link A\x7d */\npackage a;\n\nclass T \x7b\n\x7d\n".toList
    IsLedBy "package a;".toList source ∧
      ¬ IsLedBy "package a;".toList (addMissingImports source (.named "S".toList) .modern) := by
  decide +kernel

end Added

end Header
end Testwright
