import Mathlib.Data.List.Basic
import Mathlib.Data.List.Induction
import Testwright.Character.Word
import Testwright.Proofs.Text.Trimming

namespace Testwright

/-!
# Dotted paths

A dotted path is a list of words of name characters with a dot between each two.  So
it has no blank, no two dots together, and a name character at its end.
-/

open Character (isBlank isDottedPart isNamePart)
open Text (Visible)

theorem Text.exists_splitOn (cut : Char) (t : Text) :
    ∃ (first : Text) (rest : List Text), Text.splitOn (· == cut) t = first :: rest ∧
      t = first ++ rest.flatMap fun piece => cut :: piece := by
  induction t with
  | nil => exact ⟨[], [], rfl, rfl⟩
  | cons c t ih =>
      obtain ⟨first, rest, pieces, whole⟩ := ih
      by_cases cuts : c = cut
      · subst cuts
        exact ⟨[], first :: rest, by simp [Text.splitOn, pieces], by simp [← whole]⟩
      · refine ⟨c :: first, rest, by simp [Text.splitOn, cuts, pieces], ?_⟩
        rw [List.cons_append, ← whole]

namespace Header

/-- Names with a dot between each two. -/
def isDottedPath (t : Text) : Bool :=
  (Text.splitOn (· == '.') t).all fun name => !name.isEmpty && name.all isNamePart

/-- A dotted path is one name and then others, each behind a dot. -/
theorem exists_names {t : Text} (h : isDottedPath t = true) :
    ∃ (first : Text) (rest : List Text), t = first ++ (rest.flatMap fun name => '.' :: name) ∧
      (first ≠ [] ∧ ∀ c ∈ first, isNamePart c = true) ∧
      ∀ name ∈ rest, name ≠ [] ∧ ∀ c ∈ name, isNamePart c = true := by
  have isName : ∀ {w : Text}, (!w.isEmpty && w.all isNamePart) = true →
      w ≠ [] ∧ ∀ c ∈ w, isNamePart c = true := by
    intro w holds
    rw [Bool.and_eq_true, List.all_eq_true] at holds
    refine ⟨?_, holds.2⟩
    rintro rfl
    cases holds.1
  rcases Text.exists_splitOn '.' t with ⟨first, rest, pieces, whole⟩
  rw [isDottedPath, pieces, List.all_cons, Bool.and_eq_true, List.all_eq_true] at h
  exact ⟨first, rest, whole, isName h.1, fun name member => isName (h.2 name member)⟩

theorem isDottedPath_ne_nil {t : Text} (h : isDottedPath t = true) : t ≠ [] := by
  rintro rfl
  cases h

theorem isDottedPart_of_isDottedPath {t : Text} (h : isDottedPath t = true) :
    ∀ c ∈ t, isDottedPart c = true := by
  rcases exists_names h with ⟨first, rest, rfl, isFirst, each⟩
  refine List.forall_mem_append.mpr
    ⟨fun c member => Character.isDottedPart_of_isNamePart (isFirst.2 c member), fun c member => ?_⟩
  rcases List.mem_flatMap.mp member with ⟨name, isOne, inside⟩
  rcases List.mem_cons.mp inside with rfl | inside
  · decide
  · exact Character.isDottedPart_of_isNamePart ((each name isOne).2 c inside)

theorem visible_of_isDottedPath {t : Text} (h : isDottedPath t = true) : Visible t :=
  fun c member => Character.not_isBlank_of_isDottedPart (isDottedPart_of_isDottedPath h c member)

/-- A dotted path ends with a name. -/
theorem isNamePart_getLast {t : Text} (h : isDottedPath t = true) {c : Char}
    (last : t.getLast? = some c) :
    isNamePart c = true := by
  obtain ⟨first, rest, rfl, isFirst, each⟩ := exists_names h
  cases rest using List.reverseRecOn with
  | nil =>
      rw [List.flatMap_nil, List.append_nil] at last
      exact isFirst.2 c (List.mem_of_getLast? last)
  | append_singleton rest name =>
      obtain ⟨some, inName⟩ := each name (by simp)
      have whole : first ++ ((rest ++ [name]).flatMap fun name => '.' :: name) =
          (first ++ (rest.flatMap fun name => '.' :: name) ++ ['.']) ++ name := by simp
      rw [whole, List.getLast?_append_of_ne_nil _ some] at last
      exact inName c (List.mem_of_getLast? last)

end Header
end Testwright
