import Testwright.Proofs.Testing.Appended

namespace Testwright

/-!
# The last closing brace in code

A closing brace of the normalized source stands in the source outside comments and
literals, and there is a last one of these, the closing brace of the test class
(`exists_isLastBrace`).  The methods go in front of the last brace of the raw text.  This
is the same brace exactly if no brace stands behind it, not even in a comment or a literal
(`appendMethods_isLastBrace_iff`).
-/

namespace Text

open Region (after blankOut code)

/-- A cut of the text with unified line breaks is one of the text. -/
theorem exists_of_unifyLineBreaks_eq {t x y : Text} {c : Char} (noBreak : c ≠ '\n')
    (h : unifyLineBreaks t = x ++ c :: y) : ∃ a b, t = a ++ c :: b ∧ unifyLineBreaks a = x := by
  fun_induction unifyLineBreaks t generalizing x with
  | case1 => simp at h
  | case2 t ih =>
      cases x with
      | nil => exact absurd (List.cons.inj h).1.symm noBreak
      | cons d x =>
          rcases List.cons.inj h with ⟨rfl, rest⟩
          rcases ih rest with ⟨a, b, rfl, rfl⟩
          exact ⟨'\r' :: '\n' :: a, b, rfl, rfl⟩
  | case3 t alone ih =>
      cases x with
      | nil => exact absurd (List.cons.inj h).1.symm noBreak
      | cons d x =>
          rcases List.cons.inj h with ⟨rfl, rest⟩
          rcases ih rest with ⟨a, b, rfl, rfl⟩
          refine ⟨'\r' :: a, b, rfl, unifyLineBreaks.eq_3 a ?_⟩
          rintro a' rfl
          exact alone _ rfl
  | case4 d t alone notReturn ih =>
      cases x with
      | nil =>
          rcases List.cons.inj h with ⟨rfl, rest⟩
          exact ⟨[], t, rfl, rfl⟩
      | cons e x =>
          rcases List.cons.inj h with ⟨rfl, rest⟩
          rcases ih rest with ⟨a, b, rfl, rfl⟩
          exact ⟨d :: a, b, rfl, unifyLineBreaks_cons notReturn a⟩

/-- The scan for comments and literals is in code behind the text. -/
def EndsInCode (t : Text) : Prop :=
  after code 0 (unifyLineBreaks t) = (code, 0)

instance (t : Text) : Decidable (EndsInCode t) :=
  inferInstanceAs (Decidable (_ = _))

/-- A closing brace outside comments and literals stands between the two parts of the
source, and no other one behind it. -/
structure IsLastBrace (source front rest : Text) : Prop where
  cut : source = front ++ '}' :: rest
  inCode : EndsInCode front
  last : ∀ x y, rest = x ++ '}' :: y → ¬ EndsInCode (front ++ '}' :: x)

/-- A closing brace of the normalized source stands outside comments and literals. -/
theorem exists_endsInCode {source : Text} (brace : '}' ∈ normalize source) :
    ∃ front rest, source = front ++ '}' :: rest ∧ EndsInCode front := by
  have spaced : Respaced (normalize source) (bare source) := (respaced_tidyLines (bare source)).symm
  have written : '}' ∈ blankOut code 0 (unifyLineBreaks source) :=
    mem_of_mem_dropAnnotations (by decide) (spaced.mem (by decide) brace)
  rcases Region.exists_of_mem_blankOut (by decide) (by decide) written with ⟨x, y, cut, inCode⟩
  rcases exists_of_unifyLineBreaks_eq (by decide) cut with ⟨front, rest, whole, rfl⟩
  exact ⟨front, rest, whole, inCode⟩

theorem exists_isLastBrace {source : Text} (brace : '}' ∈ normalize source) :
    ∃ front rest, IsLastBrace source front rest := by
  rcases exists_endsInCode brace with ⟨front, rest, cut, inCode⟩
  induction size : rest.length using Nat.strongRecOn generalizing front rest with
  | ind n ih =>
      by_cases later : ∃ x y, rest = x ++ '}' :: y ∧ EndsInCode (front ++ '}' :: x)
      · rcases later with ⟨x, y, rfl, inCode'⟩
        refine ih y.length ?_ (front ++ '}' :: x) y (by simp [cut]) inCode' rfl
        simp only [List.length_append, List.length_cons] at size
        omega
      · exact ⟨front, rest, cut, inCode, fun x y same inCode' => later ⟨x, y, same, inCode'⟩⟩

/-- Whatever the methods are, they go in front of the last closing brace outside comments
and literals, with one separator in front of them at most, exactly if no brace stands
behind it. -/
theorem appendMethods_isLastBrace_iff {source : Text} (brace : '}' ∈ normalize source) :
    ∃ front rest, IsLastBrace source front rest ∧
      ((∀ methods separator, ∃ lead, (lead = [] ∨ lead = separator) ∧
        appendMethods source methods separator = .ok (front ++ lead ++ methods ++ '}' :: rest)) ↔
        '}' ∉ rest) := by
  rcases exists_isLastBrace brace with ⟨front, rest, isLast⟩
  refine ⟨front, rest, isLast, ?_, ?_⟩
  · intro appended inRest
    rcases exists_last_cut inRest with ⟨x, y, rfl, absent⟩
    rcases appended [';'] [] with ⟨lead, isLead, result⟩
    have found : cutAtLast? '}' source = some (front ++ '}' :: x, y) := by
      rw [isLast.cut, ← cutAtLast?_append absent (front ++ '}' :: x)]
      simp
    have none : lead = [] := isLead.elim id id
    rw [appendMethods, found, none] at result
    simp at result
  · intro absent methods separator
    have found : cutAtLast? '}' source = some (front, rest) := by
      rw [isLast.cut]
      exact cutAtLast?_append absent front
    refine ⟨if endsWithBreak front then [] else separator, ?_, by rw [appendMethods, found]⟩
    split
    · exact Or.inl rfl
    · exact Or.inr rfl

/-- A brace in a comment inside the class does no harm. -/
theorem appendMethods_isLastBrace_commented :
    let source := "class T \x7b\n\t// \x7d\n\x7d\n".toList
    '}' ∈ normalize source ∧ ∃ front rest, IsLastBrace source front rest ∧
      ((∀ methods separator, ∃ lead, (lead = [] ∨ lead = separator) ∧
        appendMethods source methods separator = .ok (front ++ lead ++ methods ++ '}' :: rest)) ↔
        '}' ∉ rest) := by
  intro source
  have brace : '}' ∈ normalize source := by decide +kernel
  exact ⟨brace, appendMethods_isLastBrace_iff brace⟩

/-- In front of a brace in a comment behind the class, the methods go behind the class. -/
theorem not_appendMethods_isLastBrace :
    let source := "class T \x7b\n\x7d\n// \x7d\n".toList
    '}' ∈ normalize source ∧ IsLastBrace source "class T \x7b\n".toList "\n// \x7d\n".toList ∧
      appendMethods source "\tvoid a() \x7b\n\t\x7d\n".toList ['\n'] =
        .ok "class T \x7b\n\x7d\n// \n\tvoid a() \x7b\n\t\x7d\n\x7d\n".toList := by
  intro source
  refine ⟨by decide +kernel, ⟨rfl, by decide, fun x y same => ?_⟩, by decide⟩
  -- the comment has one brace
  have parts : "\n// ".toList ++ '}' :: ['\n'] = x ++ '}' :: y :=
    (by decide : _ = "\n// \x7d\n".toList).trans same
  rcases exists_behind (by decide) parts with ⟨z, rfl, behind⟩
  cases z with
  | nil => decide
  | cons c z =>
      have further : '}' ∈ ['\n'] := by
        rw [(List.cons.inj behind).2]
        simp
      exact absurd further (by decide)

end Text
end Testwright
