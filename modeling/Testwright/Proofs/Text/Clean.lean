import Testwright.Proofs.Text.Renormalization
import Testwright.Proofs.Text.WordEnds

namespace Testwright

/-!
# Normalized texts are clean

A comment opens with two characters, so one could come about at a seam: where a
comment, a literal or an annotation was taken out, or where blanks went.  None does.
What the scan leaves of code starts as the code does, spaces aside, and a slash is
left only where none of it opened a comment; the passes behind the scan put nothing
but spaces in and take nothing visible from between two visible characters.
-/

open Character (isBlank)

namespace Text

/-- No comment opens anywhere in the text. -/
structure Uncommented (t : Text) : Prop where
  noLine : ¬ "//".toList <:+: t
  noBlock : ¬ "/*".toList <:+: t

/-- No comment opens with the character in front of the text. -/
def OpensNone (c : Char) (t : Text) : Prop :=
  c = '/' → t.head? ≠ some '/' ∧ t.head? ≠ some '*'

variable {c : Char} {t u : Text}

theorem uncommented_nil : Uncommented [] where
  noLine := by simp
  noBlock := by simp

theorem uncommented_cons_iff : Uncommented (c :: t) ↔ OpensNone c t ∧ Uncommented t := by
  have pair : ∀ d : Char, ['/', d] <:+: c :: t ↔
      (c = '/' ∧ t.head? = some d) ∨ ['/', d] <:+: t := by
    intro d
    rw [List.infix_cons_iff, List.cons_prefix_cons, List.head?_eq_some_iff, eq_comm]
    simp only [List.IsPrefix, List.singleton_append, eq_comm]
  have line := pair '/'
  have block := pair '*'
  constructor
  · rintro ⟨noLine, noBlock⟩
    exact ⟨fun slash => ⟨fun head => noLine (line.mpr (.inl ⟨slash, head⟩)),
        fun head => noBlock (block.mpr (.inl ⟨slash, head⟩))⟩,
      ⟨fun inside => noLine (line.mpr (.inr inside)), fun inside =>
        noBlock (block.mpr (.inr inside))⟩⟩
  · rintro ⟨opensNone, rest⟩
    exact ⟨fun inside =>
      (line.mp inside).elim (fun here => (opensNone here.1).1 here.2) rest.noLine,
      fun inside => (block.mp inside).elim (fun here => (opensNone here.1).2 here.2) rest.noBlock⟩

theorem opensNone_of_ne (other : c ≠ '/') : OpensNone c t :=
  fun slash => absurd slash other

/-- A comment opens in front of a text only where one opens in front of a text that
starts alike. -/
theorem OpensNone.of_heads (h : OpensNone c t)
    (heads : ∀ d, isBlank d = false → u.head? = some d → t.head? = some d) : OpensNone c u := by
  intro slash
  rcases h slash with ⟨noLine, noBlock⟩
  exact ⟨fun head => noLine (heads '/' (by decide) head),
    fun head => noBlock (heads '*' (by decide) head)⟩

theorem Uncommented.append_left (h : Uncommented t) (noSlash : '/' ∉ u) : Uncommented (u ++ t) := by
  induction u with
  | nil => exact h
  | cons c u ih =>
      rw [List.mem_cons, not_or] at noSlash
      exact uncommented_cons_iff.mpr ⟨opensNone_of_ne (Ne.symm noSlash.1), ih noSlash.2⟩

end Text

namespace Region

open Text (OpensNone Uncommented)

/-- A character that stands for itself in code opens no comment. -/
theorem opensNone_of_step {c : Char} {t : Text} (own : step code c t = ⟨[c], code, 0⟩) :
    OpensNone c t := by
  rintro rfl
  have opens : ∀ region, step code '/' t = ⟨[' '], region, 1⟩ → False := by
    intro region opened
    rw [opened] at own
    exact absurd (congrArg RegionStep.passed own) (by simp)
  exact ⟨fun head => opens lineComment (by simp [step, stepInCode, head]),
    fun head => opens blockComment (by simp [step, stepInCode, head])⟩

/-- The scan leaves no comment, and joins none. -/
theorem uncommented_blankOut (region : Region) (pending : Nat) (t : Text) :
    Uncommented (blankOut region pending t) := by
  induction t generalizing region pending with
  | nil => exact Text.uncommented_nil
  | cons c t ih =>
      cases pending with
      | succ pending => exact ih region pending
      | zero =>
          rw [blankOut]
          rcases step_written region c t with traces | ⟨rfl, own⟩
          · exact (ih _ _).append_left fun member => absurd (traces '/' member) (by decide)
          · have opensNone : OpensNone c (blankOut code 0 t) :=
              (opensNone_of_step own).of_heads fun d visible => head?_of_head?_blankOut fun space =>
                absurd (space ▸ visible) (by decide)
            rw [own]
            exact Text.uncommented_cons_iff.mpr ⟨opensNone, ih code 0⟩

end Region

namespace Text

variable {c : Char} {t : Text}

theorem Uncommented.dropAnnotations (h : Uncommented t) : Uncommented (dropAnnotations t) := by
  induction t using induction_on_marks with
  | nil => exact h
  | mark r t mark ih =>
      have rest : Uncommented t :=
        ⟨fun inside => h.noLine (inside.trans (List.suffix_append r t).isInfix),
          fun inside => h.noBlock (inside.trans (List.suffix_append r t).isInfix)⟩
      rw [dropAnnotations_mark mark]
      exact uncommented_cons_iff.mpr ⟨opensNone_of_ne (by decide), ih rest⟩
  | kept c t none ih =>
      rcases uncommented_cons_iff.mp h with ⟨opensNone, rest⟩
      rw [dropAnnotations_cons none]
      exact uncommented_cons_iff.mpr ⟨opensNone.of_heads fun d visible =>
        head?_of_head?_dropAnnotations fun space => absurd (space ▸ visible) (by decide), ih rest⟩

theorem Uncommented.tidyLines (h : Uncommented t) : Uncommented (tidyLines t) := by
  induction t with
  | nil => exact h
  | cons c t ih =>
      rcases uncommented_cons_iff.mp h with ⟨opensNone, rest⟩
      by_cases feed : c = '\n'
      · rw [feed, tidyLines_newline]
        exact uncommented_cons_iff.mpr ⟨opensNone_of_ne (by decide), ih rest⟩
      · rw [tidyLines_cons feed]
        split
        · exact ih rest
        · have opensNone' : OpensNone (untab c) (Text.tidyLines t) := fun slash =>
            opensNone.of_heads (fun d visible => head?_of_head?_tidyLines visible)
              (untab_eq_slash slash)
          exact uncommented_cons_iff.mpr ⟨opensNone', ih rest⟩

/-! ## Lines without tabs and without blanks at their ends -/

theorem not_mem_tab_tidyLine (line : Text) : '\t' ∉ tidyLine line := by
  induction line with
  | nil => simp [tidyLine, trimEnd]
  | cons c line ih =>
      rw [tidyLine_cons]
      split
      · simp
      · have other : '\t' ≠ untab c := by
          unfold untab
          split
          · decide
          · exact Ne.symm ‹_›
        simpa [other] using ih

theorem not_isBlank_last_tidyLine {line : Text} (last : (tidyLine line).getLast? = some c) :
    isBlank c = false := by
  induction line with
  | nil => simp [tidyLine, trimEnd] at last
  | cons d line ih =>
      rw [tidyLine_cons] at last
      split at last
      · cases last
      · next kept =>
          rw [List.getLast?_cons] at last
          cases rest : (tidyLine line).getLast? with
          | some e =>
              rw [rest] at last
              exact ih (rest.trans last)
          | none =>
              rw [List.getLast?_eq_none_iff] at rest
              rw [rest] at last kept
              simp only [List.getLast?_nil, Option.getD_none, Option.some.injEq] at last
              rw [← last, isBlank_untab]
              simpa using kept

theorem not_mem_newline_tidyLine {line : Text} (unbroken : '\n' ∉ line) : '\n' ∉ tidyLine line := by
  induction line with
  | nil => simp [tidyLine, trimEnd]
  | cons c line ih =>
      rw [List.mem_cons, not_or] at unbroken
      rw [tidyLine_cons]
      split
      · simp
      · have other : '\n' ≠ untab c :=
          fun feed => unbroken.1 (untab_eq_newline_iff.mp feed.symm).symm
        simpa [other] using ih unbroken.2

/-- The lines of a tidied text are the tidied lines of the text. -/
theorem splitOn_tidyLines (t : Text) :
    splitOn (· == '\n') (Text.tidyLines t) = (splitOn (· == '\n') t).map tidyLine := by
  apply splitOn_intercalate
  · simp only [List.forall_mem_map]
    exact fun line isLine => not_mem_newline_tidyLine fun member => by
      simpa using not_cut_of_mem_splitOn isLine member
  · simpa using splitOn_ne_nil _ t

/-- There are no carriage returns, tabs and comments in the text, and no line of it
ends with a blank. -/
structure IsClean (t : Text) : Prop where
  noReturn : '\r' ∉ t
  noTab : '\t' ∉ t
  uncommented : Uncommented t
  lineEnds : ∀ line ∈ splitOn (· == '\n') t, ∀ c, line.getLast? = some c → isBlank c = false

theorem isClean_normalize (s : Text) : IsClean (normalize s) where
  noReturn := (normalize_laidOut s).1
  noTab member := by
    rcases mem_intercalate member with between | ⟨line, isLine, inside⟩
    · exact absurd between (by decide)
    · rcases List.mem_map.mp isLine with ⟨line', -, rfl⟩
      exact not_mem_tab_tidyLine line' inside
  uncommented := (Region.uncommented_blankOut .code 0 (unifyLineBreaks s)).dropAnnotations.tidyLines
  lineEnds := by
    rw [normalize, splitOn_tidyLines]
    simp only [List.forall_mem_map]
    exact fun line _ c last => not_isBlank_last_tidyLine last

end Text
end Testwright
