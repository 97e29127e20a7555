import Mathlib.Data.List.Basic
import Testwright.Proofs.Text.Annotations
import Testwright.Proofs.Text.Scanning
import Testwright.Proofs.Text.Standing

namespace Testwright

/-!
# Ends of words

Where a text ends no word, neither does what is left of it without comments and contents
of literals, nor what is left without annotations.
-/

open Character (isWord)
open Region (blankOut code)

namespace Region

theorem not_isWord_of_isTrace {c : Char} (h : isTrace c = true) : isWord c = false := by
  simp only [isTrace, Bool.or_eq_true, beq_iff_eq] at h
  rcases h with ((rfl | rfl) | rfl) | rfl <;> decide

theorem step_code_written_ne_nil (c : Char) (ahead : Text) : (step code c ahead).written ≠ [] := by
  simp only [step, stepInCode]
  repeat' split
  all_goals simp [textBlockQuotes]

/-- Where a text ends no word, what the scan makes of it ends none. -/
theorem not_word_last_blankOut {region : Region} {pending : Nat} {t : Text}
    (last : t.getLast?.any isWord = false) :
    (blankOut region pending t).getLast?.any isWord = false := by
  induction t generalizing region pending with
  | nil => rfl
  | cons c t ih =>
      have last' : t.getLast?.any isWord = false := Text.not_word_last_of_append_cons (a := []) last
      cases pending with
      | succ pending => exact ih last'
      | zero =>
          have rest : (blankOut (region.step c t).region (region.step c t).passed t).getLast?.any
              isWord = false :=
            ih last'
          rw [blankOut, List.getLast?_append]
          cases behind :
            (blankOut (region.step c t).region (region.step c t).passed t).getLast? with
          | some d =>
              rw [behind] at rest
              exact rest
          | none =>
              rw [Option.none_or]
              rcases step_written region c t with other | ⟨rfl, own⟩
              · cases final : (region.step c t).written.getLast? with
                | none => rfl
                | some d => exact not_isWord_of_isTrace (other d (List.mem_of_getLast? final))
              · -- in code something is written for each character
                cases t with
                | nil => simpa [own] using last
                | cons d t =>
                    rw [own, List.getLast?_eq_none_iff, blankOut] at behind
                    exact absurd (List.append_eq_nil_iff.mp behind).1 (step_code_written_ne_nil d t)

end Region

namespace Text

variable {s t w : Text}

theorem Drops.ne_nil (h : Drops s t w) (some : s ≠ []) : w ≠ [] := by
  cases h with
  | done => exact absurd rfl some
  | kept _ _ => simp
  | mark _ _ => simp

/-- Where a text ends no word, it ends none without its annotations. -/
theorem Drops.not_word_last (h : Drops s t w) (last : s.getLast?.any isWord = false) :
    w.getLast?.any isWord = false := by
  induction h with
  | done t => rfl
  | @kept c s t w none rest ih =>
      have last' := ih (not_word_last_of_append_cons (a := []) last)
      have cut := any_getLast?_append_cons isWord [] c
      simp only [List.nil_append] at cut
      rw [cut] at last ⊢
      by_cases empty : s = []
      · subst empty
        rw [if_pos rfl] at last
        rw [if_pos (rest.eq_of_not_mem (by simp)), last]
      · rw [if_neg (rest.ne_nil empty), last']
  | @mark r s t w mark rest ih =>
      have cut := any_getLast?_append_cons isWord [] ' '
      simp only [List.nil_append] at cut
      rw [cut]
      by_cases empty : s = []
      · subst empty
        rw [if_pos (rest.eq_of_not_mem (by simp))]
        decide
      · rw [List.getLast?_append_of_ne_nil _ empty] at last
        rw [if_neg (rest.ne_nil empty), ih last]

end Text
end Testwright
