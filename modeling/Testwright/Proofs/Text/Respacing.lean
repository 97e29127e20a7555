import Testwright.Proofs.Text.Normalization
import Testwright.Proofs.Text.Trimming
import Testwright.Proofs.Character.Classes

namespace Testwright
namespace Text

/-!
# Texts that differ in their blanks

Two texts are respacings of each other if they have the same visible characters
and blanks at the same places, the end aside.  Tidying lines is such a change
(`respaced_tidyLines`), and the relation is symmetric; so what a reader finds that
takes one blank for another is the same before and behind tidying.
-/

open Character (isBlank isWord)

/-- The texts have the same visible characters, and blanks in front of the same
ones. -/
inductive Respaced : Text → Text → Prop
  | ends {gap gap' : Text} (blank : Blank gap) (blank' : Blank gap') : Respaced gap gap'
  | visible {gap gap' t t' : Text} {c : Char} (blank : Blank gap) (blank' : Blank gap')
      (same : gap = [] ↔ gap' = []) (shown : isBlank c = false) (rest : Respaced t t') :
      Respaced (gap ++ c :: t) (gap' ++ c :: t')

variable {t t' : Text}

theorem Respaced.symm (h : Respaced t t') : Respaced t' t := by
  induction h with
  | ends blank blank' => exact .ends blank' blank
  | visible blank blank' same shown _ ih => exact .visible blank' blank same.symm shown ih

theorem Respaced.blank_cons {c d : Char} (h : Respaced t t') (blank : isBlank c = true)
    (blank' : isBlank d = true) : Respaced (c :: t) (d :: t') := by
  cases h with
  | ends gap gap' =>
      exact .ends ((blank_singleton blank).append gap) ((blank_singleton blank').append gap')
  | visible gap gap' _ shown rest =>
      exact .visible ((blank_singleton blank).append gap)
        ((blank_singleton blank').append gap') (by simp)
        shown rest

/-- A blank may go where another blank or the end of the text follows. -/
theorem Respaced.blank_drop {c : Char} (h : Respaced t t') (blank : isBlank c = true)
    (follows : ∀ d, t'.head? = some d → isBlank d = true) : Respaced (c :: t) t' := by
  cases h with
  | ends gap gap' => exact .ends ((blank_singleton blank).append gap) gap'
  | @visible gap gap' t t' d front front' same shown rest =>
      have some : gap' ≠ [] := by
        rintro rfl
        have := follows d rfl
        rw [shown] at this
        cases this
      exact .visible ((blank_singleton blank).append front) front'
        ⟨fun none => absurd none (by simp), fun none => absurd none some⟩ shown rest

theorem respaced_tidyLines (t : Text) : Respaced t (tidyLines t) := by
  induction t with
  | nil => exact .ends blank_nil blank_nil
  | cons c t ih =>
      by_cases isBreak : c = '\n'
      · subst isBreak
        rw [tidyLines_newline]
        exact ih.blank_cons (by decide) (by decide)
      · rw [tidyLines_cons isBreak]
        split
        · rename_i dropped
          apply ih.blank_drop dropped.1
          intro d head
          rcases dropped.2 with none | newline
          · rw [none] at head
            cases head
          · rw [newline] at head
            rcases Option.some.inj head with rfl
            decide
        · cases blank : isBlank c with
          | true => exact ih.blank_cons blank (by rw [isBlank_untab, blank])
          | false =>
              rw [untab_of_not_isBlank blank]
              exact .visible blank_nil blank_nil Iff.rfl blank ih

theorem Respaced.append_left (h : Respaced t t') (u : Text) : Respaced (u ++ t) (u ++ t') := by
  induction u with
  | nil => exact h
  | cons c u ih =>
      cases blank : isBlank c with
      | true => exact ih.blank_cons blank blank
      | false => exact .visible blank_nil blank_nil Iff.rfl blank ih

theorem respaced_refl (t : Text) : Respaced t t := by
  have whole := Respaced.append_left (.ends blank_nil blank_nil) t
  rwa [List.append_nil] at whole

/-- A text with one line feed for each line break is the text in other blanks. -/
theorem respaced_unifyLineBreaks_append (g t : Text) :
    Respaced (g ++ t) (unifyLineBreaks g ++ t) := by
  fun_induction unifyLineBreaks g with
  | case1 => exact respaced_refl t
  | case2 g ih =>
      have feed := ih.blank_cons (c := '\n') (d := '\n') (by decide) (by decide)
      exact feed.blank_drop (by decide) fun d head => by
        rcases Option.some.inj head with rfl
        decide
  | case3 g alone ih => exact ih.blank_cons (by decide) (by decide)
  | case4 c g alone notReturn ih => exact ih.append_left [c]

/-! ## A visible character in a respaced text -/

theorem not_word_last_of_blank (blank : Blank t) : t.getLast?.any isWord = false := by
  cases last : t.getLast? with
  | none => rfl
  | some c => exact Character.not_isWord_of_isBlank (blank c (List.mem_of_getLast? last))

theorem any_getLast?_append_cons (p : Char → Bool) (s : Text) (c : Char) (t : Text) :
    (s ++ c :: t).getLast?.any p = if t = [] then p c else t.getLast?.any p := by
  cases t with
  | nil => simp
  | cons d t => simp [List.getLast?_cons]

/-- A visible character stands in the respaced text as well; behind it the texts
are respacings again, and in front of it they end alike. -/
theorem Respaced.exists_cut {a b : Text} {c : Char} (h : Respaced (a ++ c :: b) t')
    (shown : isBlank c = false) :
    ∃ a' b', t' = a' ++ c :: b' ∧ Respaced b b' ∧ (a = [] ↔ a' = []) ∧ (Blank a → Blank a') ∧
      a'.getLast?.any isWord = a.getLast?.any isWord := by
  generalize whole : a ++ c :: b = t at h
  induction h generalizing a with
  | ends blank _ =>
      rw [← whole] at blank
      have := blank c (by simp)
      rw [shown] at this
      cases this
  | @visible gap gap' t t' d blank blank' same shown' rest ih =>
      by_cases front : Blank a
      · rcases eq_of_blanks_append front blank shown shown' whole with ⟨rfl, rfl, rfl⟩
        refine ⟨gap', t', rfl, rest, same, fun _ => blank', ?_⟩
        rw [not_word_last_of_blank blank', not_word_last_of_blank front]
      · have behind : ∃ v, a = gap ++ d :: v ∧ v ++ c :: b = t := by
          rcases List.append_eq_append_iff.mp whole with ⟨v, rfl, -⟩ | ⟨v, rfl, tails⟩
          · exact absurd (fun e member => blank e (List.mem_append_left v member)) front
          · cases v with
            | nil => exact absurd (by rwa [List.append_nil]) front
            | cons e v =>
                rcases List.cons.inj tails with ⟨rfl, behind⟩
                exact ⟨v, rfl, behind.symm⟩
        rcases behind with ⟨v, rfl, behind⟩
        rcases ih behind with ⟨a', b', rfl, parts, empty, -, last⟩
        refine ⟨gap' ++ d :: a', b', by simp, parts, by simp, fun all => absurd all front, ?_⟩
        rw [any_getLast?_append_cons, any_getLast?_append_cons, last]
        simp only [empty]

theorem Respaced.mem {c : Char} (h : Respaced t t') (shown : isBlank c = false) (member : c ∈ t) :
    c ∈ t' := by
  rcases List.append_of_mem member with ⟨a, b, rfl⟩
  rcases h.exists_cut shown with ⟨a', b', rfl, -⟩
  simp

theorem Respaced.exists_append {s b : Text} (h : Respaced (s ++ b) t') (shown : Visible s) :
    ∃ b', t' = s ++ b' ∧ Respaced b b' := by
  induction s generalizing t' with
  | nil => exact ⟨t', rfl, h⟩
  | cons c s ih =>
      rcases h.exists_cut (a := []) (shown c List.mem_cons_self) with
        ⟨a', b', rfl, rest, empty, -, -⟩
      rcases empty.mp rfl with rfl
      rcases ih rest fun d member => shown d (List.mem_cons_of_mem c member) with ⟨b'', rfl, rest'⟩
      exact ⟨b'', rfl, rest'⟩

theorem Respaced.exists_blank_append {gap s b : Text} (h : Respaced (gap ++ (s ++ b)) t')
    (blank : Blank gap) (shown : Visible s) (some : s ≠ []) :
    ∃ gap' b', t' = gap' ++ (s ++ b') ∧ Blank gap' ∧ (gap = [] ↔ gap' = []) ∧ Respaced b b' := by
  rcases List.exists_cons_of_ne_nil some with ⟨c, s, rfl⟩
  rcases h.exists_cut (shown c List.mem_cons_self) with ⟨gap', r, rfl, rest, empty, blanks, -⟩
  rcases rest.exists_append fun d member => shown d (List.mem_cons_of_mem c member) with
    ⟨b', rfl, rest'⟩
  exact ⟨gap', b', rfl, blanks blank, empty, rest'⟩

end Text
end Testwright
