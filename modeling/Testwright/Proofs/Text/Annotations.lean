import Testwright.Proofs.Matcher.Taken
import Testwright.Proofs.Matcher.Searching
import Testwright.Proofs.Text.Normalization
import Testwright.Proofs.Text.Trimming
import Testwright.Source.Area

namespace Testwright
namespace Text

/-!
# Annotations of a text

An annotation is its sign, a dotted name, and arguments if some follow.  Whether
one is read at the front of a text is said without the reader (`IsMark`, `NoMark`),
and the text without annotations is made front to back from that
(`dropAnnotations_mark`, `dropAnnotations_cons`).  `Drops` says that no annotation
of the first part of a text reaches into the second one; then the two parts lose
their annotations on their own.
-/

open Character (isBlank isDottedPart)
open Matcher (Reads Stops annotationMark isParenthesis)

/-! ## What is read at the front of a text -/

/-- No list of arguments without parentheses inside stands at the front, blanks
aside. -/
def NoArguments (t : Text) : Prop :=
  ∀ gap inner rest, t = gap ++ '(' :: (inner ++ ')' :: rest) → Blank gap →
    ∃ c ∈ inner, isParenthesis c = true

/-- The first text is the annotation that is read where the second one follows. -/
inductive IsMark : Text → Text → Prop
  | bare {gap w t : Text} (blank : Blank gap) (some : w ≠ [])
      (dotted : ∀ c ∈ w, isDottedPart c = true) (stops : Stops isDottedPart t)
      (none : NoArguments t) : IsMark ('@' :: (gap ++ w)) t
  | full {gap w gap' inner t : Text} (blank : Blank gap) (some : w ≠ [])
      (dotted : ∀ c ∈ w, isDottedPart c = true) (blank' : Blank gap')
      (plain : ∀ c ∈ inner, isParenthesis c = false) :
      IsMark ('@' :: (gap ++ (w ++ (gap' ++ '(' :: (inner ++ [')']))))) t

/-- No annotation stands at the front. -/
def NoMark (t : Text) : Prop :=
  ∀ gap c rest, t = '@' :: (gap ++ c :: rest) → Blank gap → isDottedPart c = false

/-- The arguments of an annotation. -/
def argumentList : Matcher Unit := do
  Matcher.run isBlank
  Matcher.char '('
  Matcher.run fun c => !isParenthesis c
  Matcher.char ')'

theorem annotationMark_eq : annotationMark = (do
    Matcher.char '@'
    Matcher.run isBlank
    Matcher.run1 isDottedPart
    Matcher.maybe argumentList) := rfl

theorem takes_argumentList : Matcher.Takes argumentList fun s => ∃ gap inner,
    s = gap ++ '(' :: (inner ++ [')']) ∧ Blank gap ∧ ∀ c ∈ inner, isParenthesis c = false := by
  have parts := (Matcher.takes_run isBlank).bind fun _ => (Matcher.takes_char '(').bind fun _ =>
    (Matcher.takes_run fun c => !isParenthesis c).bind fun _ => Matcher.takes_char ')'
  apply parts.mono
  rintro s ⟨gap, _, rfl, blank, _, _, rfl, rfl, inner, _, rfl, plain, rfl⟩
  exact ⟨gap, inner, rfl, blank, fun c member => by simpa using plain c member⟩

theorem argumentList_eq_nil {t : Text} (none : NoArguments t) (behind : Text) :
    argumentList ⟨behind, t⟩ = [] := by
  apply takes_argumentList.eq_nil
  rintro s rest rfl ⟨gap, inner, rfl, blank, plain⟩
  rcases none gap inner rest (by simp) blank with ⟨c, member, isParen⟩
  rw [plain c member] at isParen
  cases isParen

theorem reads_argumentList {gap inner : Text} (blank : Blank gap)
    (plain : ∀ c ∈ inner, isParenthesis c = false) (behind t : Text) :
    Reads argumentList ⟨behind, gap ++ '(' :: (inner ++ ')' :: t)⟩ ()
      ⟨(gap ++ '(' :: (inner ++ [')'])).reverse ++ behind, t⟩ := by
  have kept : ∀ c ∈ inner, (!isParenthesis c) = true := fun c member => by rw [plain c member]; rfl
  have reads : Reads argumentList ⟨behind, gap ++ '(' :: (inner ++ ')' :: t)⟩ ()
      ⟨')' :: (inner.reverse ++ '(' :: (gap.reverse ++ behind)), t⟩ :=
    (Reads.of_eq_cons (Matcher.run_append blank (Matcher.stops_cons.mpr (by decide)) behind)).bind
      ((Reads.of_eq_cons (Matcher.char_self '(' _ _)).bind
        ((Reads.of_eq_cons (Matcher.run_append kept (Matcher.stops_cons.mpr (by decide)) _)).bind
          (Reads.of_eq_cons (Matcher.char_self ')' _ _))))
  simpa using reads

theorem stops_blank_of_dotted {w : Text} (some : w ≠ []) (dotted : ∀ c ∈ w, isDottedPart c = true)
    (t : Text) : Stops isBlank (w ++ t) := by
  rcases List.exists_cons_of_ne_nil some with ⟨c, w', rfl⟩
  exact Matcher.stops_cons.mpr (Character.not_isBlank_of_isDottedPart (dotted c List.mem_cons_self))

theorem reads_sign {gap w : Text} (blank : Blank gap) (some : w ≠ [])
    (dotted : ∀ c ∈ w, isDottedPart c = true) {t : Text} (stops : Stops isDottedPart t)
    {behind : Text} {later : Place}
    (h : Reads (Matcher.maybe argumentList)
      ⟨w.reverse ++ (gap.reverse ++ '@' :: behind), t⟩ () later) :
    Reads annotationMark ⟨behind, '@' :: (gap ++ (w ++ t))⟩ () later := by
  rw [annotationMark_eq]
  exact (Reads.of_eq_cons (Matcher.char_self '@' behind _)).bind
    ((Reads.of_eq_cons (Matcher.run_append blank (stops_blank_of_dotted some dotted t) _)).bind
      ((Reads.of_eq_cons (Matcher.run1_append dotted some stops _)).bind h))

theorem reads_of_isMark {r t : Text} (h : IsMark r t) (behind : Text) :
    Reads annotationMark ⟨behind, r ++ t⟩ () ⟨r.reverse ++ behind, t⟩ := by
  cases h with
  | bare blank some dotted stops none =>
      have skipped : Reads annotationMark ⟨behind, _⟩ () _ := reads_sign blank some dotted stops
        (Reads.of_eq_cons (Matcher.maybe_of_nil (argumentList_eq_nil none _)))
      simpa using skipped
  | @full gap w gap' inner t blank some dotted blank' plain =>
      have stops : Stops isDottedPart (gap' ++ '(' :: (inner ++ ')' :: t)) := by
        cases gap' with
        | nil => exact Matcher.stops_cons.mpr (by decide)
        | cons c gap' =>
            exact Matcher.stops_cons.mpr
              (Character.not_isDottedPart_of_isBlank (blank' c List.mem_cons_self))
      have taken : Reads annotationMark ⟨behind, _⟩ () _ := reads_sign blank some dotted stops
        (reads_argumentList blank' plain _ t).maybe
      simpa using taken

theorem annotationMark_eq_nil {t : Text} (h : NoMark t) (behind : Text) :
    annotationMark ⟨behind, t⟩ = [] := by
  have takes := (Matcher.takes_char '@').bind fun _ => (Matcher.takes_run isBlank).bind fun _ =>
    (Matcher.takes_run1 isDottedPart).bind fun _ => takes_argumentList.maybe
  apply Matcher.Takes.eq_nil (m := annotationMark) takes
  rintro s rest rfl ⟨_, _, rfl, rfl, gap, _, rfl, blank, w, v, rfl, ⟨some, dotted⟩, -⟩
  rcases List.exists_cons_of_ne_nil some with ⟨c, w', rfl⟩
  have none := h gap c (w' ++ v ++ rest) (by simp) blank
  rw [dotted c List.mem_cons_self] at none
  cases none

/-- At the front of a text stands an annotation, or none. -/
theorem isMark_or_noMark (t : Text) : (∃ r rest, t = r ++ rest ∧ IsMark r rest) ∨ NoMark t := by
  by_cases none : NoMark t
  · exact Or.inr none
  · refine Or.inl ?_
    simp only [NoMark, Classical.not_forall, Bool.not_eq_false] at none
    rcases none with ⟨gap, c, rest, rfl, blank, dotted⟩
    let w := (c :: rest).takeWhile isDottedPart
    let t := (c :: rest).dropWhile isDottedPart
    have whole : c :: rest = w ++ t := List.takeWhile_append_dropWhile.symm
    have some : w ≠ [] := by simp [w, dotted]
    have all : ∀ d ∈ w, isDottedPart d = true := fun d member => List.mem_takeWhile_imp member
    have stops : Stops isDottedPart t := Matcher.stops_dropWhile isDottedPart (c :: rest)
    by_cases arguments : NoArguments t
    · exact ⟨'@' :: (gap ++ w), t, by simp [whole], .bare blank some all stops arguments⟩
    · simp only [NoArguments, Classical.not_forall] at arguments
      rcases arguments with ⟨gap', inner, rest', cut, blank', plain⟩
      refine ⟨'@' :: (gap ++ (w ++ (gap' ++ '(' :: (inner ++ [')'])))), rest', by simp [whole, cut],
        .full blank some all blank' fun d member => ?_⟩
      cases isParen : isParenthesis d with
      | false => rfl
      | true => exact absurd ⟨d, member, isParen⟩ plain

/-- Induction on a text by what stands at its front, an annotation or a character that
begins none. -/
theorem induction_on_marks {motive : Text → Prop} (nil : motive [])
    (mark : ∀ r t, IsMark r t → motive t → motive (r ++ t))
    (kept : ∀ c t, NoMark (c :: t) → motive t → motive (c :: t)) (t : Text) : motive t := by
  induction size : t.length using Nat.strongRecOn generalizing t with
  | ind n ih =>
      rcases isMark_or_noMark t with ⟨r, rest, rfl, isMark⟩ | none
      · have some : r ≠ [] := by cases isMark <;> simp
        have positive := List.length_pos_iff.mpr some
        exact mark r rest isMark
          (ih rest.length (by rw [← size, List.length_append]; omega) rest rfl)
      · cases t with
        | nil => exact nil
        | cons c t => exact kept c t none (ih t.length (by simp [← size]) t rfl)

/-! ## The text without annotations, front to back -/

/-- The text without annotations, where `behind` stands in front of it. -/
def dropFrom (behind t : Text) : Text :=
  annotationMark.replaceAllFrom [' '] behind 0 t

theorem dropFrom_mark {r t : Text} (mark : IsMark r t) (behind : Text) :
    dropFrom behind (r ++ t) = ' ' :: dropFrom (r.reverse ++ behind) t := by
  have some : r ≠ [] := by cases mark <;> simp
  exact Matcher.replaceAllFrom_of_reads some (reads_of_isMark mark behind)

theorem dropFrom_cons {c : Char} {t : Text} (none : NoMark (c :: t)) (behind : Text) :
    dropFrom behind (c :: t) = c :: dropFrom (c :: behind) t := by
  have noReading := annotationMark_eq_nil none behind
  simp only [dropFrom, Matcher.replaceAllFrom, noReading]

/-- What stands in front has no influence. -/
theorem dropFrom_eq (behind t : Text) : dropFrom behind t = dropAnnotations t := by
  have congr : ∀ behind behind', dropFrom behind t = dropFrom behind' t := by
    induction t using induction_on_marks with
    | nil => exact fun _ _ => rfl
    | mark r t mark ih =>
        intro behind behind'
        rw [dropFrom_mark mark, dropFrom_mark mark, ih]
    | kept c t none ih =>
        intro behind behind'
        rw [dropFrom_cons none, dropFrom_cons none, ih]
  exact congr behind []

theorem dropAnnotations_mark {r t : Text} (mark : IsMark r t) :
    dropAnnotations (r ++ t) = ' ' :: dropAnnotations t := by
  rw [← dropFrom_eq [], dropFrom_mark mark, dropFrom_eq]

theorem dropAnnotations_cons {c : Char} {t : Text} (none : NoMark (c :: t)) :
    dropAnnotations (c :: t) = c :: dropAnnotations t := by
  rw [← dropFrom_eq [], dropFrom_cons none, dropFrom_eq]

theorem noMark_of_ne {c : Char} (other : c ≠ '@') (t : Text) : NoMark (c :: t) := by
  intro gap d rest same
  exact absurd (List.cons.inj same).1 other

/-- A part without signs stays as it is. -/
theorem dropAnnotations_append_of_not_mem {s : Text} (absent : '@' ∉ s) (t : Text) :
    dropAnnotations (s ++ t) = s ++ dropAnnotations t := by
  induction s with
  | nil => rfl
  | cons c s ih =>
      rw [List.mem_cons, not_or] at absent
      rw [List.cons_append, dropAnnotations_cons (noMark_of_ne (Ne.symm absent.1) _), ih absent.2]
      rfl

/-- Only spaces come in for annotations. -/
theorem mem_of_mem_dropAnnotations {c : Char} {t : Text} (noSpace : c ≠ ' ')
    (member : c ∈ dropAnnotations t) :
    c ∈ t := by
  induction t using induction_on_marks with
  | nil => exact member
  | mark r t mark ih =>
      rw [dropAnnotations_mark mark] at member
      exact List.mem_append_right r (ih ((List.mem_cons.mp member).resolve_left noSpace))
  | kept d t none ih =>
      rw [dropAnnotations_cons none] at member
      exact List.mem_cons.mpr ((List.mem_cons.mp member).imp_right ih)

/-! ## Parts that no annotation reaches over -/

/-- The first text, in front of the second one, becomes the third one, and no
annotation of it reaches into the second one. -/
inductive Drops : Text → Text → Text → Prop
  | done (t : Text) : Drops [] t []
  | kept {c : Char} {s t w : Text} (none : NoMark (c :: (s ++ t))) (rest : Drops s t w) :
      Drops (c :: s) t (c :: w)
  | mark {r s t w : Text} (mark : IsMark r (s ++ t)) (rest : Drops s t w) :
      Drops (r ++ s) t (' ' :: w)

variable {s t w : Text}

theorem Drops.dropAnnotations_append (h : Drops s t w) :
    dropAnnotations (s ++ t) = w ++ dropAnnotations t := by
  induction h with
  | done t => rfl
  | kept none _ ih => rw [List.cons_append, dropAnnotations_cons none, ih, List.cons_append]
  | mark mark _ ih => rw [List.append_assoc, dropAnnotations_mark mark, ih, List.cons_append]

theorem Drops.append {s' w' : Text} (first : Drops s (s' ++ t) w) (second : Drops s' t w') :
    Drops (s ++ s') t (w ++ w') := by
  generalize behind : s' ++ t = u at first
  induction first with
  | done u => exact second
  | @kept c s u w none _ ih =>
      subst behind
      rw [← List.append_assoc] at none
      exact .kept none (ih rfl)
  | @mark r s u w mark _ ih =>
      subst behind
      rw [← List.append_assoc] at mark
      rw [List.append_assoc]
      exact .mark mark (ih rfl)

theorem drops_of_not_mem (absent : '@' ∉ s) (t : Text) : Drops s t s := by
  induction s with
  | nil => exact .done t
  | cons c s ih =>
      rw [List.mem_cons, not_or] at absent
      exact .kept (noMark_of_ne (Ne.symm absent.1) _) (ih absent.2)

theorem NoMark.of_append (h : NoMark (s ++ t)) : NoMark s := by
  rintro gap c rest rfl blank
  exact h gap c (rest ++ t) (by simp) blank

theorem NoArguments.of_append (h : NoArguments (s ++ t)) : NoArguments s := by
  rintro gap inner rest rfl blank
  exact h gap inner (rest ++ t) (by simp) blank

theorem IsMark.of_append {r : Text} (h : IsMark r (s ++ t)) : IsMark r s := by
  cases h with
  | bare blank some dotted stops none =>
      exact .bare blank some dotted (Matcher.stops_of_append stops) none.of_append
  | full blank some dotted blank' plain => exact .full blank some dotted blank' plain

/-- What a part becomes in front of another one it becomes alone. -/
theorem Drops.dropAnnotations_eq (h : Drops s t w) : dropAnnotations s = w := by
  induction h with
  | done t => rfl
  | kept none _ ih =>
      rw [← List.cons_append] at none
      rw [dropAnnotations_cons none.of_append, ih]
  | mark mark _ ih => rw [dropAnnotations_mark mark.of_append, ih]

theorem Drops.eq_of_not_mem (h : Drops s t w) (absent : '@' ∉ s) : w = s := by
  have same := h.dropAnnotations_append
  rw [dropAnnotations_append_of_not_mem absent] at same
  exact (List.append_cancel_right same).symm

theorem not_mem_sign_of_blank {gap : Text} (blank : Blank gap) : '@' ∉ gap :=
  fun member => absurd (blank '@' member) (by decide)

theorem noArguments_of_visible {gap : Text} {c : Char} (blank : Blank gap)
    (visible : isBlank c = false) (other : c ≠ '(') (t : Text) : NoArguments (gap ++ c :: t) := by
  intro gap' inner rest same blank'
  rcases eq_of_blanks_append blank blank' visible (by decide) same with ⟨-, rfl, -⟩
  exact absurd rfl other

/-- What decides whether an annotation stands at the front is the first visible
character behind the sign. -/
theorem noMark_congr {c : Char} (none : NoMark (c :: (s ++ t)))
    (visible : ∃ d ∈ s, isBlank d = false) (t' : Text) : NoMark (c :: (s ++ t')) := by
  rintro gap d rest same blank
  rcases List.cons.inj same with ⟨rfl, behind⟩
  rcases visible with ⟨e, member, shown⟩
  cases dotted : isDottedPart d with
  | false => rfl
  | true =>
      have cut : s = s.takeWhile isBlank ++ s.dropWhile isBlank :=
        List.takeWhile_append_dropWhile.symm
      have front : Blank (s.takeWhile isBlank) := fun x inside => List.mem_takeWhile_imp inside
      cases back : s.dropWhile isBlank with
      | nil =>
          have all := List.dropWhile_eq_nil_iff.mp back e member
          rw [shown] at all
          cases all
      | cons f s' =>
          have first := List.head?_dropWhile_not isBlank s
          rw [back] at first
          rw [back] at cut
          rw [cut, List.append_assoc, List.cons_append] at behind
          rcases eq_of_blanks_append front blank first
            (Character.not_isBlank_of_isDottedPart dotted) behind
            with ⟨gaps, tails⟩
          rcases tails with ⟨rfl, -⟩
          rw [cut, gaps, List.append_assoc, List.cons_append] at none
          rw [none gap f (s' ++ t) rfl blank] at dotted
          cases dotted

end Text
end Testwright
