import Mathlib.Data.List.Basic
import Testwright.Proofs.Text.Areas
import Testwright.Proofs.Text.Linewise
import Testwright.Proofs.Text.Lines

namespace Testwright
namespace Text

/-!
# Texts made of given lines

A text is laid out in lines (`Lined`) if these are its visible lines, each behind some
blanks, with nothing but blank lines between them.  A generated source is normalized to
such a text part by part (`NormalizesTo`), and again to such a text when it is normalized
once more (`Lined.normalizesTo`); and what is read off its areas is read off its lines
(`Lined.areas_eq`).
-/

open Character (isBlank)
open Matcher (Stops)

/-- The text has these lines in order, each behind some blanks, and blank lines anywhere
between them. -/
inductive Lined : List Text → Text → Prop
  | nil : Lined [] []
  | gap {gap : Text} {lines : List Text} {t : Text} (blank : Blank gap) (later : Lined lines t) :
      Lined lines (gap ++ '\n' :: t)
  | line {gap line : Text} {lines : List Text} {t : Text} (blank : Blank gap)
      (later : Lined lines t) :
      Lined (line :: lines) (gap ++ (line ++ '\n' :: t))

variable {lines lines' : List Text} {s t : Text}

theorem Lined.append (first : Lined lines s) (second : Lined lines' t) :
    Lined (lines ++ lines') (s ++ t) := by
  induction first with
  | nil => exact second
  | @gap gap _ _ blank _ ih => simpa using Lined.gap blank ih
  | @line gap line _ _ blank _ ih => simpa using Lined.line blank ih

theorem Lined.exists_append (h : Lined (lines ++ lines') t) :
    ∃ a b, t = a ++ b ∧ Lined lines a ∧ Lined lines' b := by
  generalize whole : lines ++ lines' = all at h
  induction h generalizing lines with
  | nil =>
      rcases List.append_eq_nil_iff.mp whole with ⟨rfl, rfl⟩
      exact ⟨[], [], rfl, .nil, .nil⟩
  | @gap gap _ _ blank _ ih =>
      rcases ih whole with ⟨a, b, rfl, first, second⟩
      exact ⟨gap ++ '\n' :: a, b, by simp, .gap blank first, second⟩
  | @line gap line _ _ blank later ih =>
      cases lines with
      | nil =>
          rw [List.nil_append] at whole
          exact ⟨[], _, rfl, .nil, whole ▸ .line blank later⟩
      | cons first lines =>
          rcases List.cons.inj whole with ⟨rfl, rest⟩
          rcases ih rest with ⟨a, b, rfl, inFront, inBack⟩
          exact ⟨gap ++ (first ++ '\n' :: a), b, by simp, .line blank inFront, inBack⟩

theorem Lined.exists_cons {line : Text} (h : Lined (line :: lines) t) :
    ∃ gap rest, t = gap ++ (line ++ '\n' :: rest) ∧ Blank gap ∧ Lined lines rest := by
  generalize whole : line :: lines = all at h
  induction h with
  | nil => cases whole
  | @gap gap _ _ blank _ ih =>
      rcases ih whole with ⟨gap', rest, rfl, blank', later⟩
      exact ⟨gap ++ '\n' :: gap', rest, by simp,
        List.forall_mem_append.mpr ⟨blank, List.forall_mem_cons.mpr ⟨by decide, blank'⟩⟩, later⟩
  | @line gap _ _ t blank later =>
      rcases List.cons.inj whole with ⟨rfl, rfl⟩
      exact ⟨gap, t, rfl, blank, later⟩

/-! ## Normalization -/

/-- The part of a source is normalized to a text of these lines, whatever follows. -/
def NormalizesTo (s : Text) (lines : List Text) : Prop :=
  ∃ n, Normalizes s n ∧ Lined lines n

theorem NormalizesTo.append (first : NormalizesTo s lines) (second : NormalizesTo t lines') :
    NormalizesTo (s ++ t) (lines ++ lines') := by
  rcases first with ⟨n, normalizes, lined⟩
  rcases second with ⟨n', normalizes', lined'⟩
  exact ⟨n ++ n', normalizes.append normalizes', lined.append lined'⟩

theorem normalizesTo_nil : NormalizesTo [] [] :=
  ⟨[], normalizes_nil, .nil⟩

theorem NormalizesTo.lined (h : NormalizesTo s lines) : Lined lines (normalize s) := by
  rcases h with ⟨n, normalizes, lined⟩
  rwa [normalizes.normalize_eq]

/-- A part of which the scan leaves blanks only. -/
theorem normalizesTo_of_blank {w : Text} (scanned : Scanned s (w ++ ['\n']))
    (last : s.getLast? = some '\n') (blank : Blank w) : NormalizesTo s [] :=
  ⟨_, normalizes_of_not_mem scanned last (not_mem_sign_of_blank blank),
    .gap (blank_tidyLines blank) .nil⟩

theorem Blank.normalizesTo (blank : Blank s) (last : s.getLast? = some '\n') :
    NormalizesTo s [] := by
  have ends : (unifyLineBreaks s).getLast? = some '\n' := by
    rw [getLast?_unifyLineBreaks, last]
    rfl
  rcases exists_scanned_blank blank with ⟨w, scanned, blank'⟩
  have same : w = unifyLineBreaks s :=
    scanned.1.symm.trans (scanned_unifyLineBreaks fun c member =>
      isQuiet_of_isBlank (blank c member)).1
  rcases List.getLast?_eq_some_iff.mp (same ▸ ends) with ⟨front, rfl⟩
  exact normalizesTo_of_blank scanned last fun c member => blank' c (List.mem_append_left _ member)

/-- A part that the scan and the annotations leave with blanks in front of one tidy line. -/
theorem normalizesTo_of_drops {w gap line : Text} (scanned : Scanned s (w ++ ['\n']))
    (last : s.getLast? = some '\n') (drops : ∀ t, Drops (w ++ ['\n']) t (gap ++ line ++ ['\n']))
    (blank : Blank gap) (tidied : tidyLines line = line) : NormalizesTo s [line] := by
  rcases exists_tidyLines_blank_append blank tidied with ⟨gap', blank', same⟩
  have normalizes := normalizes_of_drops scanned last drops
  rw [same] at normalizes
  have lined : Lined [line] (gap' ++ (line ++ '\n' :: [])) := .line blank' .nil
  exact ⟨gap' ++ line ++ ['\n'], normalizes, by simpa using lined⟩

/-- The line of a source becomes this line when the source is normalized. -/
structure BecomesLine (s line : Text) : Prop where
  nonempty : s ≠ []
  unbroken : Unbroken s
  writes : Region.Writes s line
  plain : ∀ c ∈ line, c ≠ '@' ∧ c ≠ '\t' ∧ c ≠ '\n'
  last : ∀ c, line.getLast? = some c → isBlank c = false

theorem BecomesLine.of_quiet (nonempty : s ≠ [])
    (quiet : ∀ c ∈ s, Region.isQuiet c = true ∧ c ≠ '@' ∧ c ≠ '\t') (unbroken : Unbroken s)
    (last : ∀ c, s.getLast? = some c → isBlank c = false) : BecomesLine s s where
  nonempty := nonempty
  unbroken := unbroken
  writes := Region.writes_quiet fun c member => (quiet c member).1
  plain := fun c member => ⟨(quiet c member).2.1, (quiet c member).2.2, (unbroken c member).1⟩
  last := last

theorem BecomesLine.scanned {line : Text} (h : BecomesLine s line) : Scanned s line := by
  rw [Scanned, unifyLineBreaks_of_not_mem fun member => (h.unbroken '\r' member).2 rfl]
  exact h.writes

theorem BecomesLine.tidyLines_eq {line : Text} (h : BecomesLine s line) : tidyLines line = line :=
  tidyLines_of_last (fun c member => (h.plain c member).2) h.last

section Break

variable {separator : Text} (isBreak : separator = ['\n'] ∨ separator = ['\r', '\n'])
include isBreak

theorem BecomesLine.seam {line : Text} (h : BecomesLine s line) (gap : Text) :
    Seam (gap ++ s) separator where
  breaks := fun final => by
    rw [List.getLast?_append_of_ne_nil _ h.nonempty] at final
    exact absurd rfl (h.unbroken '\r' (List.mem_of_getLast? final)).2
  calm := by
    refine Or.inr fun c head => ?_
    rcases isBreak with rfl | rfl <;> rcases Option.some.inj head with rfl <;> decide

/-- A line with blanks in front of it and a break behind it. -/
theorem BecomesLine.normalizesTo {gap line : Text} (blank : Blank gap) (h : BecomesLine s line) :
    NormalizesTo (gap ++ s ++ separator) [line] := by
  rcases exists_scanned_blank blank with ⟨gap', scanned, blank'⟩
  have front : Seam gap s := {
    breaks := fun _ newline => absurd rfl (h.unbroken '\n' (List.mem_of_head? newline)).1
    calm := Or.inl fun c final => isCalm_of_isBlank (blank c (List.mem_of_getLast? final)) }
  have whole :=
    (scanned.append h.scanned front).append (scanned_separator isBreak) (h.seam isBreak gap)
  refine normalizesTo_of_drops whole (getLast?_append_separator isBreak _)
    (fun t => ?_) blank' h.tidyLines_eq
  apply drops_of_not_mem
  have noSign : '@' ∉ line := fun member => (h.plain '@' member).1 rfl
  simp [noSign, not_mem_sign_of_blank blank']

end Break

/-- A text whose lines are normalized to themselves is normalized to the same lines. -/
theorem Lined.normalizesTo (settled : ∀ line ∈ lines, BecomesLine line line) (h : Lined lines t) :
    NormalizesTo t lines := by
  induction h with
  | nil => exact normalizesTo_nil
  | @gap gap lines t blank later ih =>
      have blank' : Blank (gap ++ ['\n']) := List.forall_mem_append.mpr ⟨blank, by decide⟩
      have first := blank'.normalizesTo (by simp)
      have whole := first.append (ih settled)
      simpa using whole
  | @line gap line lines t blank later ih =>
      have first := (settled line List.mem_cons_self).normalizesTo (Or.inl rfl) blank
      have whole :=
        first.append (ih fun other member => settled other (List.mem_cons_of_mem line member))
      simpa using whole

/-! ## Areas -/

theorem trim_blank_append {gap : Text} (blank : Blank gap) (t : Text) :
    trim (gap ++ t) = trim t := by
  rw [trim, trimStart_append blank, trim]

/-- Blanks in front of a text change none of its areas. -/
theorem areas_blank_append {gap : Text} (blank : Blank gap) (t : Text) :
    areas (gap ++ t) = areas t := by
  induction gap with
  | nil => rfl
  | cons c gap ih =>
      rw [← ih fun d member => blank d (List.mem_cons_of_mem c member)]
      have single : Blank [c] := List.forall_mem_singleton.mpr (blank c List.mem_cons_self)
      have inside : isTerminator c = false := unterminated_of_blank single c List.mem_cons_self
      unfold areas
      rw [List.cons_append, segments, inside]
      cases segments (gap ++ t) with
      | nil => rfl
      | cons piece pieces =>
          have same : trim (c :: piece) = trim piece := trim_blank_append single piece
          simp only [Bool.false_eq_true, if_false, List.map_cons, same]

/-- The areas of a text are those of its lines. -/
theorem Lined.areas_eq (ended : ∀ line ∈ lines, Terminated line) (h : Lined lines t) :
    areas t = lines.flatMap areas := by
  -- the break behind a line counts with the blanks in front of what follows
  suffices behind : areas ('\n' :: t) = lines.flatMap areas by
    have blank : Blank ['\n'] := by decide
    rw [← behind]
    exact (areas_blank_append blank t).symm
  have newline : Blank ['\n'] := by decide
  induction h with
  | nil => exact areas_eq_nil_of_not_mem (by decide)
  | @gap gap lines t blank later ih =>
      have same := areas_blank_append (newline.append blank) ('\n' :: t)
      rw [← ih ended, ← same]
      simp
  | @line gap line lines t blank later ih =>
      have same := areas_blank_append (newline.append blank) (line ++ '\n' :: t)
      have rest := ih fun other member => ended other (List.mem_cons_of_mem line member)
      rw [List.flatMap_cons, ← rest,
        ← areas_terminated_append (ended line List.mem_cons_self), ← same]
      simp

/-- A piece has one area at most: itself, without the blanks in front of it. -/
theorem exists_of_mem_areas {a area : Text} {c : Char} (unterminated : Unterminated a)
    (terminator : isTerminator c = true) (visible : isBlank c = false)
    (unbroken : Unbroken (a ++ [c])) (member : area ∈ areas (a ++ [c])) :
    ∃ gap, Blank gap ∧ a ++ [c] = gap ++ area := by
  have shape : area = onOneLine (trim (a ++ [c])) := by
    rw [areas, segments_of_unterminated unterminated terminator, List.map_singleton,
      List.mem_filterMap] at member
    rcases member with ⟨piece, isPiece, read⟩
    rw [List.mem_singleton.mp isPiece] at read
    split at read
    · exact (Option.some.inj read).symm
    · cases read
  have line : onOneLine (trim (a ++ [c])) = trim (a ++ [c]) :=
    onOneLine_of_unbroken fun d inside => unbroken d (mem_of_mem_trim inside)
  have cut : a ++ [c] = (a ++ [c]).takeWhile isBlank ++ trimStart (a ++ [c]) :=
    List.takeWhile_append_dropWhile.symm
  have ended : trimEnd (trimStart (a ++ [c])) = trimStart (a ++ [c]) := by
    apply trimEnd_of_back
    intro d last
    have nonempty : trimStart (a ++ [c]) ≠ [] := by
      intro none
      rw [none] at last
      cases last
    have whole : (a ++ [c]).getLast? = some d := by
      rw [cut, List.getLast?_append_of_ne_nil _ nonempty, last]
    rw [List.getLast?_concat] at whole
    rwa [← Option.some.inj whole]
  refine ⟨(a ++ [c]).takeWhile isBlank, fun d inside => List.mem_takeWhile_imp inside, ?_⟩
  rw [shape, line, trim, ended]
  exact cut

end Text
end Testwright
