import Testwright.Proofs.Character.Classes
import Testwright.Proofs.Matcher.Searching
import Testwright.Source.Normalized

namespace Testwright
namespace Text

/-!
# Normalization of plain texts

A text is plain if no comment, literal or annotation begins in it.  Normalizing
a plain text changes its layout only (`normalize_of_isPlain`): line breaks
become line feeds, tabs become spaces, and the blanks at the end of a line go.
`tidy` is that change of layout.  Its equations are by the first character, and
what a character becomes depends on the rest only through whether the rest of
its line is empty.

Two consequences carry the proofs about declarations: a stretch of blanks in
front of a visible character stays a stretch of blanks, empty or not
(`tidy_blanks_append`), and a text is tidied piece by piece where a piece ends
with a visible character (`tidy_append`).
-/

open Character (isBlank)

/-! ## Trimming by the first character -/

theorem trimEnd_cons (c : Char) (t : Text) :
    trimEnd (c :: t) = if isBlank c ∧ trimEnd t = [] then [] else c :: trimEnd t := by
  have reversed : trimEnd t = [] ↔ t.reverse.dropWhile isBlank = [] := by
    simp [trimEnd]
  simp only [trimEnd, List.reverse_cons, List.dropWhile_append, List.isEmpty_iff,
    List.reverse_eq_nil_iff]
  by_cases rest : t.reverse.dropWhile isBlank = []
  · by_cases blank : isBlank c = true
    · simp [rest, blank]
    · simp [rest, blank]
  · simp [rest]

/-! ## Lines tidied, by the first character -/

/-- Whether the rest of a line is empty: the text is empty or begins with a line
feed. -/
def AtLineEnd (t : Text) : Prop :=
  t = [] ∨ t.head? = some '\n'

instance (t : Text) : Decidable (AtLineEnd t) :=
  inferInstanceAs (Decidable (_ ∨ _))

/-- A tab turned into a space. -/
def untab (c : Char) : Char :=
  if c = '\t' then ' ' else c

theorem untab_of_not_isBlank {c : Char} (visible : isBlank c = false) : untab c = c := by
  unfold untab
  split
  · next tab =>
      subst tab
      exact absurd visible (by decide)
  · rfl

theorem isBlank_untab (c : Char) : isBlank (untab c) = isBlank c := by
  unfold untab
  split
  · next tab =>
      subst tab
      decide
  · rfl

theorem untab_eq_newline_iff {c : Char} : untab c = '\n' ↔ c = '\n' := by
  unfold untab
  split
  · next tab =>
      subst tab
      decide
  · rfl

theorem untab_eq_slash {c : Char} (slash : untab c = '/') : c = '/' := by
  unfold untab at slash
  split at slash
  · exact absurd slash (by decide)
  · exact slash

theorem tidyLine_cons (c : Char) (line : Text) :
    tidyLine (c :: line) =
      if isBlank c ∧ tidyLine line = [] then [] else untab c :: tidyLine line := by
  change trimEnd (untab c :: line.map untab) = if isBlank c ∧ trimEnd (line.map untab) = []
    then [] else untab c :: trimEnd (line.map untab)
  rw [trimEnd_cons, isBlank_untab]

@[simp] theorem tidyLines_nil : tidyLines [] = [] := rfl

theorem splitOn_ne_nil (cut : Char → Bool) (t : Text) : splitOn cut t ≠ [] := by
  cases t with
  | nil => simp [splitOn]
  | cons c t =>
      simp only [splitOn]
      split
      · simp
      · split <;> simp

theorem not_cut_of_mem_splitOn {cut : Char → Bool} {t piece : Text} {c : Char}
    (isPiece : piece ∈ splitOn cut t) (member : c ∈ piece) : cut c = false := by
  induction t generalizing piece with
  | nil =>
      have : piece = [] := by simpa [splitOn] using isPiece
      subst this
      cases member
  | cons d t ih =>
      simp only [splitOn] at isPiece
      split at isPiece
      · rcases List.mem_cons.mp isPiece with rfl | isPiece
        · cases member
        · exact ih isPiece member
      · next notCut =>
          split at isPiece
          · next none => exact absurd none (splitOn_ne_nil cut t)
          · next first pieces found =>
              rcases List.mem_cons.mp isPiece with rfl | isPiece
              · rcases List.mem_cons.mp member with rfl | member
                · simpa using notCut
                · exact ih (by simp [found]) member
              · exact ih (by simp [found, isPiece]) member

theorem intercalate_cons_of_ne_nil {α : Type} (between first : List α) {rest : List (List α)}
    (h : rest ≠ []) :
    between.intercalate (first :: rest) = first ++ (between ++ between.intercalate rest) := by
  cases rest with
  | nil => exact absurd rfl h
  | cons second rest => simp [List.intercalate, List.intersperse]

theorem splitOn_of_not_mem {c : Char} {t : Text} (absent : c ∉ t) : splitOn (· == c) t = [t] := by
  induction t with
  | nil => rfl
  | cons d t ih =>
      simp only [List.mem_cons, not_or] at absent
      have other : (d == c) = false := by simpa using Ne.symm absent.1
      simp [splitOn, other, ih absent.2]

theorem splitOn_intercalate {c : Char} {pieces : List Text} (absent : ∀ piece ∈ pieces, c ∉ piece)
    (nonempty : pieces ≠ []) : splitOn (· == c) ([c].intercalate pieces) = pieces := by
  induction pieces with
  | nil => exact absurd rfl nonempty
  | cons piece pieces ih =>
      have first := splitOn_of_not_mem (absent piece List.mem_cons_self)
      cases pieces with
      | nil => simpa using first
      | cons second pieces =>
          have others := ih (fun p member => absent p (List.mem_cons_of_mem piece member)) (by simp)
          have cut : splitOn (· == c) (piece ++ c :: [c].intercalate (second :: pieces)) = _ :=
            splitOn_append_cons (by simp) _ _
          rw [intercalate_cons_of_ne_nil _ _ (by simp), List.singleton_append, cut, first, others]
          rfl

theorem mem_intercalate {α : Type} {between : List α} {parts : List (List α)} {value : α}
    (member : value ∈ between.intercalate parts) :
    value ∈ between ∨ ∃ part ∈ parts, value ∈ part := by
  induction parts with
  | nil => simp at member
  | cons first rest ih =>
      by_cases last : rest = []
      · exact .inr ⟨first, List.mem_cons_self, by simpa [last] using member⟩
      · rw [intercalate_cons_of_ne_nil between first last, List.mem_append,
          List.mem_append] at member
        rcases member with inFirst | inBetween | later
        · exact .inr ⟨first, List.mem_cons_self, inFirst⟩
        · exact .inl inBetween
        · rcases ih later with inBetween | ⟨part, isPart, inside⟩
          · exact .inl inBetween
          · exact .inr ⟨part, List.mem_cons_of_mem first isPart, inside⟩

theorem tidyLines_newline (t : Text) : tidyLines ('\n' :: t) = '\n' :: tidyLines t := by
  have pieces : splitOn (· == '\n') ('\n' :: t) = [] :: splitOn (· == '\n') t := by
    simp [splitOn]
  have more : (splitOn (· == '\n') t).map tidyLine ≠ [] := by
    simpa using splitOn_ne_nil _ t
  rw [tidyLines, pieces, List.map_cons, intercalate_cons_of_ne_nil _ _ more]
  rfl

theorem head_tidyLine_ne_newline {piece : Text} (noBreak : ∀ c ∈ piece, (c == '\n') = false) :
    (tidyLine piece).head? ≠ some '\n' := by
  cases piece with
  | nil => simp [tidyLine, trimEnd]
  | cons c piece =>
      rw [tidyLine_cons]
      split
      · simp
      · have : c ≠ '\n' := by simpa using noBreak c List.mem_cons_self
        simpa [untab_eq_newline_iff] using this

theorem tidyLines_cons {c : Char} (noBreak : c ≠ '\n') (t : Text) :
    tidyLines (c :: t) =
      if isBlank c ∧ AtLineEnd (tidyLines t) then tidyLines t else untab c :: tidyLines t := by
  obtain ⟨piece, pieces, cut⟩ := List.exists_cons_of_ne_nil (splitOn_ne_nil (· == '\n') t)
  have cut' : splitOn (· == '\n') (c :: t) = (c :: piece) :: pieces := by
    simp [splitOn, cut, noBreak]
  have isPiece : piece ∈ splitOn (· == '\n') t := by simp [cut]
  have clean : (tidyLine piece).head? ≠ some '\n' := by
    apply head_tidyLine_ne_newline
    intro d member
    have notBreak := not_cut_of_mem_splitOn isPiece member
    exact notBreak
  have lines : tidyLines t =
      tidyLine piece ++ (['\n'].intercalate ([] :: pieces.map tidyLine)) := by
    unfold tidyLines
    rw [cut]
    cases pieces with
    | nil => simp
    | cons second pieces => simp [List.intercalate]
  have lines' : tidyLines (c :: t) =
      tidyLine (c :: piece) ++ (['\n'].intercalate ([] :: pieces.map tidyLine)) := by
    unfold tidyLines
    rw [cut']
    cases pieces with
    | nil => simp
    | cons second pieces => simp [List.intercalate]
  have atEnd : AtLineEnd (tidyLines t) ↔ tidyLine piece = [] := by
    rw [lines]
    cases line : tidyLine piece with
    | nil =>
        cases pieces with
        | nil => simp [AtLineEnd]
        | cons second pieces => simp [AtLineEnd, List.intercalate]
    | cons d line =>
        rw [line] at clean
        simpa [AtLineEnd] using clean
  rw [lines', tidyLine_cons]
  by_cases dropped : isBlank c = true ∧ tidyLine piece = []
  · rw [if_pos dropped, if_pos ⟨dropped.1, atEnd.mpr dropped.2⟩, lines, dropped.2]
  · rw [if_neg dropped, if_neg fun both => dropped ⟨both.1, atEnd.mp both.2⟩, lines]
    rfl

/-! ## Layout made tidy -/

/-- The text with line feeds for line breaks, spaces for tabs, and no blanks at
the ends of lines. -/
def tidy (t : Text) : Text :=
  tidyLines (unifyLineBreaks t)

@[simp] theorem tidy_nil : tidy [] = [] := rfl

theorem tidy_newline (t : Text) : tidy ('\n' :: t) = '\n' :: tidy t := by
  have unified : unifyLineBreaks ('\n' :: t) = '\n' :: unifyLineBreaks t := by
    simp [unifyLineBreaks]
  rw [tidy, unified, tidyLines_newline]
  rfl

theorem tidy_return_newline (t : Text) : tidy ('\r' :: '\n' :: t) = '\n' :: tidy t := by
  have unified : unifyLineBreaks ('\r' :: '\n' :: t) = '\n' :: unifyLineBreaks t := by
    simp [unifyLineBreaks]
  rw [tidy, unified, tidyLines_newline]
  rfl

theorem tidy_return {t : Text} (alone : t.head? ≠ some '\n') :
    tidy ('\r' :: t) = '\n' :: tidy t := by
  have unified : unifyLineBreaks ('\r' :: t) = '\n' :: unifyLineBreaks t := by
    rw [unifyLineBreaks.eq_3]
    rintro rest rfl
    exact alone rfl
  rw [tidy, unified, tidyLines_newline]
  rfl

theorem unifyLineBreaks_cons {c : Char} (notReturn : c ≠ '\r') (t : Text) :
    unifyLineBreaks (c :: t) = c :: unifyLineBreaks t := by
  rw [unifyLineBreaks.eq_4]
  · rintro rest rfl
    exact absurd rfl notReturn
  · rintro rfl
    exact absurd rfl notReturn

theorem tidy_cons {c : Char} (notBreak : c ≠ '\n') (notReturn : c ≠ '\r') (t : Text) :
    tidy (c :: t) = if isBlank c ∧ AtLineEnd (tidy t) then tidy t else untab c :: tidy t := by
  rw [tidy, unifyLineBreaks_cons notReturn, tidyLines_cons notBreak]
  rfl

theorem head_ne_of_forall {t : Text} {c : Char} (h : ∀ rest, t = c :: rest → False) :
    t.head? ≠ some c := by
  cases t with
  | nil => simp
  | cons d t =>
      have : d ≠ c := fun same => h t (by rw [same])
      simpa using this

/-- Induction on a text by its first character, where a carriage return goes
with the line feed behind it. -/
theorem induction_on_breaks {motive : Text → Prop} (nil : motive [])
    (pair : ∀ t, motive t → motive ('\r' :: '\n' :: t))
    (lone : ∀ t, t.head? ≠ some '\n' → motive t → motive ('\r' :: t))
    (feed : ∀ t, motive t → motive ('\n' :: t))
    (other : ∀ c t, c ≠ '\n' → c ≠ '\r' → motive t → motive (c :: t)) (t : Text) : motive t := by
  fun_induction unifyLineBreaks t with
  | case1 => exact nil
  | case2 t ih => exact pair t ih
  | case3 t alone ih => exact lone t (head_ne_of_forall alone) ih
  | case4 c t _ notReturn ih =>
      by_cases newline : c = '\n'
      · subst newline
        exact feed t ih
      · exact other c t newline notReturn ih

/-- A visible character stays as it is. -/
theorem tidy_visible {c : Char} (visible : isBlank c = false) (t : Text) :
    tidy (c :: t) = c :: tidy t := by
  have notBreak : c ≠ '\n' := by
    rintro rfl
    exact absurd visible (by decide)
  have notReturn : c ≠ '\r' := by
    rintro rfl
    exact absurd visible (by decide)
  rw [tidy_cons notBreak notReturn, if_neg (by simp [visible]), untab_of_not_isBlank visible]

theorem tidy_visible_append {s : Text} (visible : ∀ c ∈ s, isBlank c = false) (t : Text) :
    tidy (s ++ t) = s ++ tidy t := by
  induction s with
  | nil => rfl
  | cons c s ih =>
      rw [List.cons_append, tidy_visible (visible c List.mem_cons_self),
        ih fun d member => visible d (List.mem_cons_of_mem c member)]
      rfl

theorem ne_newline_of_visible {c : Char} (visible : isBlank c = false) : c ≠ '\n' := by
  rintro rfl
  exact absurd visible (by decide)

theorem ne_return_of_visible {c : Char} (visible : isBlank c = false) : c ≠ '\r' := by
  rintro rfl
  exact absurd visible (by decide)

theorem head_append_ne_newline {a : Text} (alone : a.head? ≠ some '\n') {c : Char}
    (visible : isBlank c = false) (b : Text) : (a ++ c :: b).head? ≠ some '\n' := by
  cases a with
  | nil => simpa using ne_newline_of_visible visible
  | cons d a => simpa using alone

/-- Visible characters survive. -/
theorem mem_tidy_of_visible {c : Char} (visible : isBlank c = false) {t : Text} (member : c ∈ t) :
    c ∈ tidy t := by
  induction t using induction_on_breaks with
  | nil => cases member
  | pair t ih =>
      rw [tidy_return_newline]
      have inRest : c ∈ t := by
        simpa [ne_newline_of_visible visible, ne_return_of_visible visible] using member
      exact List.mem_cons_of_mem _ (ih inRest)
  | lone t alone ih =>
      rw [tidy_return alone]
      have inRest : c ∈ t := by simpa [ne_return_of_visible visible] using member
      exact List.mem_cons_of_mem _ (ih inRest)
  | feed t ih =>
      rw [tidy_newline]
      have inRest : c ∈ t := by simpa [ne_newline_of_visible visible] using member
      exact List.mem_cons_of_mem _ (ih inRest)
  | other d t notBreak notReturn ih =>
      rcases List.mem_cons.mp member with rfl | inRest
      · rw [tidy_visible visible]
        exact List.mem_cons_self
      · rw [tidy_cons notBreak notReturn]
        split
        · exact ih inRest
        · exact List.mem_cons_of_mem _ (ih inRest)

/-- Tidying makes nothing visible. -/
theorem blank_tidy {t : Text} (blank : ∀ c ∈ t, isBlank c = true) :
    ∀ c ∈ tidy t, isBlank c = true := by
  induction t using induction_on_breaks with
  | nil => simp
  | pair t ih =>
      rw [tidy_return_newline]
      exact List.forall_mem_cons.mpr ⟨by decide, ih fun c member =>
        blank c (List.mem_cons_of_mem _ (List.mem_cons_of_mem _ member))⟩
  | lone t alone ih =>
      rw [tidy_return alone]
      exact List.forall_mem_cons.mpr ⟨by decide, ih fun c member =>
        blank c (List.mem_cons_of_mem _ member)⟩
  | feed t ih =>
      rw [tidy_newline]
      exact List.forall_mem_cons.mpr ⟨by decide, ih fun c member =>
        blank c (List.mem_cons_of_mem _ member)⟩
  | other d t notBreak notReturn ih =>
      have rest := ih fun c member => blank c (List.mem_cons_of_mem _ member)
      rw [tidy_cons notBreak notReturn]
      split
      · exact rest
      · exact List.forall_mem_cons.mpr ⟨(isBlank_untab d).trans (blank d List.mem_cons_self), rest⟩

/-- A visible character at the end of a text stays there. -/
theorem exists_tidy_concat (t : Text) {c : Char} (visible : isBlank c = false) :
    ∃ s, tidy (t ++ [c]) = s ++ [c] := by
  induction t using induction_on_breaks with
  | nil => exact ⟨[], tidy_visible visible []⟩
  | pair t ih =>
      obtain ⟨s, same⟩ := ih
      exact ⟨'\n' :: s, by rw [List.cons_append, List.cons_append, tidy_return_newline, same]; rfl⟩
  | lone t alone ih =>
      obtain ⟨s, same⟩ := ih
      exact ⟨'\n' :: s, by
        rw [List.cons_append, tidy_return (head_append_ne_newline alone visible []), same]; rfl⟩
  | feed t ih =>
      obtain ⟨s, same⟩ := ih
      exact ⟨'\n' :: s, by rw [List.cons_append, tidy_newline, same]; rfl⟩
  | other d t notBreak notReturn ih =>
      obtain ⟨s, same⟩ := ih
      rw [List.cons_append, tidy_cons notBreak notReturn, same]
      split
      · exact ⟨s, rfl⟩
      · exact ⟨untab d :: s, rfl⟩

theorem not_atLineEnd_of_visible {c : Char} (visible : isBlank c = false) (t : Text) :
    ¬ AtLineEnd (c :: t) := by
  rintro (impossible | impossible)
  · cases impossible
  · exact ne_newline_of_visible visible (by simpa using impossible)

/-- Blanks in front of a visible character stay blanks, and some of them stay if
there are any. -/
theorem tidy_blanks_append {gap : Text} (blank : ∀ c ∈ gap, isBlank c = true) {c : Char}
    (visible : isBlank c = false) (t : Text) :
    ∃ gap', tidy (gap ++ c :: t) = gap' ++ tidy (c :: t) ∧ (∀ d ∈ gap', isBlank d = true) ∧
      (gap ≠ [] → gap' ≠ []) := by
  induction gap using induction_on_breaks with
  | nil => exact ⟨[], rfl, by simp, by simp⟩
  | pair gap ih =>
      have blank' : ∀ d ∈ gap, isBlank d = true := fun d member =>
        blank d (List.mem_cons_of_mem _ (List.mem_cons_of_mem _ member))
      obtain ⟨gap', same, stay, -⟩ := ih blank'
      refine ⟨'\n' :: gap', ?_, List.forall_mem_cons.mpr ⟨by decide, stay⟩, by simp⟩
      rw [List.cons_append, List.cons_append, tidy_return_newline, same]
      rfl
  | lone gap alone ih =>
      obtain ⟨gap', same, stay, -⟩ := ih fun d member => blank d (List.mem_cons_of_mem _ member)
      refine ⟨'\n' :: gap', ?_, List.forall_mem_cons.mpr ⟨by decide, stay⟩, by simp⟩
      rw [List.cons_append, tidy_return (head_append_ne_newline alone visible t), same]
      rfl
  | feed gap ih =>
      obtain ⟨gap', same, stay, -⟩ := ih fun d member => blank d (List.mem_cons_of_mem _ member)
      exact ⟨'\n' :: gap', by rw [List.cons_append, tidy_newline, same]; rfl,
        List.forall_mem_cons.mpr ⟨by decide, stay⟩, by simp⟩
  | other d gap notBreak notReturn ih =>
      obtain ⟨gap', same, stay, some⟩ := ih fun e member => blank e (List.mem_cons_of_mem _ member)
      rw [List.cons_append, tidy_cons notBreak notReturn, same]
      split
      · next dropped =>
          refine ⟨gap', rfl, stay, fun _ none => ?_⟩
          rw [none, List.nil_append, tidy_visible visible] at dropped
          exact not_atLineEnd_of_visible visible _ dropped.2
      · refine ⟨untab d :: gap', rfl, List.forall_mem_cons.mpr ⟨?_, stay⟩, by simp⟩
        rw [isBlank_untab]
        exact blank d List.mem_cons_self

/-- A text is tidied piece by piece where a piece ends with a visible
character. -/
theorem tidy_append (a : Text) {c : Char} (visible : isBlank c = false) (b : Text) :
    tidy (a ++ c :: b) = tidy (a ++ [c]) ++ tidy b := by
  induction a using induction_on_breaks with
  | nil => simp [tidy_visible visible]
  | pair a ih => simp only [List.cons_append, tidy_return_newline, ih]
  | lone a alone ih =>
      rw [List.cons_append, List.cons_append, tidy_return (head_append_ne_newline alone visible b),
        tidy_return (head_append_ne_newline alone visible []), ih]
      rfl
  | feed a ih =>
      rw [List.cons_append, List.cons_append, tidy_newline, tidy_newline, ih]
      rfl
  | other d a notBreak notReturn ih =>
      have nonempty : tidy (a ++ [c]) ≠ [] :=
        List.ne_nil_of_mem (mem_tidy_of_visible visible (by simp))
      have sameEnd : AtLineEnd (tidy (a ++ [c]) ++ tidy b) ↔ AtLineEnd (tidy (a ++ [c])) := by
        obtain ⟨e, rest, shape⟩ := List.exists_cons_of_ne_nil nonempty
        simp [AtLineEnd, shape]
      rw [List.cons_append, List.cons_append, tidy_cons notBreak notReturn,
        tidy_cons notBreak notReturn, ih]
      simp only [sameEnd]
      split <;> rfl

/-- Making tidy twice changes nothing more. -/
theorem tidy_tidy (t : Text) : tidy (tidy t) = tidy t := by
  induction t using induction_on_breaks with
  | nil => rfl
  | pair t ih => rw [tidy_return_newline, tidy_newline, ih]
  | lone t alone ih => rw [tidy_return alone, tidy_newline, ih]
  | feed t ih => rw [tidy_newline, tidy_newline, ih]
  | other c t notBreak notReturn ih =>
      rw [tidy_cons notBreak notReturn]
      split
      · exact ih
      · next kept =>
          have notReturn' : untab c ≠ '\r' := by
            unfold untab
            split
            · decide
            · exact notReturn
          have untabbed : untab (untab c) = untab c := by
            unfold untab
            split <;> simp_all
          rw [tidy_cons (by rwa [ne_eq, untab_eq_newline_iff]) notReturn', ih, isBlank_untab,
            if_neg kept, untabbed]

theorem not_mem_return_tidy (t : Text) : '\r' ∉ tidy t := by
  induction t using induction_on_breaks with
  | nil => simp
  | pair t ih => simpa [tidy_return_newline] using ih
  | lone t alone ih => simpa [tidy_return alone] using ih
  | feed t ih => simpa [tidy_newline] using ih
  | other c t notBreak notReturn ih =>
      rw [tidy_cons notBreak notReturn]
      split
      · exact ih
      · have notReturn' : '\r' ≠ untab c := by
          unfold untab
          split
          · decide
          · exact fun same => notReturn same.symm
        simpa [notReturn'] using ih

/-! ## Plain texts -/

/-- Whether no literal, annotation or comment begins in the text. -/
def isPlain : Text → Bool
  | [] => true
  | c :: t =>
      !(c == '"' || c == '\x27' || c == '@') &&
        !(c == '/' && (t.head? == some '/' || t.head? == some '*')) && isPlain t

/-- Characters that can begin no literal, annotation or comment. -/
def isSafe (c : Char) : Bool :=
  !(c == '"' || c == '\x27' || c == '@' || c == '/')

theorem isPlain_of_isSafe {t : Text} (safe : ∀ c ∈ t, isSafe c = true) : isPlain t = true := by
  induction t with
  | nil => rfl
  | cons c t ih =>
      have here := safe c List.mem_cons_self
      have rest := ih fun d member => safe d (List.mem_cons_of_mem c member)
      simp only [isSafe, Bool.not_eq_true', Bool.or_eq_false_iff] at here
      simp [isPlain, here, rest]

/-- Plain texts may be put together where the first ends with a safe
character. -/
theorem isPlain_append {a b : Text} {c : Char} (safe : isSafe c = true)
    (first : isPlain (a ++ [c]) = true) (second : isPlain b = true) :
    isPlain (a ++ c :: b) = true := by
  induction a with
  | nil =>
      simp only [isSafe, Bool.not_eq_true', Bool.or_eq_false_iff] at safe
      simp [isPlain, safe, second]
  | cons d a ih =>
      simp only [List.cons_append, isPlain, Bool.and_eq_true] at first ⊢
      refine ⟨⟨first.1.1, ?_⟩, ih first.2⟩
      have sameHead : (a ++ c :: b).head? = (a ++ [c]).head? := by cases a <;> rfl
      rw [sameHead]
      exact first.1.2

/-- A visible character that heads the tidy text heads the text. -/
theorem head_of_head_tidy {t : Text} {c : Char} (visible : isBlank c = false)
    (head : (tidy t).head? = some c) : t.head? = some c := by
  induction t using induction_on_breaks with
  | nil => exact head
  | pair t ih =>
      rw [tidy_return_newline] at head
      exact absurd (Option.some.inj head).symm (ne_newline_of_visible visible)
  | lone t alone ih =>
      rw [tidy_return alone] at head
      exact absurd (Option.some.inj head).symm (ne_newline_of_visible visible)
  | feed t ih =>
      rw [tidy_newline] at head
      exact absurd (Option.some.inj head).symm (ne_newline_of_visible visible)
  | other d t notBreak notReturn ih =>
      rw [tidy_cons notBreak notReturn] at head
      split at head
      · next dropped =>
          -- What follows a dropped blank is the end of its line.
          rcases dropped.2 with empty | lineFeed
          · rw [empty] at head
            cases head
          · rw [lineFeed] at head
            exact absurd (Option.some.inj head).symm (ne_newline_of_visible visible)
      · have same : untab d = c := by simpa using head
        have visible' : isBlank d = false := by rw [← isBlank_untab, same, visible]
        rw [← same, untab_of_not_isBlank visible']
        rfl

/-- A slash opens no comment in a text whose visible heads are heads of a text in
which it opens none. -/
theorem opensNoComment_of_imp {c d : Char} {t u : Text} (sameSlash : d = '/' → c = '/')
    (sameHead : ∀ e, isBlank e = false → u.head? = some e → t.head? = some e)
    (none : (!(c == '/' && (t.head? == some '/' || t.head? == some '*'))) = true) :
    (!(d == '/' && (u.head? == some '/' || u.head? == some '*'))) = true := by
  simp only [Bool.not_eq_true', Bool.and_eq_false_imp, beq_iff_eq, Bool.or_eq_false_iff,
    beq_eq_false_iff_ne] at none ⊢
  intro slash
  have apart := none (sameSlash slash)
  exact ⟨fun head => apart.1 (sameHead '/' (by decide) head),
    fun head => apart.2 (sameHead '*' (by decide) head)⟩

theorem isPlain_tidy {t : Text} (plain : isPlain t = true) : isPlain (tidy t) = true := by
  induction t using induction_on_breaks with
  | nil => exact plain
  | pair t ih =>
      simp only [isPlain, Bool.and_eq_true] at plain
      rw [tidy_return_newline]
      simp [isPlain, ih plain.2.2]
  | lone t alone ih =>
      simp only [isPlain, Bool.and_eq_true] at plain
      rw [tidy_return alone]
      simp [isPlain, ih plain.2]
  | feed t ih =>
      simp only [isPlain, Bool.and_eq_true] at plain
      rw [tidy_newline]
      simp [isPlain, ih plain.2]
  | other c t notBreak notReturn ih =>
      simp only [isPlain, Bool.and_eq_true] at plain
      have rest := ih plain.2
      rw [tidy_cons notBreak notReturn]
      split
      · exact rest
      · simp only [isPlain, Bool.and_eq_true]
        refine ⟨⟨?_, ?_⟩, rest⟩
        · unfold untab
          split
          · decide
          · exact plain.1.1
        · exact opensNoComment_of_imp (fun slash => untab_eq_slash slash)
            (fun d visible => head_of_head_tidy visible) plain.1.2

theorem head_of_head_unifyLineBreaks {t : Text} {c : Char} (visible : isBlank c = false)
    (head : (unifyLineBreaks t).head? = some c) : t.head? = some c := by
  cases t with
  | nil => exact head
  | cons d t =>
      by_cases isReturn : d = '\r'
      · have broken : (unifyLineBreaks (d :: t)).head? = some '\n' := by
          subst isReturn
          by_cases paired : t.head? = some '\n'
          · cases t with
            | nil => cases paired
            | cons e t =>
                obtain rfl : e = '\n' := Option.some.inj paired
                simp [unifyLineBreaks]
          · rw [unifyLineBreaks.eq_3]
            · rfl
            · rintro rest rfl
              exact paired rfl
        rw [broken] at head
        exact absurd (Option.some.inj head).symm (ne_newline_of_visible visible)
      · rwa [unifyLineBreaks_cons isReturn] at head

theorem isPlain_unifyLineBreaks {t : Text} (plain : isPlain t = true) :
    isPlain (unifyLineBreaks t) = true := by
  fun_induction unifyLineBreaks t with
  | case1 => rfl
  | case2 t ih =>
      simp only [isPlain, Bool.and_eq_true] at plain
      simp [isPlain, ih plain.2.2]
  | case3 t alone ih =>
      simp only [isPlain, Bool.and_eq_true] at plain
      simp [isPlain, ih plain.2]
  | case4 c t _ notReturn ih =>
      simp only [isPlain, Bool.and_eq_true] at plain ⊢
      exact ⟨⟨plain.1.1, opensNoComment_of_imp id
        (fun d visible => head_of_head_unifyLineBreaks visible) plain.1.2⟩, ih plain.2⟩

theorem blankOut_of_isPlain {t : Text} (plain : isPlain t = true) :
    Region.blankOut Region.code 0 t = t := by
  induction t with
  | nil => rfl
  | cons c t ih =>
      simp only [isPlain, Bool.and_eq_true] at plain
      have step : Region.stepInCode c t = ⟨[c], Region.code, 0⟩ := by
        obtain ⟨⟨opensNothing, opensNoComment⟩, -⟩ := plain
        simp only [Bool.not_eq_true', Bool.or_eq_false_iff, beq_eq_false_iff_ne] at opensNothing
        simp only [Bool.not_eq_true', Bool.and_eq_false_imp, beq_iff_eq, Bool.or_eq_false_iff,
          beq_eq_false_iff_ne] at opensNoComment
        unfold Region.stepInCode
        rw [if_neg fun comment => (opensNoComment comment.1).1 comment.2,
          if_neg fun comment => (opensNoComment comment.1).2 comment.2,
          if_neg fun quotes => opensNothing.1.1 quotes.1, if_neg opensNothing.1.1,
          if_neg opensNothing.1.2]
      rw [Region.blankOut, Region.step, step, ih plain.2]
      rfl

theorem not_mem_at_of_isPlain {t : Text} (plain : isPlain t = true) : '@' ∉ t := by
  induction t with
  | nil => simp
  | cons c t ih =>
      simp only [isPlain, Bool.and_eq_true, Bool.not_eq_true', Bool.or_eq_false_iff,
        beq_eq_false_iff_ne] at plain
      rw [List.mem_cons, not_or]
      exact ⟨fun same => plain.1.1.2 same.symm, ih plain.2⟩

theorem dropAnnotations_of_isPlain {t : Text} (plain : isPlain t = true) :
    dropAnnotations t = t := by
  apply Matcher.replaceAllFrom_of_silent
  intro x y cut _
  apply Matcher.bind_of_nil
  apply Matcher.char_of_ne
  intro head
  have inRest : '@' ∈ y := by
    rw [List.append_nil] at head
    exact List.mem_of_mem_head? head
  exact not_mem_at_of_isPlain plain (cut ▸ List.mem_append_right x inRest)

/-- Normalizing a plain text makes its layout tidy and does nothing besides. -/
theorem normalize_of_isPlain {t : Text} (plain : isPlain t = true) : normalize t = tidy t := by
  have unified := isPlain_unifyLineBreaks plain
  rw [normalize, blankOut_of_isPlain unified, dropAnnotations_of_isPlain unified]
  rfl

theorem normalize_tidy {t : Text} (plain : isPlain t = true) : normalize (tidy t) = tidy t := by
  rw [normalize_of_isPlain (isPlain_tidy plain), tidy_tidy]

end Text
end Testwright
