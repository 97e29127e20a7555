import Mathlib.Data.List.Basic
import Testwright.Proofs.Text.Lines

namespace Testwright

/-!
# The ways of breaking lines

A text breaks its lines in one way if it has no carriage return, or if each line feed of
it stands behind one (`BreakStyle.Holds`).  Texts of one way put together are such a
text, and the parts of one are such texts unless the cut parts a carriage return from
its line feed.  So a stretch goes in or comes out at every other place (`Holds.insert`,
`Holds.remove`), and a text may be rewritten line by line where each line keeps its
ending (`Line.IsEndedBy`).
-/

open Text (Unbroken)

inductive BreakStyle where
  /-- There is no carriage return. -/
  | feeds
  /-- Each line feed stands behind a carriage return. -/
  | pairs

namespace BreakStyle

/-- What a line ends with. -/
def separator : BreakStyle → Text
  | feeds => ['\n']
  | pairs => ['\r', '\n']

/-- The text breaks its lines in this way. -/
def Holds : BreakStyle → Text → Prop
  | feeds, t => '\r' ∉ t
  | pairs, t => ∀ a b, t = a ++ '\n' :: b → a.getLast? = some '\r'

/-- A character that may stand anywhere in a line. -/
def isInline : BreakStyle → Char → Bool
  | feeds, c => c != '\n' && c != '\r'
  | pairs, c => c != '\n'

theorem ne_feed_of_isInline {breaks : BreakStyle} {c : Char} (inLine : breaks.isInline c = true) :
    c ≠ '\n' := by
  cases breaks <;> simp_all [isInline]

theorem isInline_of_unbroken {t : Text} (unbroken : Unbroken t) (breaks : BreakStyle) :
    ∀ c ∈ t, breaks.isInline c = true := by
  intro c member
  cases breaks <;> simp [isInline, unbroken c member]

variable {breaks : BreakStyle} {a b s t : Text}

theorem holds_of_isInline (inLine : ∀ c ∈ t, breaks.isInline c = true) : breaks.Holds t := by
  have noFeed : '\n' ∉ t := fun member => ne_feed_of_isInline (inLine '\n' member) rfl
  cases breaks with
  | feeds => exact fun member => absurd (inLine '\r' member) (by decide)
  | pairs =>
      rintro a b rfl
      exact absurd (by simp) noFeed

theorem holds_of_unbroken (unbroken : Unbroken t) : breaks.Holds t :=
  holds_of_isInline (isInline_of_unbroken unbroken breaks)

theorem holds_nil : breaks.Holds [] :=
  holds_of_unbroken fun _ member => absurd member List.not_mem_nil

/-! ## Putting together -/

theorem Holds.append (first : breaks.Holds a) (second : breaks.Holds b) :
    breaks.Holds (a ++ b) := by
  cases breaks with
  | feeds => exact fun member => (List.mem_append.mp member).elim first second
  | pairs =>
      intro x y cut
      rcases List.append_eq_append_iff.mp cut with ⟨u, rfl, rest⟩ | ⟨u, rfl, rest⟩
      · rcases List.eq_nil_or_concat u with rfl | ⟨u, c, rfl⟩
        · exact absurd (second [] y (by simpa using rest)) (by simp)
        · rw [List.getLast?_append_of_ne_nil _ (by simp)]
          exact second _ y rest
      · cases u with
        | nil => exact absurd (second [] y rest.symm) (by simp)
        | cons c u =>
            rcases List.cons.inj rest with ⟨rfl, -⟩
            exact first x u rfl

theorem holds_separator : breaks.Holds breaks.separator := by
  cases breaks with
  | feeds => exact (by decide : '\r' ∉ ['\n'])
  | pairs =>
      intro a b cut
      have absent : '\n' ∉ ['\r'] := by decide
      rcases Text.exists_behind absent (show ['\r'] ++ ['\n'] = a ++ '\n' :: b from cut) with
        ⟨u, rfl, rest⟩
      cases u with
      | nil => rfl
      | cons c u => simp at rest

theorem holds_flatMap {α : Type} {f : α → Text} {values : List α}
    (each : ∀ value ∈ values, breaks.Holds (f value)) :
    breaks.Holds (values.flatMap f) := by
  induction values with
  | nil => exact holds_nil
  | cons value values ih =>
      have others := ih fun other member => each other (List.mem_cons_of_mem value member)
      exact (each value List.mem_cons_self).append others

theorem holds_joinLines {lines : List Text} (unbroken : ∀ line ∈ lines, Unbroken line) :
    breaks.Holds (TestPlan.joinLines breaks.separator lines) :=
  holds_flatMap fun line member => (holds_of_unbroken (unbroken line member)).append holds_separator

/-! ## Cutting -/

theorem Holds.left (h : breaks.Holds (a ++ b)) : breaks.Holds a := by
  cases breaks with
  | feeds => exact fun member => h (List.mem_append_left b member)
  | pairs =>
      rintro x y rfl
      exact h x (y ++ b) (by simp)

theorem Holds.right (h : breaks.Holds (a ++ b))
    (apart : a.getLast? = some '\r' → b.head? ≠ some '\n') :
    breaks.Holds b := by
  cases breaks with
  | feeds => exact fun member => h (List.mem_append_right a member)
  | pairs =>
      rintro x y rfl
      have last := h (a ++ x) y (by simp)
      cases x with
      | nil => exact absurd rfl (apart (by simpa using last))
      | cons c x => rwa [List.getLast?_append_of_ne_nil _ (by simp)] at last

/-- A stretch is put in. -/
theorem Holds.insert (h : breaks.Holds (a ++ b))
    (apart : a.getLast? = some '\r' → b.head? ≠ some '\n') (stretch : breaks.Holds s) :
    breaks.Holds (a ++ s ++ b) :=
  (h.left.append stretch).append (h.right apart)

/-- A stretch is taken out. -/
theorem Holds.remove (h : breaks.Holds (a ++ s ++ b))
    (apart : (a ++ s).getLast? = some '\r' → b.head? ≠ some '\n') :
    breaks.Holds (a ++ b) :=
  h.left.left.append (h.right apart)

/-- The way in which a text breaks its lines is read off it. -/
theorem Holds.lineSeparator_eq (h : breaks.Holds t) (feed : '\n' ∈ t) (fallback : Text) :
    Text.lineSeparator t fallback = breaks.separator := by
  cases breaks with
  | feeds =>
      have noPair : Text.contains t ['\r', '\n'] = false :=
        Bool.eq_false_iff.mpr fun pair => h ((Text.contains_iff.mp pair).subset (by simp))
      have shown : t.any (· == '\n') = true := List.any_eq_true.mpr ⟨'\n', feed, by simp⟩
      simp [Text.lineSeparator, noPair, shown, separator]
  | pairs =>
      rcases List.append_of_mem feed with ⟨a, b, rfl⟩
      rcases List.getLast?_eq_some_iff.mp (h a b rfl) with ⟨front, rfl⟩
      have pair : Text.contains (front ++ ['\r'] ++ '\n' :: b) ['\r', '\n'] = true :=
        Text.contains_iff.mpr ⟨front, b, by simp⟩
      simp only [Text.lineSeparator, pair, if_true, separator]

end BreakStyle

/-! ## Lines -/

namespace Line

/-- No part of a line break is in the line, and a break of this way ends it or nothing. -/
structure IsEndedBy (breaks : BreakStyle) (line : Line) : Prop where
  content : ∀ c ∈ line.content, breaks.isInline c = true
  ending : line.ending = [] ∨ line.ending = breaks.separator

variable {breaks : BreakStyle}

theorem IsEndedBy.holds_ending {line : Line} (h : line.IsEndedBy breaks) :
    breaks.Holds line.ending := by
  rcases h.ending with none | ends
  · rw [none]
    exact BreakStyle.holds_nil
  · rw [ends]
    exact BreakStyle.holds_separator

theorem IsEndedBy.holds {line : Line} (h : line.IsEndedBy breaks) : breaks.Holds line.text :=
  (BreakStyle.holds_of_isInline h.content).append h.holds_ending

theorem holds_texts {lines : List Line} (each : ∀ line ∈ lines, line.IsEndedBy breaks) :
    breaks.Holds (texts lines) :=
  BreakStyle.holds_flatMap fun line member => (each line member).holds

/-- The lines of a text that breaks them in one way. -/
theorem isEndedBy_of_mem_ofText {t : Text} (h : breaks.Holds t) :
    ∀ line ∈ ofText t, line.IsEndedBy breaks := by
  have inFront : ∀ {c : Char} {u : Text}, breaks.Holds (c :: u) → c ≠ '\n' →
      breaks.isInline c = true := by
    intro c u whole noFeed
    cases breaks with
    | feeds =>
        have noReturn : c ≠ '\r' := fun same => whole (same ▸ List.mem_cons_self)
        simp [BreakStyle.isInline, noFeed, noReturn]
    | pairs => simp [BreakStyle.isInline, noFeed]
  fun_induction ofText t with
  | case1 => simp
  | case2 t ih =>
      have tail := h.right (a := ['\n']) (by simp)
      refine List.forall_mem_cons.mpr ⟨⟨by simp, .inr ?_⟩, ih tail⟩
      cases breaks with
      | feeds => rfl
      | pairs => exact absurd (h [] t rfl) (by simp)
  | case3 t ih =>
      have tail := h.right (a := ['\r', '\n']) (by simp)
      refine List.forall_mem_cons.mpr ⟨⟨by simp, .inr ?_⟩, ih tail⟩
      cases breaks with
      | feeds => exact absurd (by simp) h
      | pairs => rfl
  | case4 c t noFeed noReturn empty ih =>
      exact List.forall_mem_singleton.mpr
        ⟨List.forall_mem_singleton.mpr (inFront h noFeed), .inl rfl⟩
  | case5 c t noFeed noReturn line lines found ih =>
      have tail := h.right (a := [c]) fun isReturn begins => by
        rcases List.head?_eq_some_iff.mp begins with ⟨rest, rfl⟩
        exact noReturn rest (by simpa using isReturn) rfl
      rw [found] at ih
      have later := List.forall_mem_cons.mp (ih tail)
      exact List.forall_mem_cons.mpr
        ⟨⟨List.forall_mem_cons.mpr ⟨inFront h noFeed, later.1.content⟩, later.1.ending⟩, later.2⟩

end Line
end Testwright
