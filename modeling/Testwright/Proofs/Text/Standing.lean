import Testwright.Matcher.Basic
import Testwright.Proofs.Text.Respacing

namespace Testwright

namespace Place

open Character (isWord)

/-- In front of a word a word edge means that no word ends there. -/
theorem atWordEdge_front_iff {c : Char} (word : isWord c = true) (x t : Text) :
    atWordEdge ⟨x.reverse, c :: t⟩ = true ↔ x.getLast?.any isWord = false := by
  simp [atWordEdge, word, List.head?_reverse]

/-- Behind a word a word edge means that no word begins there. -/
theorem atWordEdge_back_iff {c : Char} (word : isWord c = true) (x t : Text) :
    atWordEdge ⟨c :: x, t⟩ = true ↔ t.head?.any isWord = false := by
  simp [atWordEdge, word]

end Place

namespace Text

/-!
# Texts that stand between word edges

`StandsIn P t` says that a text with the property `P` stands in `t` with no
character of a word on either side.  Where `t` is cut at a character that is in no
such text, it stands in one of the parts.  `BeginsIn P t` asks for the word edge in front
only, so that anything may follow.
-/

open Character (isBlank isWord)

/-- A text with the property stands in `t`, with word edges around it. -/
def StandsIn (P : Text → Prop) (t : Text) : Prop :=
  ∃ x s y, t = x ++ (s ++ y) ∧ P s ∧ x.getLast?.any isWord = false ∧ y.head?.any isWord = false

variable {P : Text → Prop} {a b : Text} {c : Char}

theorem not_word_last_of_append_cons {v : Text} (h : (a ++ c :: v).getLast?.any isWord = false) :
    v.getLast?.any isWord = false := by
  rw [any_getLast?_append_cons] at h
  split at h
  · simp [*]
  · exact h

theorem StandsIn.append_cons (h : StandsIn P a) (other : isWord c = false) (b : Text) :
    StandsIn P (a ++ c :: b) := by
  rcases h with ⟨x, s, y, rfl, holds, before, behind⟩
  refine ⟨x, s, y ++ c :: b, by simp, holds, before, ?_⟩
  cases y with
  | nil => exact other
  | cons d y => exact behind

theorem StandsIn.cons_append (h : StandsIn P b) (other : isWord c = false) (a : Text) :
    StandsIn P (a ++ c :: b) := by
  rcases h with ⟨x, s, y, rfl, holds, before, behind⟩
  refine ⟨a ++ c :: x, s, y, by simp, holds, ?_, behind⟩
  rw [any_getLast?_append_cons]
  split
  · exact other
  · exact before

theorem not_word_last_of_append (h : (a ++ b).getLast?.any isWord = false) :
    b.getLast?.any isWord = false := by
  cases b with
  | nil => rfl
  | cons c b =>
      rwa [List.getLast?_append, List.getLast?_cons, Option.some_or, ← List.getLast?_cons] at h

theorem not_word_last_append (front : a.getLast?.any isWord = false)
    (back : b.getLast?.any isWord = false) :
    (a ++ b).getLast?.any isWord = false := by
  cases b with
  | nil => rwa [List.append_nil]
  | cons c b => rwa [List.getLast?_append, List.getLast?_cons, Option.some_or, ← List.getLast?_cons]

/-- What stands in a text stands in one part of it, if it lacks the character at the
cut. -/
theorem standsIn_append_cons_iff (lacks : ∀ s, P s → s ≠ [] ∧ c ∉ s) (other : isWord c = false) :
    StandsIn P (a ++ c :: b) ↔ StandsIn P a ∨ StandsIn P b := by
  constructor
  · rintro ⟨x, s, y, whole, holds, before, behind⟩
    rcases exists_side (lacks s holds).2 (lacks s holds).1 whole.symm with
      ⟨v, rfl, rfl⟩ | ⟨v, rfl, rfl⟩
    · refine Or.inl ⟨x, s, v, rfl, holds, before, ?_⟩
      cases v with
      | nil => rfl
      | cons d v => exact behind
    · exact Or.inr ⟨v, s, y, rfl, holds, not_word_last_of_append_cons before, behind⟩
  · rintro (inFront | inBack)
    · exact inFront.append_cons other b
    · exact inBack.cons_append other a

/-- A text with the property begins in `t`, with a word edge in front of it. -/
def BeginsIn (P : Text → Prop) (t : Text) : Prop :=
  ∃ x s y, t = x ++ (s ++ y) ∧ P s ∧ x.getLast?.any isWord = false

variable {t t' : Text}

theorem BeginsIn.append_right (h : BeginsIn P t) (u : Text) : BeginsIn P (t ++ u) := by
  rcases h with ⟨x, s, y, rfl, holds, edge⟩
  exact ⟨x, s, y ++ u, by simp, holds, edge⟩

theorem BeginsIn.append_left (h : BeginsIn P t) {u : Text} (apart : u.getLast?.any isWord = false) :
    BeginsIn P (u ++ t) := by
  rcases h with ⟨x, s, y, rfl, holds, edge⟩
  exact ⟨u ++ x, s, y, by simp, holds, not_word_last_append apart edge⟩

/-- What begins in a text cut at a character that it lacks begins in one of the parts. -/
theorem BeginsIn.of_cut (h : BeginsIn P (a ++ c :: b)) (lacks : ∀ s, P s → s ≠ [] ∧ c ∉ s) :
    BeginsIn P a ∨ BeginsIn P b := by
  rcases h with ⟨x, s, y, whole, holds, edge⟩
  rcases exists_side (lacks s holds).2 (lacks s holds).1 whole.symm with ⟨v, rfl, -⟩ | ⟨v, rfl, rfl⟩
  · exact Or.inl ⟨x, s, v, rfl, holds, edge⟩
  · exact Or.inr ⟨v, s, y, rfl, holds, not_word_last_of_append_cons edge⟩

/-- Nothing that opens with something visible begins in the blanks in front of a text. -/
theorem BeginsIn.of_blank_append {gap : Text} (h : BeginsIn P (gap ++ t)) (blank : Blank gap)
    (opens : ∀ s, P s → ∃ c r, s = c :: r ∧ isBlank c = false) : BeginsIn P t := by
  rcases h with ⟨x, s, y, whole, holds, edge⟩
  rcases opens s holds with ⟨c, r, rfl, visible⟩
  have absent : c ∉ gap := fun member => by
    rw [blank c member] at visible
    cases visible
  rcases exists_behind absent whole with ⟨v, rfl, rfl⟩
  exact ⟨v, c :: r, y, rfl, holds, not_word_last_of_append edge⟩

/-- Blanks may be traded for blanks, if they may in what begins there. -/
theorem BeginsIn.respaced (h : BeginsIn P t) (same : Respaced t t')
    (trades : ∀ s, P s → ∃ c r, s = c :: r ∧ isBlank c = false ∧
      ∀ y b, Respaced (r ++ y) b → ∃ r' y', b = r' ++ y' ∧ P (c :: r')) : BeginsIn P t' := by
  rcases h with ⟨x, s, y, rfl, holds, edge⟩
  rcases trades s holds with ⟨c, r, rfl, visible, trade⟩
  rcases same.exists_cut visible with ⟨x', b, rfl, behind, -, -, last⟩
  rcases trade y b behind with ⟨r', y', rfl, holds'⟩
  exact ⟨x', c :: r', y', rfl, holds', by rwa [last]⟩

end Text
end Testwright
