import Testwright.Proofs.Declaration.Lexeme
import Testwright.Proofs.Text.Depth

namespace Testwright
namespace Lexeme

/-!
# Words `final` in front

A type or a parameter may have any number of words `final` in front of it, each with a
blank behind it.  Whoever reads one takes these words off first.  What is left is a
spelling of the lexemes behind them, if none of these can be taken for the word.
-/

open Character (isBlank isNamePart)
open Text (Blank Visible)

/-- The lexemes with so many words `final` in front. -/
def behindFinals (lexemes : List Lexeme) : Nat → List Lexeme
  | 0 => lexemes
  | finals + 1 => near "final".toList :: partFirst (behindFinals lexemes finals)

/-- Lexemes that begin without a blank, and with no word `final` in any spelling. -/
structure IsUnled (lexemes : List Lexeme) : Prop where
  visible : ∀ l ∈ lexemes, l.IsVisible
  begins : ∃ first others, lexemes = near first :: others
  kept : ∀ {t : Text}, Spelled lexemes t → (∀ c, t.head? = some c → isBlank c = false) →
    Text.dropKeywords "final".toList t = t

/-- A word `final` comes off together with the blanks behind it. -/
theorem dropKeywords_final_append {gap rest : Text} (blank : Blank gap) (some : gap ≠ [])
    (front : ∀ c, rest.head? = Option.some c → isBlank c = false) :
    Text.dropKeywords "final".toList ("final".toList ++ (gap ++ rest)) =
      Text.dropKeywords "final".toList rest := by
  have layer : Text.dropKeyword? "final".toList ("final".toList ++ (gap ++ rest)) =
      Option.some rest := by
    obtain ⟨d, gap, rfl⟩ := List.exists_cons_of_ne_nil some
    have behind : Text.dropStart? "final".toList ("final".toList ++ (d :: gap ++ rest)) =
        Option.some (d :: (gap ++ rest)) :=
      Text.dropStart?_eq_some_iff.mpr rfl
    have start : Text.trimStart rest = rest := by
      cases rest with
      | nil => rfl
      | cons c rest => simp [Text.trimStart, front c rfl]
    unfold Text.dropKeyword?
    rw [behind]
    simp only [blank d List.mem_cons_self, if_true]
    rw [Text.trimStart_append fun c member => blank c (List.mem_cons_of_mem d member), start]
  unfold Text.dropKeywords
  rw [Text.peel_of_some layer (by simp; omega)]

namespace IsUnled

variable {lexemes : List Lexeme} (h : IsUnled lexemes)
include h

theorem begins_behindFinals (finals : Nat) :
    ∃ first others, behindFinals lexemes finals = near first :: others := by
  cases finals with
  | zero => exact h.begins
  | succ finals => exact ⟨_, _, rfl⟩

theorem visible_behindFinals (finals : Nat) : ∀ l ∈ behindFinals lexemes finals, l.IsVisible := by
  induction finals with
  | zero => exact h.visible
  | succ finals ih =>
      obtain ⟨first, others, shape⟩ := h.begins_behindFinals finals
      rw [shape, List.forall_mem_cons] at ih
      rw [behindFinals, shape]
      exact List.forall_mem_cons.mpr ⟨isVisible_near (by decide) (by decide),
        List.forall_mem_cons.mpr ⟨ih.1, ih.2⟩⟩

theorem front {finals : Nat} {first : Text} {others : List Lexeme}
    (shape : behindFinals lexemes finals = near first :: others) (rest : Text) :
    ∀ c, (first ++ rest).head? = some c → isBlank c = false := by
  obtain ⟨some, seen⟩ : first ≠ [] ∧ Visible first :=
    h.visible_behindFinals finals (near first) (by rw [shape]; exact List.mem_cons_self)
  intro c head
  rw [List.head?_append_of_ne_nil _ some] at head
  exact seen c (List.mem_of_mem_head? head)

/-- Without the words `final` a spelling is one of the lexemes behind them. -/
theorem spelled_dropKeywords {finals : Nat} {t : Text}
    (spelled : Spelled (behindFinals lexemes finals) t)
    (front : ∀ c, t.head? = some c → isBlank c = false) :
    Spelled lexemes (Text.dropKeywords "final".toList t) ∧
      ∀ c, (Text.dropKeywords "final".toList t).head? = some c → isBlank c = false := by
  induction finals generalizing t with
  | zero =>
      rw [h.kept spelled front]
      exact ⟨spelled, front⟩
  | succ finals ih =>
      obtain ⟨first, others, shape⟩ := h.begins_behindFinals finals
      rw [behindFinals, shape] at spelled
      obtain ⟨g, _, rfl, blankG, -, inRest⟩ := spelled
      obtain ⟨gap, rest, rfl, blank, some, inBare⟩ := Spelled.exists_behind inRest
      have bare := h.front shape rest
      rw [← shape] at inBare
      rw [blankG.eq_nil_of_front front, List.nil_append, near_text,
        dropKeywords_final_append blank some bare]
      exact ih inBare bare

/-- A text with words `final` in front is read by what is left without them. -/
theorem spelled_bare {finals : Nat} {piece : Text}
    (covers : Covers (behindFinals lexemes finals) piece) :
    Spelled lexemes (Text.trim (Text.dropKeywords "final".toList (Text.trim piece))) := by
  obtain ⟨s, gap, rfl, spelled, blank⟩ := covers
  obtain ⟨first, others, shape⟩ := h.begins_behindFinals finals
  have trimmed := spelled.trim (h.visible_behindFinals finals)
    (fun l head => by
      rw [shape, List.head?_cons, Option.some.injEq] at head
      rw [← head]
      rfl) blank
  obtain ⟨bare, front⟩ := h.spelled_dropKeywords trimmed (Text.isTrimmed_trim _).front
  have isTrimmed : Text.IsTrimmed (Text.dropKeywords "final".toList (Text.trim (s ++ gap))) :=
    ⟨front, bare.back h.visible⟩
  rwa [isTrimmed.trim_eq]

end IsUnled

/-- What is closed for each spelling of the lexemes is closed with words `final` in front. -/
theorem closed_behindFinals {lexemes : List Lexeme}
    (closed : ∀ {t : Text}, Spelled lexemes t → Text.Closed t) {finals : Nat} {piece : Text}
    (covers : Covers (behindFinals lexemes finals) piece) : Text.Closed piece := by
  obtain ⟨s, gap, rfl, spelled, blank⟩ := covers
  refine Text.Closed.append ?_ (Text.closed_of_blank blank)
  clear blank
  induction finals generalizing s with
  | zero => exact closed spelled
  | succ finals ih =>
      obtain ⟨g, rest, rfl, blankG, -, inRest⟩ := spelled
      have closedFinal : Text.Closed "final".toList := Text.closed_of_forall (by decide)
      exact (Text.closed_of_blank blankG).append (closedFinal.append (ih rest inRest.of_part_first))

end Lexeme
end Testwright
