import Testwright.Proofs.Declaration.Action
import Testwright.Proofs.Matcher.Parted

namespace Testwright
namespace Signature

/-!
# Areas without keywords of visibility

Before an area is held against the shape of a signature, the keywords of
visibility and `final` are taken out of it.  They are words, so what this makes
of the text in front of the parameters does not depend on the parameters
(`exists_bareArea`).  If that text is a row of words, the words that are left are
the same ones without some of the modifiers in front (`exists_bare_row`).
-/

open Character (isBlank isDottedPart isNamePart)
open Lexeme (IsWord Spelled behindBlank freeFirst led near)
open Matcher (IsBlindTo Takes)
open Text (Blank)

/-! ## Parentheses part an area -/

/-- What is left of a text that stands behind other texts. -/
def bareFrom (behind behind' t : Text) : Text :=
  Matcher.finalWord.replaceAllFrom [' '] behind 0
    (Matcher.visibilityWord.replaceAllFrom [' '] behind' 0 t)

theorem bareArea_eq (area : Text) : bareArea area = ' ' :: bareFrom [] [] area := rfl

theorem mem_bareFrom {behind behind' t : Text} {c : Char} (member : c ∈ bareFrom behind behind' t) :
    c = ' ' ∨ c ∈ t := by
  rcases Matcher.mem_of_mem_replaceAllFrom member with new | inner
  · exact Or.inl (List.mem_singleton.mp new)
  · exact (Matcher.mem_of_mem_replaceAllFrom inner).imp_left List.mem_singleton.mp

section

variable {d : Char} (noName : isNamePart d = false) (shown : isBlank d = false)
include noName shown

theorem isBlindTo_visibilityWord : IsBlindTo Matcher.visibilityWord d := by
  have absent : ∀ w ∈ Visibility.keywords, d ∉ w := by
    intro w isVisibility member
    rw [(Lexeme.isKeyword_visibility w isVisibility).2 d member] at noName
    cases noName
  exact ((Matcher.isBlindTo_textStart d).orElse (Matcher.isBlindTo_one shown)).bind fun _ =>
    (Matcher.isBlindTo_anyOf absent).bind fun _ => Matcher.isBlindTo_run1 shown

theorem isBlindTo_finalWord : IsBlindTo Matcher.finalWord d := by
  have absent : d ∉ "final".toList := by
    intro member
    rw [(Lexeme.isKeyword_final _ List.mem_cons_self).2 d member] at noName
    cases noName
  exact (Matcher.isBlindTo_one shown).bind fun _ => (Matcher.isBlindTo_word absent).bind fun _ =>
    Matcher.isBlindTo_one shown

theorem exists_bareFrom (behind behind' s t : Text) : ∃ later later',
    bareFrom behind behind' (s ++ d :: t) =
      bareFrom behind behind' s ++ d :: bareFrom later later' t := by
  have takesSome : ∀ s, IsKeywordPart s → s ≠ [] := fun _ part => part.1
  have first := Matcher.replaceAllFrom_parted (isBlindTo_visibilityWord noName shown)
    (takes_visibilityWord.consumes takesSome) [' '] behind' s t
  have second := Matcher.replaceAllFrom_parted (isBlindTo_finalWord noName shown)
    (takes_finalWord.consumes takesSome) [' '] behind
  exact ⟨_, _, by rw [bareFrom, first, second]; rfl⟩

end

/-- The parts of an area stay apart, and only what stands in front of the
parameters decides what comes of it. -/
theorem exists_bareArea (front arguments : Text) {gap : Text} {last : Char} (blank : Blank gap)
    (ends : last = '\x7b' ∨ last = ';') :
    ∃ arguments' gap', bareArea (front ++ '(' :: (arguments ++ ')' :: (gap ++ [last]))) =
      bareArea front ++ '(' :: (arguments' ++ ')' :: (gap' ++ [last])) ∧
      (∀ c ∈ arguments', c = ' ' ∨ c ∈ arguments) ∧ Blank gap' := by
  have marks : ∀ d ∈ ['(', ')', '\x7b', ';'], isNamePart d = false ∧ isBlank d = false := by decide
  obtain ⟨lastMark, lastShown⟩ := marks last (by rcases ends with rfl | rfl <;> simp)
  obtain ⟨x, x', opened⟩ :=
    exists_bareFrom (marks '(' (by simp)).1 (marks '(' (by simp)).2 [] [] front
    (arguments ++ ')' :: (gap ++ [last]))
  obtain ⟨y, y', closed⟩ :=
    exists_bareFrom (marks ')' (by simp)).1 (marks ')' (by simp)).2 x x' arguments
    (gap ++ [last])
  obtain ⟨z, z', ended⟩ := exists_bareFrom lastMark lastShown y y' gap []
  refine ⟨bareFrom x x' arguments, bareFrom y y' gap, ?_, fun c => mem_bareFrom, fun c member => ?_⟩
  · rw [bareArea_eq, opened, closed, ended]
    rfl
  · rcases mem_bareFrom member with rfl | inGap
    · decide
    · exact blank c inGap

/-! ## Rows of words -/

/-- A word that no reader takes out. -/
structure IsKept (w : Text) : Prop where
  word : IsWord (near w)
  notVisibility : w ∉ Visibility.keywords
  notFinal : w ≠ "final".toList

theorem words_of_spelled {words : List Text} (visible : ∀ x ∈ words, x ≠ [] ∧ Text.Visible x)
    {t : Text} (spelled : Spelled (words.map behindBlank) t) : Text.words t = words := by
  induction words generalizing t with
  | nil =>
      cases spelled
      rfl
  | cons x words ih =>
      obtain ⟨gap, rest, rfl, blank, -, others⟩ := spelled
      obtain ⟨nonempty, seen⟩ := visible x List.mem_cons_self
      have later := ih (fun y member => visible y (List.mem_cons_of_mem x member)) others
      have parted : Text.words (x ++ rest) = x :: Text.words rest := by
        cases words with
        | nil =>
            cases others
            rw [List.append_nil, Text.words_of_visible seen nonempty]
            rfl
        | cons y words =>
            obtain ⟨gap', rest, rfl, blank', some, -⟩ := others
            rw [Text.words_append blank' (some rfl), Text.words_of_visible seen nonempty,
              Text.words_append_of_blank blank']
            rfl
      rw [Text.words_append_of_blank blank, Lexeme.behindBlank_text, parted, later]

/-- A word in front of others. -/
def rowLexemes (w : Text) (ws : List Text) : List Lexeme :=
  near w :: ws.map behindBlank

theorem led_rowLexemes (modifiers : List Text) (w : Text) (ws : List Text) :
    led modifiers (rowLexemes w ws) = (modifiers ++ w :: ws).map behindBlank := by
  simp [led, rowLexemes, Lexeme.partFirst]

section

variable {modifiers ws : List Text} {w : Text}

theorem isSound_rowLexemes (words : ∀ x ∈ w :: ws, IsWord (near x)) :
    Lexeme.IsSound (rowLexemes w ws) := by
  have chain : ∀ l, (l :: ws.map behindBlank).IsChain Lexeme.Loose := by
    clear words
    induction ws with
    | nil => exact fun l => List.isChain_singleton l
    | cons x ws ih => exact fun l => List.isChain_cons_cons.mpr ⟨Or.inl rfl, ih _⟩
  refine ⟨List.forall_mem_cons.mpr ⟨Or.inl (words w List.mem_cons_self), fun l member => ?_⟩,
    chain _⟩
  obtain ⟨x, inWords, rfl⟩ := List.mem_map.mp member
  exact Or.inl (words x (List.mem_cons_of_mem w inWords))

/-- Modifiers in front of a row of words lose the keyword of visibility and
perhaps some words `final`. -/
theorem exists_bare_row (areModifiers : ∀ x ∈ modifiers, x ∈ Declaration.modifiers)
    (single : (modifiers.filter Visibility.keywords.contains).length ≤ 1)
    (kept : ∀ x ∈ w :: ws, IsKept x) {front : Text}
    (spelled : Spelled (freeFirst (led modifiers (rowLexemes w ws)) ++ [near ['(']])
      (front ++ ['('])) :
    ∃ quals s gap, (∀ x ∈ quals, x ∈ modifiers ∧ x ∈ Matcher.qualifiers) ∧
      bareArea front = s ++ gap ∧
      Spelled (led quals (rowLexemes w ws)) s ∧ Blank gap := by
  have opening : Lexeme.IsMark (near ['(']) := ⟨by decide, by decide⟩
  have some : rowLexemes w ws ≠ [] := by simp [rowLexemes]
  have keywords : ∀ x ∈ modifiers, Lexeme.IsKeyword x := fun x member =>
    MethodForm.isKeyword_modifiers (areModifiers x member)
  have sound : Lexeme.IsSound (rowLexemes w ws ++ [near ['(']]) :=
    (isSound_rowLexemes fun x member => (kept x member).word).append_mark opening Lexeme.isSound_nil
  have texts : ∀ {P : Text → Prop}, (∀ x ∈ w :: ws, P x) → P ['('] →
      ∀ l ∈ rowLexemes w ws ++ [near ['(']], P l.text := by
    intro P inRow inMark l member
    rcases List.mem_append.mp member with inWords | last
    · rcases List.mem_cons.mp inWords with rfl | later
      · exact inRow w List.mem_cons_self
      · obtain ⟨x, isWord, rfl⟩ := List.mem_map.mp later
        exact inRow x (List.mem_cons_of_mem w isWord)
    · rw [List.mem_singleton.mp last]
      exact inMark
  rw [← Lexeme.freeFirst_append (Lexeme.led_ne_nil some),
    ← Lexeme.led_append_right _ some] at spelled
  have unseen := Lexeme.replaceAll_visibilityWord_led keywords sound (by simp)
    (texts (fun x member => (kept x member).notVisibility) (by decide)) single spelled
  have unseenKeywords : ∀ x ∈ Lexeme.unseen modifiers, Lexeme.IsKeyword x := fun x member =>
    keywords x (List.mem_of_mem_filter member)
  have soundLed := Lexeme.isSound_led unseenKeywords sound
  obtain ⟨rest, erased, inRest, -, -, someRest⟩ := Lexeme.exists_erased soundLed [] unseen
  have inBare := inRest.behind_space (someRest (Lexeme.led_ne_nil (by simp)))
  rw [Lexeme.led_append_right _ some, led_rowLexemes, List.map_append, List.append_assoc] at erased
  obtain ⟨_, _, rfl, inWords, inRow⟩ := erased.append_inv
  obtain ⟨quals, rfl, subset⟩ := MethodForm.exists_words_of_erased inWords
  have rowFree : ∀ l ∈ (w :: ws).map behindBlank ++ [near ['(']], l.text ≠ "final".toList := by
    intro l member
    rcases List.mem_append.mp member with isWord | last
    · obtain ⟨x, inWords, rfl⟩ := List.mem_map.mp isWord
      exact (kept x inWords).notFinal
    · rw [List.mem_singleton.mp last]
      decide
  rw [inRow.eq_of_free rowFree] at inBare
  have areQualifiers : ∀ x ∈ quals, x ∈ modifiers ∧ x ∈ Matcher.qualifiers := by
    intro x member
    obtain ⟨inModifiers, unseen⟩ := List.mem_filter.mp (subset x member)
    refine ⟨inModifiers,
      (List.mem_append.mp (areModifiers x inModifiers)).resolve_left fun shown => ?_⟩
    simp [shown] at unseen
  rw [← List.append_assoc, ← List.map_append, ← led_rowLexemes] at inBare
  obtain ⟨s, _, shape, inLed, last⟩ := Lexeme.spelled_append.mp inBare
  obtain ⟨gap, rfl, blank, -⟩ := Lexeme.spelled_singleton.mp last
  obtain ⟨x, x', opened⟩ := exists_bareFrom (d := '(') (by decide) (by decide) [] [] front []
  have cut : bareArea front ++ ['('] = (s ++ gap) ++ ['('] := by
    rw [List.append_assoc, ← Lexeme.near_text ['('], ← shape]
    exact (congrArg (' ' :: ·) opened).symm
  exact ⟨quals, s, gap, areQualifiers, List.append_cancel_right cut, inLed, blank⟩

end

end Signature
end Testwright
