import Testwright.Proofs.Declaration.ClassReading
import Testwright.Proofs.Text.Standing

namespace Testwright
namespace ClassForm

/-!
# Where a class begins

A source declares a class where one of the class words, blanks and a character of a
name follow each other behind a word edge (`occursIn_className_iff`).  Other blanks leave
it so, and so do lines that are put in between.
-/

open Character (isBlank isNamePart isWord)
open Matcher (className classWords)
open Text (BeginsIn Blank Respaced Visible)

/-- A class word, blanks and the first character of a name. -/
def IsOpening (s : Text) : Prop :=
  ∃ w gap c, s = w ++ (gap ++ [c]) ∧ w ∈ classWords ∧ gap ≠ [] ∧ Blank gap ∧ isNamePart c = true

theorem occursIn_className_iff {t : Text} : className.occursIn t = true ↔ BeginsIn IsOpening t := by
  rw [Matcher.occursIn_iff]
  constructor
  · rintro ⟨x, y, rfl, some⟩
    rcases Lexeme.isOpened_className.reads _ _ some with
      ⟨edge, w, member, gap, c, r, rfl, blank, parted, named⟩
    refine ⟨x, w ++ (gap ++ [c]), r, by simp, ⟨w, gap, c, rfl, member, parted, blank, named⟩, ?_⟩
    rw [List.head?_reverse] at edge
    cases last : x.getLast? with
    | none => rfl
    | some d => exact edge d last
  · rintro ⟨x, s, y, rfl, ⟨w, gap, c, rfl, member, parted, blank, named⟩, edge⟩
    refine ⟨x, _, rfl, ?_⟩
    have first : ∀ d, x.reverse.head? = some d → isWord d = false := fun d head => by
      rw [List.head?_reverse] at head
      rw [head] at edge
      exact edge
    -- the name goes on as far as it can
    have isName : ∀ d ∈ c :: y.takeWhile isNamePart, isNamePart d = true :=
      List.forall_mem_cons.mpr ⟨named, fun d member => List.mem_takeWhile_imp member⟩
    have stops : Matcher.Stops isNamePart (y.dropWhile isNamePart) := by
      cases rest : y.dropWhile isNamePart with
      | nil => exact Matcher.stops_nil _
      | cons d r =>
          have other := List.head_dropWhile_not isNamePart (l := y) (by simp [rest])
          exact Matcher.stops_cons.mpr (by simpa [rest] using other)
    rcases reads_className member blank parted (List.cons_ne_nil _ _) isName stops first with
      ⟨_, _, reads, -⟩
    have whole : (c :: y.takeWhile isNamePart) ++ y.dropWhile isNamePart = c :: y := by
      rw [List.cons_append, List.takeWhile_append_dropWhile]
    rw [whole] at reads
    have shape : w ++ (gap ++ [c]) ++ y = w ++ (gap ++ c :: y) := by simp
    rw [shape]
    exact reads.ne_nil

variable {t t' : Text}

/-- Where a class begins, one begins when lines that open with a name are put in between:
if they part the class word from the name, theirs is the name. -/
theorem beginsIn_insert {front lines rest : Text} (ended : front.getLast?.any isWord = false)
    (opens : ∃ lead c r, lines = lead ++ c :: r ∧ Blank lead ∧ isNamePart c = true)
    (ended' : lines.getLast?.any isWord = false) (h : BeginsIn IsOpening (front ++ rest)) :
    BeginsIn IsOpening (front ++ (lines ++ rest)) := by
  have behind : BeginsIn IsOpening rest →
      BeginsIn IsOpening (front ++ (lines ++ rest)) := fun inRest =>
    (inRest.append_left ended').append_left ended
  rcases h with ⟨x, _, y, whole, ⟨w, gap, c, rfl, member, some, blank, named⟩, edge⟩
  have words := (Lexeme.isOpened_className.words w member).2
  -- no part of the class word ends the front
  have split : ∀ v k : Text, w = v ++ k → front = x ++ v → v = [] := fun v k cut front => by
    rcases List.eq_nil_or_concat v with none | ⟨v', d, rfl⟩
    · exact none
    · rw [front, List.concat_eq_append, ← List.append_assoc, List.getLast?_concat] at ended
      have word := words d (by rw [cut]; simp)
      exact absurd (word.symm.trans ended) (by decide)
  have parted : ∀ k : Text, Blank k → k ≠ [] → front = x ++ (w ++ k) →
      BeginsIn IsOpening (front ++ (lines ++ rest)) := by
    rintro k blank' some' rfl
    rcases opens with ⟨lead, d, r, rfl, blankLead, named'⟩
    refine ⟨x, w ++ ((k ++ lead) ++ [d]), r ++ rest, by simp, ?_, edge⟩
    exact ⟨w, k ++ lead, d, rfl, member, by simp [some'], blank'.append blankLead, named'⟩
  rcases List.append_eq_append_iff.mp whole with ⟨v, rfl, tails⟩ | ⟨v, shape, tails⟩
  · exact behind ⟨v, _, y, tails, ⟨w, gap, c, rfl, member, some, blank, named⟩,
      Text.not_word_last_of_append edge⟩
  · have tails' : w ++ (gap ++ c :: y) = v ++ rest := by simpa using tails
    rcases List.append_eq_append_iff.mp tails' with ⟨k, rfl, inGap⟩ | ⟨k, cut, inWord⟩
    · rcases List.append_eq_append_iff.mp inGap with ⟨k', rfl, inName⟩ | ⟨k', cut, -⟩
      · cases k' with
        | nil => exact parted gap blank some (by simpa using shape)
        | cons d k' =>
            rcases List.cons.inj inName with ⟨rfl, -⟩
            have inFront : BeginsIn IsOpening front :=
              ⟨x, w ++ (gap ++ [c]), k', by simpa using shape,
                ⟨w, gap, c, rfl, member, some, blank, named⟩, edge⟩
            exact inFront.append_right _
      · have blank' : Blank k :=
          fun d inside => blank d (by rw [cut]; exact List.mem_append_left k' inside)
        refine parted k blank' (fun none => ?_) shape
        rw [none, List.append_nil] at shape
        exact (Lexeme.isOpened_className.words w member).1 (split w [] (by simp) shape)
    · have none := split v k cut shape
      subst none
      rw [List.nil_append] at cut
      exact behind ⟨[], w ++ (gap ++ [c]), y, by rw [inWord, ← cut]; simp,
        ⟨w, gap, c, rfl, member, some, blank, named⟩, rfl⟩

theorem beginsIn_of_respaced (h : BeginsIn IsOpening t) (same : Respaced t t') :
    BeginsIn IsOpening t' := by
  refine h.respaced same ?_
  rintro _ ⟨w, gap, c, rfl, member, parted, blank, named⟩
  rcases List.exists_cons_of_ne_nil (Lexeme.isOpened_className.words w member).1 with ⟨d, w, rfl⟩
  have seen : Visible (d :: w) := fun e inside => Character.not_isBlank_of_isNamePart
    (Character.isNamePart_of_isWord ((Lexeme.isOpened_className.words _ member).2 e inside))
  refine ⟨d, w ++ (gap ++ [c]), rfl, seen d List.mem_cons_self, fun y b inner => ?_⟩
  rw [List.append_assoc, List.append_assoc] at inner
  rcases inner.exists_append (fun e inside => seen e (List.mem_cons_of_mem d inside)) with
    ⟨_, rfl, behind⟩
  have visible : Visible [c] := fun e inside => by
    rw [List.mem_singleton.mp inside]
    exact Character.not_isBlank_of_isNamePart named
  rcases behind.exists_blank_append blank visible (by simp) with ⟨gap', r, rfl, blank', empty, -⟩
  exact ⟨w ++ (gap' ++ [c]), r, by simp, d :: w, gap', c, rfl, member,
    fun none => parted (empty.mpr none), blank', named⟩

end ClassForm
end Testwright
