import Testwright.Proofs.Text.Trimming
import Testwright.Text.Nesting

namespace Testwright
namespace Text

/-!
# Texts that close their angle brackets

A text is closed if, from every depth on, it comes back to the depth it started
from and has no comma outside angle brackets on the way.  Type texts are
closed.  Cutting at commas and blanks goes around a closed text.
-/

open Character (isBlank)

/-- The depth behind a text. -/
def level : Nat → Text → Nat
  | depth, [] => depth
  | depth, c :: t => level (nest depth c) t

@[simp] theorem level_nil (depth : Nat) : level depth [] = depth := rfl

@[simp] theorem level_cons (depth : Nat) (c : Char) (t : Text) :
    level depth (c :: t) = level (nest depth c) t := rfl

theorem level_append (depth : Nat) (s t : Text) :
    level depth (s ++ t) = level (level depth s) t := by
  induction s generalizing depth with
  | nil => rfl
  | cons c s ih => exact ih (nest depth c)

/-- No comma outside angle brackets. -/
def CommaFree : Nat → Text → Prop
  | _, [] => True
  | depth, c :: t => ¬ (c = ',' ∧ depth = 0) ∧ CommaFree (nest depth c) t

theorem commaFree_append {depth : Nat} {s t : Text} :
    CommaFree depth (s ++ t) ↔ CommaFree depth s ∧ CommaFree (level depth s) t := by
  induction s generalizing depth with
  | nil => simp [CommaFree]
  | cons c s ih => simp [CommaFree, ih, and_assoc]

theorem commaPieces_of_commaFree {depth : Nat} {s : Text} (free : CommaFree depth s) :
    commaPieces depth s = [s] := by
  induction s generalizing depth with
  | nil => rfl
  | cons c s ih =>
      obtain ⟨here, rest⟩ := free
      simp [commaPieces, here, ih rest]

/-- A comma outside angle brackets ends a piece. -/
theorem commaPieces_append {depth : Nat} {s : Text} (free : CommaFree depth s)
    (closed : level depth s = 0) (t : Text) :
    commaPieces depth (s ++ ',' :: t) = s :: commaPieces 0 t := by
  induction s generalizing depth with
  | nil =>
      cases closed
      simp [commaPieces]
  | cons c s ih =>
      obtain ⟨here, rest⟩ := free
      simp [commaPieces, here, ih rest closed]

/-! ## Closed texts -/

def Closed (t : Text) : Prop :=
  ∀ depth, level depth t = depth ∧ CommaFree depth t

theorem Closed.append {s t : Text} (first : Closed s) (second : Closed t) : Closed (s ++ t) := by
  intro depth
  rw [level_append, commaFree_append, (first depth).1]
  exact ⟨(second depth).1, (first depth).2, (second depth).2⟩

theorem nest_of_ne {c : Char} (notOpen : c ≠ '<') (notClose : c ≠ '>') (depth : Nat) :
    nest depth c = depth := by
  simp [nest, notOpen, notClose]

/-- A text without commas and angle brackets is closed. -/
theorem closed_of_forall {t : Text} (h : ∀ c ∈ t, c ≠ ',' ∧ c ≠ '<' ∧ c ≠ '>') : Closed t := by
  intro depth
  induction t with
  | nil => exact ⟨rfl, trivial⟩
  | cons c t ih =>
      obtain ⟨notComma, notOpen, notClose⟩ := h c List.mem_cons_self
      obtain ⟨same, free⟩ := ih fun d member => h d (List.mem_cons_of_mem c member)
      simp only [level_cons, CommaFree, nest_of_ne notOpen notClose]
      exact ⟨same, fun comma => notComma comma.1, free⟩

theorem closed_of_blank {gap : Text} (blank : Blank gap) : Closed gap := by
  apply closed_of_forall
  intro c member
  have := blank c member
  refine ⟨?_, ?_, ?_⟩
  all_goals
    rintro rfl
    exact absurd this (by decide)

/-- Inside angle brackets commas are free. -/
theorem Closed.angled {inner : List Text} (closed : ∀ piece ∈ inner, Closed piece) :
    Closed ('<' :: ([','].intercalate inner ++ ['>'])) := by
  have within : ∀ depth, level (depth + 1) ([','].intercalate inner) = depth + 1 ∧
      CommaFree (depth + 1) ([','].intercalate inner) := by
    intro depth
    induction inner with
    | nil => exact ⟨rfl, trivial⟩
    | cons first inner ih =>
        obtain ⟨same, free⟩ := closed first List.mem_cons_self (depth + 1)
        cases inner with
        | nil => simpa using ⟨same, free⟩
        | cons second inner =>
            obtain ⟨rest, restFree⟩ := ih fun piece member =>
              closed piece (List.mem_cons_of_mem first member)
            rw [intercalate_cons_of_ne_nil _ _ (by simp), level_append, commaFree_append, same]
            refine ⟨?_, free, ?_⟩
            · rw [List.singleton_append, level_cons, nest_of_ne (by decide) (by decide), rest]
            · rw [List.singleton_append, CommaFree, nest_of_ne (by decide) (by decide)]
              exact ⟨by simp, restFree⟩
  intro depth
  obtain ⟨same, free⟩ := within depth
  have opened : nest depth '<' = depth + 1 := by simp [nest]
  have closes : nest (depth + 1) '>' = depth := by simp [nest]
  rw [level_cons, opened, level_append, same]
  refine ⟨by simp [closes], by simp, ?_⟩
  rw [opened, commaFree_append, same]
  exact ⟨free, by simp, trivial⟩

/-- The pieces between the commas of closed texts are these texts. -/
theorem commaPieces_intercalate {pieces : List Text} (closed : ∀ piece ∈ pieces, Closed piece)
    (nonempty : pieces ≠ []) : commaPieces 0 ([','].intercalate pieces) = pieces := by
  induction pieces with
  | nil => exact absurd rfl nonempty
  | cons first pieces ih =>
      obtain ⟨same, free⟩ := closed first List.mem_cons_self 0
      cases pieces with
      | nil => simpa using commaPieces_of_commaFree free
      | cons second pieces =>
          have rest := ih (fun piece member => closed piece (List.mem_cons_of_mem first member))
            (by simp)
          rw [intercalate_cons_of_ne_nil _ _ (by simp), List.singleton_append,
            commaPieces_append free same, rest]

theorem topLevelPieces_intercalate {pieces : List Text} (closed : ∀ piece ∈ pieces, Closed piece)
    (nonempty : pieces ≠ []) : topLevelPieces ([','].intercalate pieces) = pieces.map trim := by
  rw [topLevelPieces, commaPieces_intercalate closed nonempty]

/-! ## The last blank -/

theorem lastTopLevelBlank?_of_visible {depth : Nat} {w : Text} (visible : Visible w) :
    lastTopLevelBlank? depth w = none := by
  induction w generalizing depth with
  | nil => rfl
  | cons c w ih =>
      have here := visible c List.mem_cons_self
      simp [lastTopLevelBlank?, here, ih fun d member => visible d (List.mem_cons_of_mem c member)]

theorem lastTopLevelBlank?_append {depth : Nat} {s t : Text} {cut : Text × Text}
    (h : lastTopLevelBlank? (level depth s) t = some cut) :
    lastTopLevelBlank? depth (s ++ t) = some (s ++ cut.1, cut.2) := by
  induction s generalizing depth with
  | nil => exact h
  | cons c s ih => simp [lastTopLevelBlank?, ih h]

/-- Behind a closed text and some blanks a word stands behind the last blank. -/
theorem lastTopLevelBlank?_of_closed {s gap w : Text} (closed : Closed s) (blank : Blank gap)
    (nonempty : gap ≠ []) (visible : Visible w) :
    ∃ gap' c, gap = gap' ++ [c] ∧
      lastTopLevelBlank? 0 (s ++ (gap ++ w)) = some (s ++ gap', c :: w) := by
  obtain ⟨gap', c, rfl⟩ : ∃ gap' c, gap = gap' ++ [c] :=
    ⟨gap.dropLast, gap.getLast nonempty, (List.dropLast_concat_getLast nonempty).symm⟩
  refine ⟨gap', c, rfl, ?_⟩
  have inside : Closed (s ++ gap') :=
    closed.append (closed_of_blank fun d member => blank d (List.mem_append_left _ member))
  have last : lastTopLevelBlank? (level 0 (s ++ gap')) (c :: w) = some ([], c :: w) := by
    rw [(inside 0).1]
    simp [lastTopLevelBlank?, lastTopLevelBlank?_of_visible visible, blank c (by simp)]
  have whole : s ++ (gap' ++ [c] ++ w) = (s ++ gap') ++ c :: w := by simp
  rw [whole, lastTopLevelBlank?_append last, List.append_nil]

end Text
end Testwright
