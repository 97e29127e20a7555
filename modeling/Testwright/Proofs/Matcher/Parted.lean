import Testwright.Proofs.Matcher.Repetition
import Testwright.Proofs.Matcher.Searching
import Testwright.Proofs.Matcher.Taken

namespace Testwright
namespace Matcher

/-!
# Marks that no search looks past

A reader of words and blanks stops in front of a mark such as a parenthesis, so
nothing that it reads depends on what stands from the mark on (`IsBlindTo`).  A
replacement of all that such a reader finds works on the two sides of the mark
one after the other.
-/

variable {α β : Type} {m : Matcher α} {d : Char}

/-- The readings of a text do not depend on what stands from the mark on. -/
def IsBlindTo (m : Matcher α) (d : Char) : Prop :=
  ∀ behind s t, m ⟨behind, s ++ d :: t⟩ =
    (m ⟨behind, s⟩).map fun reading => (reading.1, ⟨reading.2.behind, reading.2.ahead ++ d :: t⟩)

theorem isBlindTo_pure (value : α) (d : Char) : IsBlindTo (pure value) d := fun _ _ _ => rfl

theorem IsBlindTo.bind {next : α → Matcher β} (first : IsBlindTo m d)
    (second : ∀ value, IsBlindTo (next value) d) : IsBlindTo (m >>= next) d := by
  intro behind s t
  rw [bind_apply, bind_apply, first, List.flatMap_map, List.map_flatMap]
  apply List.flatMap_congr
  intro reading _
  exact second reading.1 reading.2.behind reading.2.ahead t

theorem IsBlindTo.orElse {left right : Matcher α} (h : IsBlindTo left d) (h' : IsBlindTo right d) :
    IsBlindTo (orElse left right) d := by
  intro behind s t
  simp only [Matcher.orElse, h behind s t, h' behind s t, List.map_append]

theorem isBlindTo_textStart (d : Char) : IsBlindTo textStart d := by
  intro behind s t
  cases behind <;> rfl

theorem isBlindTo_one {accept : Char → Bool} (other : accept d = false) :
    IsBlindTo (one accept) d := by
  intro behind s t
  cases s with
  | nil => simp [other]
  | cons c s =>
      by_cases accepted : accept c <;> simp [accepted]

theorem isBlindTo_char {c : Char} (other : d ≠ c) : IsBlindTo (char c) d :=
  isBlindTo_one (by simpa using other)

theorem isBlindTo_word {w : Text} (absent : d ∉ w) : IsBlindTo (word w) d := by
  induction w with
  | nil => exact isBlindTo_pure () d
  | cons c w ih =>
      rw [List.mem_cons, not_or] at absent
      exact (isBlindTo_char absent.1).bind fun _ => ih absent.2

theorem isBlindTo_anyOf {ws : List Text} (absent : ∀ w ∈ ws, d ∉ w) : IsBlindTo (anyOf ws) d := by
  induction ws with
  | nil => exact fun _ _ _ => rfl
  | cons w ws ih =>
      exact (isBlindTo_word (absent w List.mem_cons_self)).orElse
        (ih fun w' member => absent w' (List.mem_cons_of_mem w member))

theorem isBlindTo_run {accept : Char → Bool} (other : accept d = false) :
    IsBlindTo (run accept) d := by
  intro behind s t
  have same : past accept behind (s ++ d :: t) =
      ⟨(past accept behind s).behind, (past accept behind s).ahead ++ d :: t⟩ := by
    induction s generalizing behind with
    | nil => simp [past, other]
    | cons c s ih =>
        by_cases accepted : accept c
        · simp only [List.cons_append, past, accepted, if_true, ih]
        · simp [past, accepted]
  simp [run, same]

theorem isBlindTo_run1 {accept : Char → Bool} (other : accept d = false) :
    IsBlindTo (run1 accept) d :=
  (isBlindTo_one other).bind fun _ => isBlindTo_run other

theorem Takes.consumes {P : Text → Prop} (h : Takes m P) (some : ∀ s, P s → s ≠ []) :
    Consumes m := by
  intro place reading member
  obtain ⟨s, holds, ahead, -⟩ := h place reading member
  have longer := List.length_pos_of_ne_nil (some s holds)
  rw [ahead, List.length_append]
  omega

/-- A replacement works on the two sides of the mark one after the other. -/
theorem replaceAllFrom_parted (blind : IsBlindTo m d) (consumes : Consumes m)
    (new behind s t : Text) :
    replaceAllFrom m new behind 0 (s ++ d :: t) = replaceAllFrom m new behind 0 s ++
      d :: replaceAllFrom m new (d :: (s.reverse ++ behind)) 0 t := by
  have atEnd : ∀ behind, m ⟨behind, []⟩ = [] := fun behind =>
    List.eq_nil_iff_forall_not_mem.mpr fun reading member =>
      Nat.not_lt_zero _ (consumes ⟨behind, []⟩ reading member)
  -- the characters still to be passed over are all in front of the mark
  have walk : ∀ pending, pending ≤ s.length →
      replaceAllFrom m new behind pending (s ++ d :: t) = replaceAllFrom m new behind pending s ++
        d :: replaceAllFrom m new (d :: (s.reverse ++ behind)) 0 t := by
    induction s generalizing behind with
    | nil =>
        intro pending none
        obtain rfl : pending = 0 := Nat.le_zero.mp none
        have nothing := blind behind [] t
        rw [atEnd] at nothing
        simp [replaceAllFrom, show m ⟨behind, d :: t⟩ = [] from nothing]
    | cons c s ih =>
        intro pending within
        cases pending with
        | succ pending =>
            have step := ih (c :: behind) pending (Nat.le_of_succ_le_succ within)
            simpa [replaceAllFrom] using step
        | zero =>
            have readings := blind behind (c :: s) t
            rw [List.cons_append] at readings
            cases here : m ⟨behind, c :: s⟩ with
            | nil =>
                rw [here] at readings
                have step := ih (c :: behind) 0 (Nat.zero_le _)
                simpa [replaceAllFrom, here, readings] using step
            | cons reading rest =>
                rw [here] at readings
                have pending : (s ++ d :: t).length - (reading.2.ahead ++ d :: t).length =
                    s.length - reading.2.ahead.length := by
                  simp only [List.length_append]
                  omega
                have step := ih (c :: behind) (s.length - reading.2.ahead.length) (Nat.sub_le _ _)
                simp only [List.cons_append, replaceAllFrom, here, readings, List.map_cons,
                  pending, step]
                simp
  exact walk 0 (Nat.zero_le _)

end Matcher
end Testwright
