import Testwright.Proofs.Matcher.Reading

namespace Testwright
namespace Matcher

/-!
# What a reading takes

`Takes m P` bounds a matcher from outside: whatever it reads, at whatever place,
is a text with the property `P`.  The bound follows the constructs of a matcher,
and it is what refutes a reading, where `Reads` establishes one.  Assertions
about places take the empty text, so nothing they assert is kept here.
-/

variable {α β : Type} {P Q : Text → Prop}

/-- Every reading takes a text with the property. -/
def Takes (m : Matcher α) (P : Text → Prop) : Prop :=
  ∀ place, ∀ reading ∈ m place, ∃ s, P s ∧ place.ahead = s ++ reading.2.ahead ∧
    reading.2.behind = s.reverse ++ place.behind

theorem Takes.mono {m : Matcher α} (h : Takes m P) (imp : ∀ s, P s → Q s) : Takes m Q := by
  intro place reading member
  obtain ⟨s, holds, ahead, behind⟩ := h place reading member
  exact ⟨s, imp s holds, ahead, behind⟩

/-- A place without a text of the property ahead has no reading. -/
theorem Takes.eq_nil {m : Matcher α} (h : Takes m P) {behind ahead : Text}
    (none : ∀ s t, ahead = s ++ t → ¬ P s) : m ⟨behind, ahead⟩ = [] := by
  apply List.eq_nil_iff_forall_not_mem.mpr
  intro reading member
  obtain ⟨s, holds, cut, -⟩ := h ⟨behind, ahead⟩ reading member
  exact none s _ cut holds

/-! ## Nothing and one character -/

theorem takes_pure (value : α) : Takes (pure value) (· = []) := by
  intro place reading member
  simp only [pure_apply, List.mem_singleton] at member
  exact ⟨[], rfl, by simp [member], by simp [member]⟩

theorem mem_require {condition : Place → Bool} {place later : Place}
    (member : ((), later) ∈ require condition place) : later = place ∧ condition place = true := by
  unfold require at member
  split at member
  · exact ⟨(Prod.mk.inj (List.mem_singleton.mp member)).2, ‹_›⟩
  · exact absurd member List.not_mem_nil

theorem mem_stretch {m : Matcher Unit} {place later : Place} {found : Stretch}
    (member : (found, later) ∈ stretch m place) : ((), later) ∈ m place := by
  rcases List.mem_map.mp member with ⟨⟨_, last⟩, inside, same⟩
  rcases (Prod.mk.inj same).2 with rfl
  exact inside

theorem takes_require (condition : Place → Bool) : Takes (require condition) (· = []) := by
  intro place reading member
  simp only [require] at member
  split at member
  · simp only [List.mem_singleton] at member
    exact ⟨[], rfl, by simp [member], by simp [member]⟩
  · cases member

theorem takes_one (accept : Char → Bool) :
    Takes (one accept) fun s => ∃ c, s = [c] ∧ accept c = true := by
  rintro ⟨behind, ahead⟩ ⟨⟨⟩, later⟩ member
  obtain ⟨c, rest, rfl, accepted, rfl⟩ := mem_one.mp member
  exact ⟨[c], ⟨c, rfl, accepted⟩, rfl, rfl⟩

theorem takes_char (c : Char) : Takes (char c) (· = [c]) := by
  apply (takes_one _).mono
  rintro s ⟨d, rfl, same⟩
  rw [beq_iff_eq.mp same]

/-! ## One after another, and choices -/

theorem Takes.bind {m : Matcher α} {next : α → Matcher β} (first : Takes m P)
    (second : ∀ value, Takes (next value) Q) :
    Takes (m >>= next) fun s => ∃ a b, s = a ++ b ∧ P a ∧ Q b := by
  intro place reading member
  obtain ⟨between, before, after⟩ := List.mem_flatMap.mp member
  obtain ⟨a, holdsA, aheadA, behindA⟩ := first place between before
  obtain ⟨b, holdsB, aheadB, behindB⟩ := second between.1 between.2 reading after
  exact ⟨a ++ b, ⟨a, b, rfl, holdsA, holdsB⟩, by simp [aheadA, aheadB], by simp [behindA, behindB]⟩

/-- What is read with a matcher in front begins with what that one takes. -/
theorem Takes.exists_of_mem_bind {m : Matcher α} {next : α → Matcher β} (h : Takes m P)
    {place later : Place} {found : β} (member : (found, later) ∈ (m >>= next) place) :
    ∃ value s between, P s ∧ place.ahead = s ++ between.ahead ∧
      (found, later) ∈ next value between := by
  obtain ⟨value, between, before, after⟩ := mem_bind.mp member
  obtain ⟨s, holds, ahead, -⟩ := h place _ before
  exact ⟨value, s, between, holds, ahead, after⟩

theorem Takes.orElse {left right : Matcher α} (h : Takes left P) (h' : Takes right Q) :
    Takes (orElse left right) fun s => P s ∨ Q s := by
  intro place reading member
  rcases List.mem_append.mp member with inLeft | inRight
  · obtain ⟨s, holds, rest⟩ := h place reading inLeft
    exact ⟨s, Or.inl holds, rest⟩
  · obtain ⟨s, holds, rest⟩ := h' place reading inRight
    exact ⟨s, Or.inr holds, rest⟩

theorem Takes.maybe {m : Matcher Unit} (h : Takes m P) :
    Takes (maybe m) fun s => P s ∨ s = [] :=
  h.orElse (takes_pure ())

theorem Takes.optional {m : Matcher α} (h : Takes m P) :
    Takes (optional m) fun s => P s ∨ s = [] := by
  apply (Takes.orElse (h.bind fun value => takes_pure (some value)) (takes_pure none)).mono
  rintro s (⟨a, b, rfl, holds, rfl⟩ | empty)
  · exact Or.inl (by simpa using holds)
  · exact Or.inr empty

theorem Takes.stretch {m : Matcher Unit} (h : Takes m P) : Takes (stretch m) P := by
  intro place reading member
  obtain ⟨inner, inReadings, rfl⟩ := List.mem_map.mp member
  exact h place inner inReadings

theorem takes_word (w : Text) : Takes (word w) (· = w) := by
  induction w with
  | nil => exact takes_pure ()
  | cons c w ih =>
      apply ((takes_char c).bind fun _ => ih).mono
      rintro s ⟨a, b, rfl, rfl, rfl⟩
      rfl

theorem takes_anyOf (ws : List Text) : Takes (anyOf ws) (· ∈ ws) := by
  induction ws with
  | nil =>
      intro place reading member
      cases member
  | cons w ws ih =>
      apply ((takes_word w).orElse ih).mono
      rintro s (rfl | member)
      · exact List.mem_cons_self
      · exact List.mem_cons_of_mem w member

/-! ## Runs and repetition -/

theorem exists_past (accept : Char → Bool) (behind ahead : Text) :
    ∃ s, (∀ c ∈ s, accept c = true) ∧ ahead = s ++ (past accept behind ahead).ahead ∧
      (past accept behind ahead).behind = s.reverse ++ behind := by
  induction ahead generalizing behind with
  | nil => exact ⟨[], by simp, rfl, rfl⟩
  | cons c ahead ih =>
      simp only [past]
      split
      · next accepted =>
          obtain ⟨s, all, ahead', behind'⟩ := ih (c :: behind)
          refine ⟨c :: s, List.forall_mem_cons.mpr ⟨accepted, all⟩, ?_, by simp [behind']⟩
          rw [List.cons_append, ← ahead']
      · exact ⟨[], by simp, rfl, rfl⟩

theorem takes_run (accept : Char → Bool) :
    Takes (run accept) fun s => ∀ c ∈ s, accept c = true := by
  intro place reading member
  simp only [run, List.mem_singleton] at member
  subst member
  exact exists_past accept place.behind place.ahead

/-- Behind the longest run stands no more of it. -/
theorem stops_past (accept : Char → Bool) (behind ahead : Text) :
    Stops accept (past accept behind ahead).ahead := by
  induction ahead generalizing behind with
  | nil => rfl
  | cons c ahead ih =>
      rw [past]
      split
      · exact ih (c :: behind)
      · simpa using ‹¬ accept c = true›

theorem takes_run1 (accept : Char → Bool) :
    Takes (run1 accept) fun s => s ≠ [] ∧ ∀ c ∈ s, accept c = true := by
  apply ((takes_one accept).bind fun _ => takes_run accept).mono
  rintro s ⟨a, b, rfl, ⟨c, rfl, accepted⟩, all⟩
  exact ⟨by simp, List.forall_mem_cons.mpr ⟨accepted, all⟩⟩

theorem exists_of_mem_along {accept : Char → Bool} {behind ahead : Text} {place : Place}
    (member : place ∈ along accept behind ahead) :
    ∃ s, (∀ c ∈ s, accept c = true) ∧ ahead = s ++ place.ahead ∧
      place.behind = s.reverse ++ behind := by
  induction ahead generalizing behind with
  | nil =>
      simp only [along, List.mem_singleton] at member
      exact ⟨[], by simp, by simp [member], by simp [member]⟩
  | cons c ahead ih =>
      rcases List.mem_cons.mp member with rfl | member
      · exact ⟨[], by simp, rfl, rfl⟩
      · split at member
        · next accepted =>
            obtain ⟨s, all, ahead', behind'⟩ := ih member
            refine ⟨c :: s, List.forall_mem_cons.mpr ⟨accepted, all⟩, ?_, by simp [behind']⟩
            rw [List.cons_append, ← ahead']
        · cases member

theorem takes_runs (accept : Char → Bool) :
    Takes (runs accept) fun s => ∀ c ∈ s, accept c = true := by
  intro place reading member
  obtain ⟨later, inAlong, rfl⟩ := List.mem_map.mp member
  exact exists_of_mem_along (List.mem_reverse.mp inAlong)

theorem takes_runs1 (accept : Char → Bool) :
    Takes (runs1 accept) fun s => s ≠ [] ∧ ∀ c ∈ s, accept c = true := by
  apply ((takes_one accept).bind fun _ => takes_runs accept).mono
  rintro s ⟨a, b, rfl, ⟨c, rfl, accepted⟩, all⟩
  exact ⟨by simp, List.forall_mem_cons.mpr ⟨accepted, all⟩⟩

theorem takes_lazyRuns (accept : Char → Bool) :
    Takes (lazyRuns accept) fun s => ∀ c ∈ s, accept c = true := by
  intro place reading member
  obtain ⟨later, inAlong, rfl⟩ := List.mem_map.mp member
  exact exists_of_mem_along inAlong

theorem Takes.upTo {m : Matcher Unit} (h : Takes m P) (limit : Nat) :
    Takes (upTo m limit) fun s => ∃ rounds : List Text, s = rounds.flatten ∧ ∀ r ∈ rounds, P r := by
  induction limit with
  | zero =>
      apply (takes_pure ()).mono
      rintro s rfl
      exact ⟨[], rfl, by simp⟩
  | succ limit ih =>
      apply ((h.bind fun _ => ih).orElse (takes_pure ())).mono
      rintro s (⟨a, b, rfl, holds, rounds, rfl, all⟩ | rfl)
      · exact ⟨a :: rounds, rfl, List.forall_mem_cons.mpr ⟨holds, all⟩⟩
      · exact ⟨[], rfl, by simp⟩

/-- Rounds of a repetition follow each other. -/
theorem Takes.many {m : Matcher Unit} (h : Takes m P) :
    Takes (many m) fun s => ∃ rounds : List Text, s = rounds.flatten ∧ ∀ r ∈ rounds, P r :=
  fun place => h.upTo place.ahead.length place

end Matcher
end Testwright
