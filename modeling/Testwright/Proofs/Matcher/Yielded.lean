import Testwright.Proofs.Matcher.Taken

namespace Testwright
namespace Matcher

/-!
# What a reading yields

`Takes` bounds the text of a reading and forgets its value.  `Yields` keeps the
two together: it is what says that a part of a pattern was read from just this
piece of the text.
-/

variable {α β : Type} {m : Matcher α} {P : Text → Prop} {R : α → Text → Prop}

/-- Every reading takes a text to which its value is related. -/
def Yields (m : Matcher α) (R : α → Text → Prop) : Prop :=
  ∀ place, ∀ reading ∈ m place, ∃ s, R reading.1 s ∧ place.ahead = s ++ reading.2.ahead ∧
    reading.2.behind = s.reverse ++ place.behind

theorem Takes.yields (h : Takes m P) : Yields m fun _ s => P s := h

theorem Yields.mono {S : α → Text → Prop} (h : Yields m R)
    (imp : ∀ value s, R value s → S value s) :
    Yields m S := by
  intro place reading member
  obtain ⟨s, related, rest⟩ := h place reading member
  exact ⟨s, imp reading.1 s related, rest⟩

theorem Yields.takes (h : Yields m R) (imp : ∀ value s, R value s → P s) : Takes m P :=
  h.mono imp

theorem yields_pure (value : α) : Yields (pure value) fun found s => found = value ∧ s = [] := by
  intro place reading member
  simp only [pure_apply, List.mem_singleton] at member
  exact ⟨[], by simp [member], by simp [member], by simp [member]⟩

theorem Yields.bind {next : α → Matcher β} {S : α → β → Text → Prop} (first : Yields m R)
    (second : ∀ value, Yields (next value) (S value)) :
    Yields (m >>= next) fun found s => ∃ value a b, s = a ++ b ∧ R value a ∧ S value found b := by
  intro place reading member
  obtain ⟨between, before, after⟩ := List.mem_flatMap.mp member
  obtain ⟨a, related, aheadA, behindA⟩ := first place between before
  obtain ⟨b, related', aheadB, behindB⟩ := second between.1 between.2 reading after
  exact ⟨a ++ b, ⟨between.1, a, b, rfl, related, related'⟩, by simp [aheadA, aheadB],
    by simp [behindA, behindB]⟩

/-- The text of a stretch is what its reading took. -/
theorem Takes.yields_stretch {m : Matcher Unit} (h : Takes m P) :
    Yields (Matcher.stretch m) fun found s => found.text = s ∧ P s := by
  intro place reading member
  obtain ⟨inner, inReadings, rfl⟩ := List.mem_map.mp member
  obtain ⟨s, holds, ahead, behind⟩ := h place inner inReadings
  refine ⟨s, ⟨?_, holds⟩, ahead, behind⟩
  simp [Stretch.text, ahead]

/-- What a reader of a whole text finds is read from its start. -/
theorem Yields.of_read? (h : Yields m R) {t : Text} {value : α} (found : m.read? t = some value) :
    ∃ s rest, R value s ∧ t = s ++ rest := by
  rcases Option.map_eq_some_iff.mp found with ⟨⟨_, later⟩, first, rfl⟩
  obtain ⟨s, related, ahead, -⟩ := h (Place.start t) _ (List.mem_of_mem_head? first)
  exact ⟨s, later.ahead, related, ahead⟩

end Matcher
end Testwright
