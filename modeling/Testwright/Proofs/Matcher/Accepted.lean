import Testwright.Proofs.Matcher.Repetition

namespace Testwright
namespace Matcher

/-!
# What a pattern accepts

A text is accepted by a matcher if some reading takes just that text, wherever
it stands.  The reading need not be the preferred one, which is all that a
search needs that only asks whether a pattern occurs.  So no run has to stop
where the pattern would have it stop, and a pattern accepts what its parts
accept one after another.
-/

variable {m next : Matcher Unit} {s t : Text}

/-- Some reading takes the text, wherever it stands. -/
def Accepts (m : Matcher Unit) (s : Text) : Prop :=
  ∀ behind rest, ((), ⟨s.reverse ++ behind, rest⟩) ∈ m ⟨behind, s ++ rest⟩

theorem Accepts.mem_bind {behind rest : Text} {later : Place} (first : Accepts m s)
    (second : ((), later) ∈ next ⟨s.reverse ++ behind, rest⟩) :
    ((), later) ∈ (do m; next) ⟨behind, s ++ rest⟩ :=
  Matcher.mem_bind.mpr ⟨(), _, first behind rest, second⟩

theorem Accepts.bind (first : Accepts m s) (second : Accepts next t) :
    Accepts (do m; next) (s ++ t) := by
  intro behind rest
  rw [List.append_assoc, List.reverse_append, List.append_assoc]
  exact first.mem_bind (second (s.reverse ++ behind) rest)

theorem accepts_pure : Accepts (pure ()) [] := fun _ _ => mem_pure.mpr ⟨rfl, rfl⟩

theorem accepts_maybe_nil : Accepts (maybe m) [] := fun behind rest =>
  mem_orElse.mpr (Or.inr (accepts_pure behind rest))

theorem Accepts.maybe (h : Accepts m s) : Accepts (maybe m) s := fun behind rest =>
  mem_orElse.mpr (Or.inl (h behind rest))

theorem accepts_word (w : Text) : Accepts (word w) w := by
  intro behind rest
  rw [word_append]
  exact List.mem_singleton.mpr rfl

theorem accepts_char (c : Char) : Accepts (char c) [c] := by
  intro behind rest
  have here : char c ⟨behind, [c] ++ rest⟩ = _ := char_self c behind rest
  rw [here]
  exact List.mem_singleton.mpr rfl

/-! ## Runs and rounds -/

theorem mem_along {accept : Char → Bool} (all : ∀ c ∈ s, accept c = true) (behind rest : Text) :
    ⟨s.reverse ++ behind, rest⟩ ∈ along accept behind (s ++ rest) := by
  induction s generalizing behind with
  | nil =>
      cases rest with
      | nil => exact List.mem_cons_self
      | cons c rest => exact List.mem_cons_self
  | cons c s ih =>
      have here : accept c = true := all c List.mem_cons_self
      have later := ih (fun d member => all d (List.mem_cons_of_mem c member)) (c :: behind)
      rw [List.cons_append, along, if_pos here, List.reverse_cons, List.append_assoc]
      exact List.mem_cons_of_mem _ later

theorem accepts_runs {accept : Char → Bool} (all : ∀ c ∈ s, accept c = true) :
    Accepts (runs accept) s := by
  intro behind rest
  exact List.mem_map.mpr ⟨_, List.mem_reverse.mpr (mem_along all behind rest), rfl⟩

theorem accepts_runs1 {accept : Char → Bool} (all : ∀ c ∈ s, accept c = true) (nonempty : s ≠ []) :
    Accepts (runs1 accept) s := by
  obtain ⟨c, s, rfl⟩ := List.exists_cons_of_ne_nil nonempty
  have first : Accepts (one accept) [c] := fun behind rest =>
    mem_one.mpr ⟨c, rest, rfl, all c List.mem_cons_self, rfl⟩
  exact first.bind (accepts_runs fun d member => all d (List.mem_cons_of_mem c member))

theorem accepts_many_nil (consumes : Consumes m) : Accepts (many m) [] := by
  intro behind rest
  rw [many_apply consumes]
  exact List.mem_append_right _ (List.mem_singleton.mpr rfl)

theorem Accepts.many_append (consumes : Consumes m) (first : Accepts m s)
    (others : Accepts (many m) t) :
    Accepts (many m) (s ++ t) := by
  intro behind rest
  rw [many_apply consumes]
  exact List.mem_append_left _ (first.bind others behind rest)

end Matcher
end Testwright
