import Testwright.Proofs.Text.Annotations
import Testwright.Proofs.Text.Scanning

namespace Testwright
namespace Text

/-!
# Sources, normalized line by line

A part of a source that ends a line is normalized on its own, whatever follows
(`Normalizes`), if the scan is in code behind it and no annotation of it reaches
further.  Such parts put together are normalized part by part.
-/

open Character (isBlank)

/-! ## Lines, tidied -/

theorem tidyLines_append_newline (s t : Text) :
    tidyLines (s ++ '\n' :: t) = tidyLines s ++ '\n' :: tidyLines t := by
  have cut : splitOn (· == '\n') (s ++ '\n' :: t) =
      splitOn (· == '\n') s ++ splitOn (· == '\n') t :=
    splitOn_append_cons (by decide) s t
  have behind : ∀ pieces : List Text, pieces ≠ [] → ∀ more : List Text, more ≠ [] →
      ['\n'].intercalate (pieces ++ more) =
        ['\n'].intercalate pieces ++ '\n' :: ['\n'].intercalate more := by
    intro pieces some more some'
    induction pieces with
    | nil => exact absurd rfl some
    | cons piece pieces ih =>
        rw [List.cons_append, intercalate_cons_of_ne_nil _ _ (by simp [some'])]
        cases pieces with
        | nil => simp
        | cons second pieces =>
            rw [ih (List.cons_ne_nil second pieces),
              intercalate_cons_of_ne_nil _ _ (List.cons_ne_nil second pieces)]
            simp
  rw [tidyLines, cut, List.map_append]
  exact behind _ (by simpa using splitOn_ne_nil _ s) _ (by simpa using splitOn_ne_nil _ t)

theorem blank_tidyLines {t : Text} (blank : Blank t) : Blank (tidyLines t) := by
  induction t with
  | nil => exact blank_nil
  | cons c t ih =>
      have rest := ih fun d member => blank d (List.mem_cons_of_mem c member)
      by_cases feed : c = '\n'
      · subst feed
        rw [tidyLines_newline]
        exact List.forall_mem_cons.mpr ⟨by decide, rest⟩
      · rw [tidyLines_cons feed]
        split
        · exact rest
        · have here : isBlank (untab c) = true :=
            (isBlank_untab c).trans (blank c List.mem_cons_self)
          exact List.forall_mem_cons.mpr ⟨here, rest⟩

/-- A line without tabs that ends with something visible is tidy. -/
theorem tidyLines_of_last {t : Text} (plain : ∀ c ∈ t, c ≠ '\t' ∧ c ≠ '\n')
    (last : ∀ c, t.getLast? = some c → isBlank c = false) : tidyLines t = t := by
  induction t with
  | nil => rfl
  | cons c t ih =>
      have here := plain c List.mem_cons_self
      have kept : untab c = c := if_neg here.1
      rw [tidyLines_cons here.2]
      cases t with
      | nil => rw [if_neg (by simp [last c rfl]), kept, tidyLines_nil]
      | cons d t =>
          have rest : tidyLines (d :: t) = d :: t :=
            ih (fun e member => plain e (List.mem_cons_of_mem c member)) fun e final =>
              last e (by simpa using final)
          have inside : ¬ AtLineEnd (d :: t) := by
            rintro (none | feed)
            · cases none
            · exact (plain d (by simp)).2 (Option.some.inj feed)
          rw [rest, if_neg fun atEnd => inside atEnd.2, kept]

/-- Blanks in front of a tidy line stay blanks. -/
theorem exists_tidyLines_blank_append {gap line : Text} (blank : Blank gap)
    (tidied : tidyLines line = line) :
    ∃ gap', Blank gap' ∧ tidyLines (gap ++ line) = gap' ++ line := by
  induction gap with
  | nil => exact ⟨[], blank_nil, tidied⟩
  | cons c gap ih =>
      rcases ih fun d member => blank d (List.mem_cons_of_mem c member) with ⟨gap', blank', same⟩
      have blankC := blank c List.mem_cons_self
      by_cases feed : c = '\n'
      · subst feed
        exact ⟨'\n' :: gap', List.forall_mem_cons.mpr ⟨by decide, blank'⟩,
          by rw [List.cons_append, tidyLines_newline, same]; rfl⟩
      · rw [List.cons_append, tidyLines_cons feed, same]
        split
        · exact ⟨gap', blank', rfl⟩
        · exact ⟨untab c :: gap', List.forall_mem_cons.mpr ⟨by rwa [isBlank_untab], blank'⟩, rfl⟩

/-! ## Parts of a source -/

/-- The part is normalized to this, whatever follows. -/
def Normalizes (s n : Text) : Prop :=
  ∀ t, normalize (s ++ t) = n ++ normalize t

theorem normalizes_nil : Normalizes [] [] :=
  fun _ => rfl

theorem Normalizes.append {s n s' n' : Text} (first : Normalizes s n) (second : Normalizes s' n') :
    Normalizes (s ++ s') (n ++ n') := by
  intro t
  rw [List.append_assoc, first, second, List.append_assoc]

theorem Normalizes.normalize_eq {s n : Text} (h : Normalizes s n) : normalize s = n := by
  have whole := h []
  rwa [List.append_nil, show normalize [] = [] from rfl, List.append_nil] at whole

/-- A part that ends a line is normalized on its own, if the scan is in code behind it
and its annotations end in it. -/
theorem normalizes_of_drops {s w v : Text} (scanned : Scanned s (w ++ ['\n']))
    (last : s.getLast? = some '\n') (drops : ∀ t, Drops (w ++ ['\n']) t (v ++ ['\n'])) :
    Normalizes s (tidyLines v ++ ['\n']) := by
  intro t
  have unified : unifyLineBreaks (s ++ t) = unifyLineBreaks s ++ unifyLineBreaks t :=
    unifyLineBreaks_append fun final => absurd (last.symm.trans final) (by decide)
  have calm : Region.Calm (unifyLineBreaks s) (unifyLineBreaks t) := by
    apply calm_unifyLineBreaks
    exact Or.inl fun c final => Option.some.inj (last.symm.trans final) ▸ by decide
  have kept : dropAnnotations (w ++ ['\n'] ++ Region.blankOut .code 0 (unifyLineBreaks t)) = _ :=
    (drops _).dropAnnotations_append
  rw [normalize, unified, (Region.blankOut_append scanned.2 calm).1, scanned.1, kept,
    List.append_assoc, List.singleton_append, tidyLines_append_newline]
  simp [normalize]

theorem normalizes_of_not_mem {s w : Text} (scanned : Scanned s (w ++ ['\n']))
    (last : s.getLast? = some '\n') (absent : '@' ∉ w) : Normalizes s (tidyLines w ++ ['\n']) :=
  normalizes_of_drops scanned last fun t => drops_of_not_mem (by simp [absent]) t

end Text
end Testwright
