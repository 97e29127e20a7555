import Testwright.Proofs.Matcher.Reading

namespace Testwright
namespace Matcher

/-!
# Searches, stretch by stretch

A search walks over a text.  It passes over a stretch in which no reading begins
(`Silent`), and where one begins it goes on behind what that reading took.  The
lemmas state both steps for each kind of search, with the text behind the place
carried along, so that a search of a long text is computed piece by piece.
-/

variable {α : Type} {m : Matcher α} {value : α} {behind s t new : Text} {later : Place}

/-! ## Stretches without a reading -/

/-- No reading begins inside `s`, where `s` stands behind `behind` and in front
of `t`. -/
def Silent (m : Matcher α) (behind s t : Text) : Prop :=
  ∀ x y, s = x ++ y → y ≠ [] → m ⟨x.reverse ++ behind, y ++ t⟩ = []

theorem silent_nil (m : Matcher α) (behind t : Text) : Silent m behind [] t := by
  intro x y cut nonempty
  exact absurd (List.append_eq_nil_iff.mp cut.symm).2 nonempty

theorem silent_cons {c : Char} :
    Silent m behind (c :: s) t ↔ m ⟨behind, c :: (s ++ t)⟩ = [] ∧ Silent m (c :: behind) s t := by
  constructor
  · intro silent
    constructor
    · exact silent [] (c :: s) rfl (by simp)
    · intro x y cut nonempty
      have := silent (c :: x) y (by rw [cut]; rfl) nonempty
      simpa using this
  · rintro ⟨here, rest⟩ x y cut nonempty
    cases x with
    | nil =>
        rw [List.nil_append] at cut
        subst cut
        exact here
    | cons d x =>
        obtain ⟨rfl, tail⟩ := List.cons.inj cut
        have := rest x y tail nonempty
        simpa using this

theorem silent_append {s' : Text} :
    Silent m behind (s ++ s') t ↔
    Silent m behind s (s' ++ t) ∧ Silent m (s.reverse ++ behind) s' t := by
  induction s generalizing behind with
  | nil => simp [silent_nil]
  | cons c s ih =>
      simp only [List.cons_append, silent_cons, ih, List.append_assoc, and_assoc,
        List.reverse_cons, List.nil_append]

/-! ## The first reading -/

theorem read?_of_reads (h : Reads m ⟨[], t⟩ value later) : m.read? t = some value := by
  have first : (m (Place.start t)).head? = some (value, later) := h
  rw [read?, first]
  rfl

theorem findFrom_of_reads (h : Reads m ⟨behind, t⟩ value later) :
    findFrom m behind t = some value := by
  obtain ⟨rest, readings⟩ := h.exists_cons
  cases t with
  | nil => simp [findFrom, readings]
  | cons c t => simp [findFrom, readings]

theorem findFrom_append (silent : Silent m behind s t) :
    findFrom m behind (s ++ t) = findFrom m (s.reverse ++ behind) t := by
  induction s generalizing behind with
  | nil => rfl
  | cons c s ih =>
      obtain ⟨here, rest⟩ := silent_cons.mp silent
      have step : findFrom m behind (c :: (s ++ t)) = findFrom m (c :: behind) (s ++ t) := by
        simp [findFrom, here]
      rw [List.cons_append, step, ih rest]
      simp

theorem findFrom_eq_none (silent : Silent m behind t [])
    (atEnd : m ⟨t.reverse ++ behind, []⟩ = []) :
    findFrom m behind t = none := by
  have walked := findFrom_append silent
  rw [List.append_nil] at walked
  rw [walked]
  simp [findFrom, atEnd]

/-- What a search finds is read at a place with no reading in front of it. -/
theorem exists_of_findFrom (h : findFrom m behind t = some value) :
    ∃ x y later, t = x ++ y ∧ Silent m behind x y ∧
      Reads m ⟨x.reverse ++ behind, y⟩ value later := by
  induction t generalizing behind with
  | nil =>
      rcases Option.map_eq_some_iff.mp h with ⟨⟨_, later⟩, reading, rfl⟩
      exact ⟨[], [], later, rfl, silent_nil m behind [], reading⟩
  | cons c t ih =>
      cases readings : m ⟨behind, c :: t⟩ with
      | nil =>
          rw [findFrom, readings] at h
          rcases ih h with ⟨x, y, later, rfl, silent, reading⟩
          exact ⟨c :: x, y, later, rfl, silent_cons.mpr ⟨readings, silent⟩, by simpa using reading⟩
      | cons reading rest =>
          rw [findFrom, readings] at h
          rcases Option.some.inj h with rfl
          exact ⟨[], c :: t, reading.2, rfl, silent_nil m behind _, Reads.of_eq_cons readings⟩

/-- A search finds something exactly if some place of the text has a reading. -/
theorem findFrom_isSome_iff :
    (findFrom m behind t).isSome = true ↔ ∃ x y, t = x ++ y ∧ m ⟨x.reverse ++ behind, y⟩ ≠ [] := by
  constructor
  · intro found
    apply Classical.byContradiction
    intro nowhere
    have dead : ∀ x y, t = x ++ y → m ⟨x.reverse ++ behind, y⟩ = [] := fun x y cut =>
      Classical.byContradiction fun reads => nowhere ⟨x, y, cut, reads⟩
    have none : findFrom m behind t = none :=
      findFrom_eq_none (fun x y cut _ => by simpa using dead x y cut) (dead t [] (by simp))
    rw [none] at found
    cases found
  · rintro ⟨x, y, rfl, reads⟩
    induction x generalizing behind with
    | nil =>
        cases readings : m ⟨behind, y⟩ with
        | nil => exact absurd readings reads
        | cons reading rest =>
            rw [List.nil_append, findFrom_of_reads (Reads.of_eq_cons readings)]
            rfl
    | cons c x ih =>
        cases readings : m ⟨behind, c :: (x ++ y)⟩ with
        | nil =>
            have step : findFrom m behind (c :: (x ++ y)) = findFrom m (c :: behind) (x ++ y) := by
              simp [findFrom, readings]
            rw [List.cons_append, step]
            exact ih (by simpa using reads)
        | cons reading rest =>
            rw [List.cons_append, findFrom_of_reads (Reads.of_eq_cons readings)]
            rfl

theorem occursIn_iff :
    occursIn m t = true ↔ ∃ x y, t = x ++ y ∧ m ⟨x.reverse, y⟩ ≠ [] := by
  unfold occursIn find?
  rw [findFrom_isSome_iff]
  simp

theorem occursIn_eq_false_iff :
    occursIn m t = false ↔ ∀ x y, t = x ++ y → m ⟨x.reverse, y⟩ = [] := by
  rw [← Bool.not_eq_true, occursIn_iff]
  constructor
  · exact fun nowhere x y cut => Classical.byContradiction fun reads => nowhere ⟨x, y, cut, reads⟩
  · rintro dead ⟨x, y, cut, reads⟩
    exact reads (dead x y cut)

/-! ## All readings -/

theorem findAllFrom_pending (m : Matcher α) (behind s t : Text) :
    findAllFrom m behind s.length (s ++ t) = findAllFrom m (s.reverse ++ behind) 0 t := by
  induction s generalizing behind with
  | nil => rfl
  | cons c s ih =>
      have step : findAllFrom m behind (c :: s).length (c :: (s ++ t)) =
          findAllFrom m (c :: behind) s.length (s ++ t) := rfl
      rw [List.cons_append, step, ih]
      simp

theorem findAllFrom_append (silent : Silent m behind s t) :
    findAllFrom m behind 0 (s ++ t) = findAllFrom m (s.reverse ++ behind) 0 t := by
  induction s generalizing behind with
  | nil => rfl
  | cons c s ih =>
      obtain ⟨here, rest⟩ := silent_cons.mp silent
      have step : findAllFrom m behind 0 (c :: (s ++ t)) =
          findAllFrom m (c :: behind) 0 (s ++ t) := by
        simp [findAllFrom, here]
      rw [List.cons_append, step, ih rest]
      simp

theorem findAllFrom_of_reads (nonempty : s ≠ [])
    (h : Reads m ⟨behind, s ++ t⟩ value ⟨s.reverse ++ behind, t⟩) :
    findAllFrom m behind 0 (s ++ t) = value :: findAllFrom m (s.reverse ++ behind) 0 t := by
  obtain ⟨rest, readings⟩ := h.exists_cons
  cases s with
  | nil => exact absurd rfl nonempty
  | cons c s =>
      rw [List.cons_append] at readings ⊢
      have taken : (s ++ t).length - t.length = s.length := by simp
      have step : findAllFrom m behind 0 (c :: (s ++ t)) =
          value :: findAllFrom m (c :: behind) s.length (s ++ t) := by
        simp only [findAllFrom, readings, taken]
      rw [step, findAllFrom_pending]
      simp

theorem findAllFrom_eq_nil (silent : Silent m behind s []) : findAllFrom m behind 0 s = [] := by
  have walked := findAllFrom_append silent
  rw [List.append_nil] at walked
  rw [walked]
  rfl

/-! ## Replacing all readings -/

theorem replaceAllFrom_pending (m : Matcher α) (new behind s t : Text) :
    replaceAllFrom m new behind s.length (s ++ t) =
      replaceAllFrom m new (s.reverse ++ behind) 0 t := by
  induction s generalizing behind with
  | nil => rfl
  | cons c s ih =>
      have step : replaceAllFrom m new behind (c :: s).length (c :: (s ++ t)) =
          replaceAllFrom m new (c :: behind) s.length (s ++ t) := rfl
      rw [List.cons_append, step, ih]
      simp

theorem replaceAllFrom_append (silent : Silent m behind s t) :
    replaceAllFrom m new behind 0 (s ++ t) =
      s ++ replaceAllFrom m new (s.reverse ++ behind) 0 t := by
  induction s generalizing behind with
  | nil => rfl
  | cons c s ih =>
      obtain ⟨here, rest⟩ := silent_cons.mp silent
      have step : replaceAllFrom m new behind 0 (c :: (s ++ t)) =
          c :: replaceAllFrom m new (c :: behind) 0 (s ++ t) := by
        simp [replaceAllFrom, here]
      rw [List.cons_append, step, ih rest]
      simp

theorem replaceAllFrom_of_reads (nonempty : s ≠ [])
    (h : Reads m ⟨behind, s ++ t⟩ value ⟨s.reverse ++ behind, t⟩) :
    replaceAllFrom m new behind 0 (s ++ t) =
      new ++ replaceAllFrom m new (s.reverse ++ behind) 0 t := by
  obtain ⟨rest, readings⟩ := h.exists_cons
  cases s with
  | nil => exact absurd rfl nonempty
  | cons c s =>
      rw [List.cons_append] at readings ⊢
      have taken : (s ++ t).length - t.length = s.length := by simp
      have step : replaceAllFrom m new behind 0 (c :: (s ++ t)) =
          new ++ replaceAllFrom m new (c :: behind) s.length (s ++ t) := by
        simp only [replaceAllFrom, readings, taken]
      rw [step, replaceAllFrom_pending]
      simp

theorem replaceAllFrom_of_silent (silent : Silent m behind s []) :
    replaceAllFrom m new behind 0 s = s := by
  have walked : replaceAllFrom m new behind 0 (s ++ []) = _ := replaceAllFrom_append silent
  rw [List.append_nil] at walked
  rw [walked]
  simp [replaceAllFrom]

end Matcher
end Testwright
