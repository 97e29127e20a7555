import Testwright.Matcher.Search

namespace Testwright
namespace Matcher

/-!
# Preferred readings, computed from the left

A matcher lists its readings in order of preference, so what a reader settles
for is the head of a list.  `Reads` says what that head is, and the lemmas here
compute it one construct at a time: a matcher with one reading hands its place
on, a matcher with none stops the reading, and a choice is decided by its first
side that goes on.

Places are written with the characters read and the characters ahead apart,
`⟨s.reverse ++ behind, t⟩`, so that the place behind one construct is
literally the place in front of the next.
-/

variable {α β γ : Type} {m : Matcher α} {next : α → Matcher β} {place later last : Place}
  {value : α} {found : β}

/-- The preferred reading at the place has this value and ends at `later`. -/
def Reads (m : Matcher α) (place : Place) (value : α) (later : Place) : Prop :=
  (m place).head? = some (value, later)

theorem Reads.of_eq_cons {rest : List (α × Place)} (h : m place = (value, later) :: rest) :
    Reads m place value later := by
  simp [Reads, h]

theorem Reads.exists_cons (h : Reads m place value later) :
    ∃ rest, m place = (value, later) :: rest := by
  unfold Reads at h
  cases readings : m place with
  | nil => simp [readings] at h
  | cons reading rest =>
      simp only [readings, List.head?_cons, Option.some.injEq] at h
      exact ⟨rest, by rw [h]⟩

theorem Reads.ne_nil (h : Reads m place value later) : m place ≠ [] := by
  obtain ⟨rest, readings⟩ := h.exists_cons
  simp [readings]

/-! ## One construct after another -/

theorem bind_apply (m : Matcher α) (next : α → Matcher β) (place : Place) :
    (m >>= next) place = (m place).flatMap fun reading => next reading.1 reading.2 := rfl

theorem bind_assoc (m : Matcher α) (next : α → Matcher β) (final : β → Matcher γ) :
    (m >>= next) >>= final = m >>= fun value => next value >>= final := by
  funext place
  simp only [bind_apply, List.flatMap_assoc]

@[simp] theorem pure_apply (value : α) (place : Place) :
    (pure value : Matcher α) place = [(value, place)] := rfl

theorem bind_of_single (h : m place = [(value, later)]) :
    (m >>= next) place = next value later := by
  simp [bind_apply, h]

theorem bind_of_nil (h : m place = []) : (m >>= next) place = [] := by
  simp [bind_apply, h]

theorem Reads.bind (first : Reads m place value later)
    (second : Reads (next value) later found last) :
    Reads (m >>= next) place found last := by
  obtain ⟨rest, readings⟩ := first.exists_cons
  obtain ⟨others, continuations⟩ := second.exists_cons
  have all : (m >>= next) place =
      (found, last) :: (others ++ rest.flatMap fun reading => next reading.1 reading.2) := by
    simp [bind_apply, readings, continuations]
  exact Reads.of_eq_cons all

/-- A reading is followed up to the last part, and what that part says of the
value holds. -/
theorem Reads.exists_bind {P : β → Prop} (first : Reads m place value later)
    (second : ∃ found last, Reads (next value) later found last ∧ P found) :
    ∃ found last, Reads (m >>= next) place found last ∧ P found := by
  obtain ⟨found, last, reads, holds⟩ := second
  exact ⟨found, last, first.bind reads, holds⟩

theorem Reads.pure (value : α) (place : Place) : Reads (pure value) place value place := rfl

/-- Readings of the first matcher from which nothing can be read on are passed
over. -/
theorem bind_append {skipped rest : List (α × Place)} (h : m place = skipped ++ rest)
    (dead : ∀ reading ∈ skipped, next reading.1 reading.2 = []) :
    (m >>= next) place = rest.flatMap fun reading => next reading.1 reading.2 := by
  have none : skipped.flatMap (fun reading => next reading.1 reading.2) = [] :=
    List.flatMap_eq_nil_iff.mpr dead
  simp [bind_apply, h, none]

/-! ## Choices -/

theorem orElse_of_nil {left right : Matcher α} (h : left place = []) :
    orElse left right place = right place := by
  simp [orElse, h]

theorem Reads.orElse_left {left right : Matcher α} (h : Reads left place value later) :
    Reads (orElse left right) place value later := by
  obtain ⟨rest, readings⟩ := h.exists_cons
  have all : orElse left right place = (value, later) :: (rest ++ right place) := by
    simp [orElse, readings]
  exact Reads.of_eq_cons all

theorem Reads.optional_some (h : Reads m place value later) :
    Reads (optional m) place (some value) later :=
  Reads.orElse_left (h.bind (Reads.pure _ _))

theorem optional_of_nil (h : m place = []) : optional m place = [(none, place)] := by
  unfold optional
  rw [orElse_of_nil (bind_of_nil h)]
  rfl

theorem Reads.maybe {m : Matcher Unit} (h : Reads m place () later) :
    Reads (maybe m) place () later :=
  Reads.orElse_left h

/-- What is read with an optional part, is read if that part may be left out. -/
theorem Reads.maybe_bind {m : Matcher Unit} {next : Unit → Matcher β}
    (h : Reads (m >>= next) place found last) :
    Reads (Matcher.maybe m >>= next) place found last := by
  obtain ⟨rest, readings⟩ := h.exists_cons
  have both : (Matcher.maybe m >>= next) place = (m >>= next) place ++ _ := List.flatMap_append
  rw [readings] at both
  exact Reads.of_eq_cons both

theorem maybe_of_nil {m : Matcher Unit} (h : m place = []) : maybe m place = [((), place)] := by
  unfold Matcher.maybe
  rw [orElse_of_nil h]
  rfl

theorem Reads.stretch {m : Matcher Unit} (h : Reads m place () later) :
    Reads (stretch m) place ⟨place, later⟩ later := by
  obtain ⟨rest, readings⟩ := h.exists_cons
  have all : Matcher.stretch m place =
      (⟨place, later⟩, later) :: rest.map fun reading => (⟨place, reading.2⟩, reading.2) := by
    simp [Matcher.stretch, readings]
  exact Reads.of_eq_cons all

theorem stretch_of_single {m : Matcher Unit} (h : m place = [((), later)]) :
    stretch m place = [(⟨place, later⟩, later)] := by
  simp [Matcher.stretch, h]

theorem stretch_of_nil {m : Matcher Unit} (h : m place = []) : stretch m place = [] := by
  simp [Matcher.stretch, h]

theorem Reads.stretchOf (h : Reads m place value later) :
    Reads (stretchOf m) place (⟨place, later⟩, value) later := by
  obtain ⟨rest, readings⟩ := h.exists_cons
  have all : Matcher.stretchOf m place = ((⟨place, later⟩, value), later) ::
      rest.map fun reading => ((⟨place, reading.2⟩, reading.1), reading.2) := by
    simp [Matcher.stretchOf, readings]
  exact Reads.of_eq_cons all

theorem stretchOf_of_nil (h : m place = []) : stretchOf m place = [] := by
  simp [Matcher.stretchOf, h]

/-- The text of a stretch is what stands between its two places. -/
@[simp] theorem text_mk (behind behind' s t : Text) :
    Stretch.text ⟨⟨behind, s ++ t⟩, ⟨behind', t⟩⟩ = s := by
  simp [Stretch.text]

/-- A stretch to the end of a text. -/
theorem text_mk_nil (behind behind' s : Text) : Stretch.text ⟨⟨behind, s⟩, ⟨behind', []⟩⟩ = s := by
  simp [Stretch.text]

/-! ## Places and characters -/

/-- No run of the class can be extended into the text. -/
def Stops (accept : Char → Bool) (t : Text) : Prop :=
  t.head?.any accept = false

@[simp] theorem stops_nil (accept : Char → Bool) : Stops accept [] := rfl

@[simp] theorem stops_cons {accept : Char → Bool} {c : Char} {t : Text} :
    Stops accept (c :: t) ↔ accept c = false := Iff.rfl

theorem Stops.front {accept : Char → Bool} {t : Text} (stops : Stops accept t) (c : Char)
    (head : t.head? = some c) : accept c = false := by
  rwa [Stops, head] at stops

theorem stops_append_cons {accept : Char → Bool} {s : Text} (stops : Stops accept s) {c : Char}
    (other : accept c = false) (t : Text) : Stops accept (s ++ c :: t) := by
  cases s with
  | nil => exact other
  | cons d s => exact stops

theorem stops_of_append {accept : Char → Bool} {s t : Text} (stops : Stops accept (s ++ t)) :
    Stops accept s := by
  cases s with
  | nil => rfl
  | cons c s => exact stops

theorem stops_dropWhile (accept : Char → Bool) (t : Text) : Stops accept (t.dropWhile accept) := by
  have first := List.head?_dropWhile_not accept t
  rw [Stops]
  cases head : (t.dropWhile accept).head? with
  | none => rfl
  | some c => simpa [head] using first

theorem require_of_true {condition : Place → Bool} (h : condition place = true) :
    require condition place = [((), place)] := by
  simp [require, h]

theorem require_of_false {condition : Place → Bool} (h : condition place = false) :
    require condition place = [] := by
  simp [require, h]

@[simp] theorem textStart_apply (behind ahead : Text) :
    textStart ⟨behind, ahead⟩ = if behind.isEmpty then [((), ⟨behind, ahead⟩)] else [] := rfl

@[simp] theorem textEnd_apply (behind ahead : Text) :
    textEnd ⟨behind, ahead⟩ = if ahead.isEmpty then [((), ⟨behind, ahead⟩)] else [] := rfl

@[simp] theorem one_nil (accept : Char → Bool) (behind : Text) :
    one accept ⟨behind, []⟩ = [] := rfl

@[simp] theorem one_cons (accept : Char → Bool) (behind ahead : Text) (c : Char) :
    one accept ⟨behind, c :: ahead⟩ = if accept c then [((), ⟨c :: behind, ahead⟩)] else [] := rfl

@[simp] theorem char_nil (c : Char) (behind : Text) : char c ⟨behind, []⟩ = [] := rfl

@[simp] theorem char_cons (c d : Char) (behind ahead : Text) :
    char c ⟨behind, d :: ahead⟩ = if d = c then [((), ⟨d :: behind, ahead⟩)] else [] := by
  simp [char]

theorem one_of_true {accept : Char → Bool} {c : Char} (h : accept c = true) (behind ahead : Text) :
    one accept ⟨behind, c :: ahead⟩ = [((), ⟨c :: behind, ahead⟩)] := by
  simp [h]

theorem one_of_stops {accept : Char → Bool} {ahead : Text} (stops : Stops accept ahead)
    (behind : Text) : one accept ⟨behind, ahead⟩ = [] := by
  cases ahead with
  | nil => rfl
  | cons c ahead => simp [stops_cons.mp stops]

theorem char_self (c : Char) (behind ahead : Text) :
    char c ⟨behind, c :: ahead⟩ = [((), ⟨c :: behind, ahead⟩)] := by
  simp

theorem char_of_ne {c : Char} {behind ahead : Text} (h : ahead.head? ≠ some c) :
    char c ⟨behind, ahead⟩ = [] := by
  cases ahead with
  | nil => rfl
  | cons d ahead => simp_all

/-- A word is read where the text ahead begins with it. -/
theorem word_apply (w behind ahead : Text) :
    word w ⟨behind, ahead⟩ =
      match Text.dropStart? w ahead with
      | some rest => [((), ⟨w.reverse ++ behind, rest⟩)]
      | none => [] := by
  induction w generalizing behind ahead with
  | nil => rfl
  | cons c w ih =>
      cases ahead with
      | nil => rfl
      | cons d ahead =>
          by_cases same : d = c
          · subst same
            rw [word, bind_of_single (char_self d behind ahead), ih]
            simp [Text.dropStart?]
          · rw [word, bind_of_nil (by simp [same])]
            simp [Text.dropStart?, Ne.symm same]

theorem word_append (w behind ahead : Text) :
    word w ⟨behind, w ++ ahead⟩ = [((), ⟨w.reverse ++ behind, ahead⟩)] := by
  rw [word_apply, Text.dropStart?_eq_some_iff.mpr rfl]

theorem word_eq_nil {w behind ahead : Text} (h : ¬ w <+: ahead) : word w ⟨behind, ahead⟩ = [] := by
  rw [word_apply]
  cases dropped : Text.dropStart? w ahead with
  | none => rfl
  | some rest =>
      rw [Text.dropStart?_eq_some_iff] at dropped
      exact absurd ⟨rest, dropped.symm⟩ h

theorem anyOf_apply (ws : List Text) (place : Place) :
    anyOf ws place = ws.flatMap fun w => word w place := by
  induction ws with
  | nil => rfl
  | cons w ws ih =>
      change word w place ++ anyOf ws place = _
      rw [ih]
      rfl

theorem anyOf_eq_nil {ws : List Text} {behind ahead : Text} (h : ∀ w ∈ ws, ¬ w <+: ahead) :
    anyOf ws ⟨behind, ahead⟩ = [] := by
  rw [anyOf_apply, List.flatMap_eq_nil_iff]
  exact fun w member => word_eq_nil (h w member)

/-- Of words that do not begin each other, the one that is there is read. -/
theorem anyOf_append {ws : List Text} {w : Text} (member : w ∈ ws) (distinct : ws.Nodup)
    (apart : ∀ w' ∈ ws, w' ≠ w → ¬ w' <+: w ∧ ¬ w <+: w') (behind ahead : Text) :
    anyOf ws ⟨behind, w ++ ahead⟩ = [((), ⟨w.reverse ++ behind, ahead⟩)] := by
  have others : ∀ w' ∈ ws, w' ≠ w → word w' ⟨behind, w ++ ahead⟩ = [] := by
    intro w' member' other
    apply word_eq_nil
    intro begins
    rcases List.prefix_or_prefix_of_prefix begins (List.prefix_append w ahead) with short | long
    · exact (apart w' member' other).1 short
    · exact (apart w' member' other).2 long
  rw [anyOf_apply]
  clear apart
  induction ws with
  | nil => cases member
  | cons first ws ih =>
      obtain ⟨notLater, distinct'⟩ := List.nodup_cons.mp distinct
      have later := fun w' inRest => others w' (List.mem_cons_of_mem first inRest)
      rw [List.flatMap_cons]
      by_cases same : first = w
      · subst same
        have none : ws.flatMap (fun w' => word w' ⟨behind, first ++ ahead⟩) = [] :=
          List.flatMap_eq_nil_iff.mpr fun w' inRest =>
            later w' inRest fun same => notLater (same ▸ inRest)
        rw [word_append, none]
        rfl
      · rw [others first List.mem_cons_self same, List.nil_append]
        exact ih ((List.mem_cons.mp member).resolve_left (Ne.symm same)) distinct' later

/-! ## Runs -/

theorem past_append {accept : Char → Bool} {s t : Text} (all : ∀ c ∈ s, accept c = true)
    (stops : Stops accept t) (behind : Text) :
    past accept behind (s ++ t) = ⟨s.reverse ++ behind, t⟩ := by
  induction s generalizing behind with
  | nil =>
      cases t with
      | nil => rfl
      | cons c t => simp [past, stops_cons.mp stops]
  | cons c s ih =>
      have head : accept c = true := all c List.mem_cons_self
      have tail := ih (fun d member => all d (List.mem_cons_of_mem c member)) (c :: behind)
      simp [past, head, tail]

theorem run_append {accept : Char → Bool} {s t : Text} (all : ∀ c ∈ s, accept c = true)
    (stops : Stops accept t) (behind : Text) :
    run accept ⟨behind, s ++ t⟩ = [((), ⟨s.reverse ++ behind, t⟩)] := by
  simp [run, past_append all stops]

theorem run_of_stops {accept : Char → Bool} {t : Text} (stops : Stops accept t) (behind : Text) :
    run accept ⟨behind, t⟩ = [((), ⟨behind, t⟩)] :=
  run_append (s := []) (by simp) stops behind

theorem run1_append {accept : Char → Bool} {s t : Text} (all : ∀ c ∈ s, accept c = true)
    (nonempty : s ≠ []) (stops : Stops accept t) (behind : Text) :
    run1 accept ⟨behind, s ++ t⟩ = [((), ⟨s.reverse ++ behind, t⟩)] := by
  cases s with
  | nil => exact absurd rfl nonempty
  | cons c s =>
      have head : accept c = true := all c List.mem_cons_self
      rw [run1, List.cons_append, bind_of_single (one_of_true head behind (s ++ t)),
        run_append (fun d member => all d (List.mem_cons_of_mem c member)) stops]
      simp

theorem run1_of_stops {accept : Char → Bool} {t : Text} (stops : Stops accept t) (behind : Text) :
    run1 accept ⟨behind, t⟩ = [] := by
  exact bind_of_nil (one_of_stops stops behind)

end Matcher
end Testwright
