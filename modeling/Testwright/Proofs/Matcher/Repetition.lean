import Mathlib.Data.List.Basic
import Testwright.Proofs.Matcher.Reading

namespace Testwright
namespace Matcher

/-!
# Repetition and runs that give characters back

`many` counts its rounds by the characters ahead.  Where each round takes a
character the count never runs out, and `many` satisfies the equation one
expects of it (`many_apply`).  The other half is about runs of which the rest of
a pattern decides how much is taken: every length is offered, and the readings
from which the pattern cannot go on are passed over.
-/

variable {α β : Type} {m : Matcher Unit} {place later : Place}

/-! ## What a matcher takes -/

/-- No reading gives characters back. -/
def Keeps (m : Matcher α) : Prop :=
  ∀ place, ∀ reading ∈ m place, reading.2.ahead.length ≤ place.ahead.length

/-- Every reading takes a character. -/
def Consumes (m : Matcher α) : Prop :=
  ∀ place, ∀ reading ∈ m place, reading.2.ahead.length < place.ahead.length

theorem Consumes.keeps {m : Matcher α} (h : Consumes m) : Keeps m :=
  fun place reading member => Nat.le_of_lt (h place reading member)

theorem Keeps.bind {m : Matcher α} {next : α → Matcher β} (first : Keeps m)
    (second : ∀ value, Keeps (next value)) : Keeps (m >>= next) := by
  intro place reading member
  obtain ⟨between, before, after⟩ := List.mem_flatMap.mp member
  exact Nat.le_trans (second between.1 between.2 reading after) (first place between before)

theorem Consumes.bind_left {m : Matcher α} {next : α → Matcher β} (first : Consumes m)
    (second : ∀ value, Keeps (next value)) : Consumes (m >>= next) := by
  intro place reading member
  obtain ⟨between, before, after⟩ := List.mem_flatMap.mp member
  exact Nat.lt_of_le_of_lt (second between.1 between.2 reading after) (first place between before)

theorem Consumes.bind_right {m : Matcher α} {next : α → Matcher β} (first : Keeps m)
    (second : ∀ value, Consumes (next value)) : Consumes (m >>= next) := by
  intro place reading member
  obtain ⟨between, before, after⟩ := List.mem_flatMap.mp member
  exact Nat.lt_of_lt_of_le (second between.1 between.2 reading after) (first place between before)

theorem consumes_one (accept : Char → Bool) : Consumes (one accept) := by
  rintro ⟨behind, ahead⟩ reading member
  cases ahead with
  | nil => cases member
  | cons c ahead =>
      rw [one_cons] at member
      split at member
      · simp only [List.mem_singleton] at member
        simp [member]
      · cases member

theorem consumes_char (c : Char) : Consumes (char c) :=
  consumes_one _

theorem keeps_pure (value : α) : Keeps (pure value) := by
  intro place reading member
  simp only [pure_apply, List.mem_singleton] at member
  simp [member]

theorem length_past_le (accept : Char → Bool) (behind ahead : Text) :
    (past accept behind ahead).ahead.length ≤ ahead.length := by
  induction ahead generalizing behind with
  | nil => exact Nat.le_refl _
  | cons c ahead ih =>
      simp only [past]
      split
      · exact Nat.le_trans (ih (c :: behind)) (Nat.le_succ _)
      · exact Nat.le_refl _

theorem keeps_run (accept : Char → Bool) : Keeps (run accept) := by
  intro place reading member
  simp only [run, List.mem_singleton] at member
  rw [member]
  exact length_past_le accept place.behind place.ahead

theorem consumes_run1 (accept : Char → Bool) : Consumes (run1 accept) :=
  (consumes_one accept).bind_left fun _ => keeps_run accept

theorem keeps_word (w : Text) : Keeps (word w) := by
  induction w with
  | nil => exact keeps_pure ()
  | cons c w ih => exact (consumes_char c).keeps.bind fun _ => ih

theorem keeps_orElse {left right : Matcher α} (h : Keeps left) (h' : Keeps right) :
    Keeps (orElse left right) := by
  intro place reading member
  rcases List.mem_append.mp member with inLeft | inRight
  · exact h place reading inLeft
  · exact h' place reading inRight

theorem keeps_anyOf (ws : List Text) : Keeps (anyOf ws) := by
  induction ws with
  | nil =>
      intro place reading member
      cases member
  | cons w ws ih => exact keeps_orElse (keeps_word w) ih

/-! ## Many rounds -/

theorem upTo_eq (consumes : Consumes m) {limit limit' : Nat} {place : Place}
    (enough : place.ahead.length ≤ limit) (enough' : place.ahead.length ≤ limit') :
    upTo m limit place = upTo m limit' place := by
  -- Each round leaves fewer characters ahead, so both limits stay large enough.
  induction limit generalizing place limit' with
  | zero =>
      have none : m place = [] := by
        apply List.eq_nil_iff_forall_not_mem.mpr
        intro reading member
        have := consumes place reading member
        omega
      cases limit' with
      | zero => rfl
      | succ limit' =>
          change _ = ((m >>= fun _ => upTo m limit') place) ++ [((), place)]
          rw [bind_of_nil none]
          rfl
  | succ limit ih =>
      cases limit' with
      | zero =>
          have none : m place = [] := by
            apply List.eq_nil_iff_forall_not_mem.mpr
            intro reading member
            have := consumes place reading member
            omega
          change ((m >>= fun _ => upTo m limit) place) ++ [((), place)] = _
          rw [bind_of_nil none]
          rfl
      | succ limit' =>
          have rounds : ∀ reading ∈ m place,
              upTo m limit reading.2 = upTo m limit' reading.2 := by
            intro reading member
            have := consumes place reading member
            exact ih (by omega) (by omega)
          change ((m place).flatMap fun reading => upTo m limit reading.2) ++ [((), place)] =
            ((m place).flatMap fun reading => upTo m limit' reading.2) ++ [((), place)]
          rw [List.flatMap_congr rounds]

/-- Many rounds are one round and then many, or none. -/
theorem many_apply (consumes : Consumes m) (place : Place) :
    many m place = ((m place).flatMap fun reading => many m reading.2) ++ [((), place)] := by
  unfold many
  rw [upTo_eq consumes (Nat.le_refl _) (Nat.le_succ place.ahead.length)]
  change ((m place).flatMap fun reading => upTo m place.ahead.length reading.2) ++
    [((), place)] = _
  have rounds : ∀ reading ∈ m place,
      upTo m place.ahead.length reading.2 = upTo m reading.2.ahead.length reading.2 := by
    intro reading member
    have := consumes place reading member
    exact upTo_eq consumes (by omega) (Nat.le_refl _)
  rw [List.flatMap_congr rounds]

theorem many_of_nil (h : m place = []) : many m place = [((), place)] := by
  unfold many
  cases place.ahead.length with
  | zero => rfl
  | succ limit =>
      change ((m >>= fun _ => upTo m limit) place) ++ [((), place)] = _
      rw [bind_of_nil h]
      rfl

theorem Reads.many_step (consumes : Consumes m) {last : Place} (first : Reads m place () later)
    (others : Reads (many m) later () last) : Reads (many m) place () last := by
  obtain ⟨rest, readings⟩ := first.exists_cons
  obtain ⟨rounds, more⟩ := others.exists_cons
  have all : many m place = ((), last) ::
      (rounds ++ (rest.flatMap fun reading => many m reading.2) ++ [((), place)]) := by
    rw [many_apply consumes place, readings]
    simp [more]
  exact Reads.of_eq_cons all

theorem Reads.many_stop (h : m place = []) : Reads (many m) place () place :=
  Reads.of_eq_cons (many_of_nil h)

/-! ## Runs of every length -/

/-- A run that may be short goes past a character from which the pattern cannot
go on. -/
theorem lazyRuns_bind_cons {accept : Char → Bool} {next : Unit → Matcher β} {c : Char}
    {behind ahead : Text} (accepted : accept c = true) (dead : next () ⟨behind, c :: ahead⟩ = []) :
    (lazyRuns accept >>= next) ⟨behind, c :: ahead⟩ =
      (lazyRuns accept >>= next) ⟨c :: behind, ahead⟩ := by
  simp [bind_apply, lazyRuns, along, accepted, dead]

theorem lazyRuns_bind_of_reads {accept : Char → Bool} {next : Unit → Matcher β} {found : β}
    (h : Reads (next ()) place found later) :
    Reads (lazyRuns accept >>= next) place found later := by
  obtain ⟨rest, readings⟩ := h.exists_cons
  obtain ⟨behind, ahead⟩ := place
  cases ahead with
  | nil =>
      simp only [Reads, bind_apply, lazyRuns, along, List.map_cons, List.flatMap_cons, readings,
        List.cons_append, List.head?_cons]
  | cons c ahead =>
      simp only [Reads, bind_apply, lazyRuns, along, List.map_cons, List.flatMap_cons, readings,
        List.cons_append, List.head?_cons]

/-- A lazy run takes exactly `s` if the pattern goes on behind `s` and at no
place inside it. -/
theorem Reads.lazyRuns_bind {accept : Char → Bool} {next : Unit → Matcher β} {found : β}
    {behind s t : Text} (all : ∀ c ∈ s, accept c = true)
    (dead : ∀ x y, s = x ++ y → y ≠ [] → next () ⟨x.reverse ++ behind, y ++ t⟩ = [])
    (h : Reads (next ()) ⟨s.reverse ++ behind, t⟩ found later) :
    Reads (lazyRuns accept >>= next) ⟨behind, s ++ t⟩ found later := by
  induction s generalizing behind with
  | nil => exact lazyRuns_bind_of_reads h
  | cons c s ih =>
      have here : next () ⟨behind, c :: (s ++ t)⟩ = [] := dead [] (c :: s) rfl (by simp)
      unfold Reads
      rw [List.cons_append, lazyRuns_bind_cons (all c List.mem_cons_self) here]
      refine ih (fun d member => all d (List.mem_cons_of_mem c member)) ?_ (by simpa using h)
      intro x y cut nonempty
      have := dead (c :: x) y (by rw [cut]; rfl) nonempty
      simpa using this

/-- The places strictly inside or at the front of `s`, nearest first. -/
def inside : Text → Text → Text → List Place
  | _, [], _ => []
  | behind, c :: s, t => ⟨behind, c :: (s ++ t)⟩ :: inside (c :: behind) s t

theorem along_append {accept : Char → Bool} {s : Text} (all : ∀ c ∈ s, accept c = true)
    (behind t : Text) :
    along accept behind (s ++ t) = inside behind s t ++ along accept (s.reverse ++ behind) t := by
  induction s generalizing behind with
  | nil => rfl
  | cons c s ih =>
      have head : accept c = true := all c List.mem_cons_self
      have tail := ih (fun d member => all d (List.mem_cons_of_mem c member)) (c :: behind)
      simp [along, inside, head, tail]

theorem along_of_stops {accept : Char → Bool} {t : Text} (stops : Stops accept t) (behind : Text) :
    along accept behind t = [⟨behind, t⟩] := by
  cases t with
  | nil => rfl
  | cons c t => simp [along, stops_cons.mp stops]

theorem mem_inside {behind s t : Text} {place : Place} (member : place ∈ inside behind s t) :
    ∃ x y, s = x ++ y ∧ y ≠ [] ∧ place = ⟨x.reverse ++ behind, y ++ t⟩ := by
  induction s generalizing behind with
  | nil => cases member
  | cons c s ih =>
      rcases List.mem_cons.mp member with rfl | member
      · exact ⟨[], c :: s, rfl, by simp, rfl⟩
      · obtain ⟨x, y, cut, nonempty, rfl⟩ := ih member
        exact ⟨c :: x, y, by rw [cut]; rfl, nonempty, by simp⟩

/-- The longest run is tried first, and what the pattern cannot go on from is
given back: `s` is what a run over `s ++ v` takes if the pattern goes on behind
`s` and at no later place. -/
theorem Reads.runs_bind {accept : Char → Bool} {next : Unit → Matcher β} {found : β}
    {behind s v t : Text} (all : ∀ c ∈ s ++ v, accept c = true) (stops : Stops accept t)
    (dead : ∀ x y, v = x ++ y → x ≠ [] → next () ⟨x.reverse ++ (s.reverse ++ behind), y ++ t⟩ = [])
    (h : Reads (next ()) ⟨s.reverse ++ behind, v ++ t⟩ found later) :
    Reads (runs accept >>= next) ⟨behind, s ++ (v ++ t)⟩ found later := by
  obtain ⟨rest, readings⟩ := h.exists_cons
  have allS : ∀ c ∈ s, accept c = true := fun c member => all c (List.mem_append_left v member)
  have places : along accept behind (s ++ (v ++ t)) =
      inside behind s (v ++ t) ++ ⟨s.reverse ++ behind, v ++ t⟩ ::
        (along accept (s.reverse ++ behind) (v ++ t)).tail := by
    rw [along_append allS]
    congr 1
    cases v ++ t <;> rfl
  have later_dead : ∀ place ∈ (along accept (s.reverse ++ behind) (v ++ t)).tail,
      next () place = [] := by
    intro place member
    cases v with
    | nil =>
        rw [List.nil_append, along_of_stops stops] at member
        cases member
    | cons c v =>
        have allV : ∀ d ∈ c :: v, accept d = true :=
          fun d member => all d (List.mem_append_right s member)
        rw [along_append allV, inside, List.cons_append, List.tail_cons, List.mem_append,
          along_of_stops stops, List.mem_singleton] at member
        rcases member with within | rfl
        · obtain ⟨x, y, cut, -, rfl⟩ := mem_inside within
          have := dead (c :: x) y (by rw [cut]; rfl) (by simp)
          simpa using this
        · have := dead (c :: v) [] (by simp) (by simp)
          simpa using this
  have skipped : ∀ reading ∈
      ((along accept (s.reverse ++ behind) (v ++ t)).tail.reverse.map fun later => ((), later)),
      next reading.1 reading.2 = [] := by
    intro reading member
    obtain ⟨place, inTail, rfl⟩ := List.mem_map.mp member
    exact later_dead place (List.mem_reverse.mp inTail)
  have offered : runs accept ⟨behind, s ++ (v ++ t)⟩ =
      ((along accept (s.reverse ++ behind) (v ++ t)).tail.reverse.map fun later => ((), later)) ++
        ((), ⟨s.reverse ++ behind, v ++ t⟩) ::
          (inside behind s (v ++ t)).reverse.map fun later => ((), later) := by
    simp [runs, places]
  unfold Reads
  rw [bind_append offered skipped]
  simp [readings]

end Matcher
end Testwright
