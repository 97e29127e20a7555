import Mathlib.Data.List.TakeWhile
import Testwright.Proofs.Text.Normalization

namespace Testwright
namespace Text

/-!
# Blanks at the ends, and words

A text is trimmed if no blank stands at either end of it.  Trimming takes the
blanks around a trimmed text off and nothing else (`trim_surround`), which is
the form in which the readers of types, parameters and clauses use it.
-/

open Character (isBlank)

/-- No character besides blanks. -/
abbrev Blank (t : Text) : Prop :=
  ∀ c ∈ t, isBlank c = true

/-- Characters that are no blanks only. -/
abbrev Visible (t : Text) : Prop :=
  ∀ c ∈ t, isBlank c = false

theorem blank_nil : Blank [] := by
  intro c member
  cases member

theorem blank_singleton {c : Char} (blank : isBlank c = true) : Blank [c] := by
  intro d member
  rwa [List.mem_singleton.mp member]

theorem Blank.append {s t : Text} (first : Blank s) (second : Blank t) : Blank (s ++ t) :=
  List.forall_mem_append.mpr ⟨first, second⟩

/-- No blanks stand at the front of a text that does not begin with one. -/
theorem Blank.eq_nil_of_front {gap t : Text} (blank : Blank gap)
    (front : ∀ c, (gap ++ t).head? = some c → isBlank c = false) : gap = [] := by
  cases gap with
  | nil => rfl
  | cons d gap =>
      have shown := front d rfl
      rw [blank d List.mem_cons_self] at shown
      cases shown

/-- A run of a class in front of something else is all of the run there. -/
theorem eq_of_run_append {accept : Char → Bool} {a a' t t' : Text} {c c' : Char}
    (all : ∀ d ∈ a, accept d = true) (all' : ∀ d ∈ a', accept d = true) (stops : accept c = false)
    (stops' : accept c' = false) (same : a ++ c :: t = a' ++ c' :: t') :
    a = a' ∧ c = c' ∧ t = t' := by
  induction a generalizing a' with
  | nil =>
      cases a' with
      | nil =>
          obtain ⟨rfl, rfl⟩ := List.cons.inj same
          exact ⟨rfl, rfl, rfl⟩
      | cons b a' =>
          rw [(List.cons.inj same).1, all' b List.mem_cons_self] at stops
          cases stops
  | cons b a ih =>
      cases a' with
      | nil =>
          rw [← (List.cons.inj same).1, all b List.mem_cons_self] at stops'
          cases stops'
      | cons b' a' =>
          obtain ⟨rfl, rest⟩ := List.cons.inj same
          obtain ⟨rfl, rfl, rfl⟩ := ih (fun d member => all d (List.mem_cons_of_mem b member))
            (fun d member => all' d (List.mem_cons_of_mem b member)) rest
          exact ⟨rfl, rfl, rfl⟩

/-- The blanks in front of something visible are all the blanks there. -/
theorem eq_of_blanks_append {gap gap' t t' : Text} {c c' : Char} (blank : Blank gap)
    (blank' : Blank gap') (visible : isBlank c = false) (visible' : isBlank c' = false)
    (same : gap ++ c :: t = gap' ++ c' :: t') : gap = gap' ∧ c = c' ∧ t = t' :=
  eq_of_run_append blank blank' visible visible' same

/-- A character that a part in front lacks stands behind that part. -/
theorem exists_behind {a b x r : Text} {c : Char} (absent : c ∉ a) (same : a ++ b = x ++ c :: r) :
    ∃ y, x = a ++ y ∧ b = y ++ c :: r := by
  rcases List.append_eq_append_iff.mp same with ⟨y, longer, rest⟩ | ⟨y, longer, rest⟩
  · exact ⟨y, longer, rest⟩
  · cases y with
    | nil => exact ⟨[], by simpa using longer.symm, by simpa using rest.symm⟩
    | cons d y =>
        rw [(List.cons.inj rest).1, longer] at absent
        exact absurd (by simp) absent

/-- A text has a last visible character, or none at all. -/
theorem blank_or_exists_visible (t : Text) :
    Blank t ∨ ∃ w c gap, t = w ++ c :: gap ∧ isBlank c = false ∧ Blank gap := by
  induction t with
  | nil => exact Or.inl blank_nil
  | cons c t ih =>
      rcases ih with blank | ⟨w, d, gap, rfl, shown, blank⟩
      · cases shown : isBlank c with
        | true => exact Or.inl ((blank_singleton shown).append blank)
        | false => exact Or.inr ⟨[], c, t, rfl, shown, blank⟩
      · exact Or.inr ⟨c :: w, d, gap, rfl, shown, blank⟩

/-- A part without the character at which a text is cut stands on one side of the
cut. -/
theorem exists_side {x s y a b : Text} {c : Char} (absent : c ∉ s) (nonempty : s ≠ [])
    (same : x ++ (s ++ y) = a ++ c :: b) :
    (∃ v, a = x ++ (s ++ v) ∧ y = v ++ c :: b) ∨ ∃ v, x = a ++ c :: v ∧ b = v ++ (s ++ y) := by
  rcases List.append_eq_append_iff.mp same with ⟨v, rfl, tails⟩ | ⟨v, rfl, tails⟩
  · rcases exists_behind absent tails with ⟨w, rfl, rest⟩
    exact Or.inl ⟨w, rfl, rest⟩
  · cases v with
    | nil =>
        rcases List.exists_cons_of_ne_nil nonempty with ⟨d, s, rfl⟩
        rcases List.cons.inj tails with ⟨rfl, -⟩
        exact absurd List.mem_cons_self absent
    | cons d v =>
        rcases List.cons.inj tails with ⟨rfl, rest⟩
        exact Or.inr ⟨v, rfl, rest⟩

/-- No blank at either end. -/
structure IsTrimmed (t : Text) : Prop where
  front : ∀ c, t.head? = some c → isBlank c = false
  back : ∀ c, t.getLast? = some c → isBlank c = false

theorem isTrimmed_nil : IsTrimmed [] :=
  ⟨by simp, by simp⟩

theorem isTrimmed_of_visible {t : Text} (visible : Visible t) : IsTrimmed t :=
  ⟨fun c head => visible c (List.mem_of_mem_head? head),
    fun c last => visible c (List.mem_of_getLast? last)⟩

theorem IsTrimmed.append {s t : Text} (first : IsTrimmed s) (second : IsTrimmed t) (between : Text)
    (nonempty : s ≠ []) (nonempty' : t ≠ []) : IsTrimmed (s ++ (between ++ t)) := by
  constructor
  · intro c head
    obtain ⟨d, rest, rfl⟩ := List.exists_cons_of_ne_nil nonempty
    exact first.front c head
  · intro c last
    rw [← List.append_assoc, List.getLast?_append, List.getLast?_eq_some_getLast nonempty'] at last
    exact second.back c (by rw [List.getLast?_eq_some_getLast nonempty']; exact last)

theorem trimStart_append {gap : Text} (blank : Blank gap) (t : Text) :
    trimStart (gap ++ t) = trimStart t := by
  unfold trimStart
  exact List.dropWhile_append_of_pos blank

theorem trimEnd_append {gap : Text} (blank : Blank gap) (t : Text) :
    trimEnd (t ++ gap) = trimEnd t := by
  unfold trimEnd
  rw [List.reverse_append, List.dropWhile_append_of_pos]
  intro c member
  exact blank c (List.mem_reverse.mp member)

theorem IsTrimmed.trimStart_eq {t : Text} (h : IsTrimmed t) : trimStart t = t := by
  cases t with
  | nil => rfl
  | cons c t => simp [trimStart, h.front c rfl]

theorem trimEnd_of_back {t : Text} (back : ∀ c, t.getLast? = some c → isBlank c = false) :
    trimEnd t = t := by
  unfold trimEnd
  cases reversed : t.reverse with
  | nil => simpa using reversed.symm
  | cons c rest =>
      have last : t.getLast? = some c := by
        rw [← List.head?_reverse, reversed]
        rfl
      rw [List.dropWhile_cons_of_neg (by simp [back c last]), ← reversed, List.reverse_reverse]

theorem IsTrimmed.trimEnd_eq {t : Text} (h : IsTrimmed t) : trimEnd t = t :=
  trimEnd_of_back h.back

/-- Trimming takes the blanks around a trimmed text off. -/
theorem trim_surround {gap gap' t : Text} (blank : Blank gap) (blank' : Blank gap')
    (trimmed : IsTrimmed t) : trim (gap ++ (t ++ gap')) = t := by
  unfold trim
  rw [trimStart_append blank]
  cases t with
  | nil =>
      rw [List.nil_append]
      have none : trimStart gap' = [] := by
        rw [← List.append_nil gap', trimStart_append blank']
        rfl
      rw [none]
      rfl
  | cons c t =>
      have start : trimStart (c :: t ++ gap') = c :: t ++ gap' := by
        simp [trimStart, trimmed.front c rfl]
      rw [start, trimEnd_append blank', trimmed.trimEnd_eq]

theorem trim_of_blank {t : Text} (blank : Blank t) : trim t = [] := by
  simpa using trim_surround blank blank_nil isTrimmed_nil

theorem IsTrimmed.trim_eq {t : Text} (h : IsTrimmed t) : trim t = t := by
  simpa using trim_surround blank_nil blank_nil h

/-- A text is its trimmed form between two stretches of blanks. -/
theorem exists_surround (t : Text) :
    ∃ gap gap', Blank gap ∧ Blank gap' ∧ IsTrimmed (trim t) ∧ t = gap ++ (trim t ++ gap') := by
  have cutFront : t = t.takeWhile isBlank ++ trimStart t := List.takeWhile_append_dropWhile.symm
  have cutBack : trimStart t =
      trim t ++ ((trimStart t).reverse.takeWhile isBlank).reverse := by
    unfold trim trimEnd
    rw [← List.reverse_append, List.takeWhile_append_dropWhile, List.reverse_reverse]
  refine ⟨t.takeWhile isBlank, ((trimStart t).reverse.takeWhile isBlank).reverse, ?_, ?_,
    ⟨?_, ?_⟩, ?_⟩
  · exact fun c member => List.mem_takeWhile_imp member
  · exact fun c member => List.mem_takeWhile_imp (List.mem_reverse.mp member)
  · intro c head
    have head' : (trimStart t).head? = some c := by
      rw [cutBack, List.head?_append, head]
      rfl
    have first := List.head?_dropWhile_not isBlank t
    unfold trimStart at head'
    rw [head'] at first
    exact first
  · intro c last
    unfold trim trimEnd at last
    rw [List.getLast?_reverse] at last
    have first := List.head?_dropWhile_not isBlank (trimStart t).reverse
    rw [last] at first
    exact first
  · rw [← cutBack]
    exact cutFront

theorem isTrimmed_trim (t : Text) : IsTrimmed (trim t) := by
  obtain ⟨-, -, -, -, trimmed, -⟩ := exists_surround t
  exact trimmed

theorem trim_trim (t : Text) : trim (trim t) = trim t :=
  (isTrimmed_trim t).trim_eq

/-! ## Words -/

theorem words_of_visible {w : Text} (visible : Visible w) (nonempty : w ≠ []) : words w = [w] := by
  have pieces : splitOn isBlank w = [w] := by
    induction w with
    | nil => exact absurd rfl nonempty
    | cons c w ih =>
        have here := visible c List.mem_cons_self
        cases w with
        | nil => simp [splitOn, here]
        | cons d w =>
            have rest := ih (fun e member => visible e (List.mem_cons_of_mem c member)) (by simp)
            rw [splitOn, rest]
            simp [here]
  simp [words, pieces, nonempty]

theorem words_append_of_blank {gap : Text} (blank : Blank gap) (t : Text) :
    words (gap ++ t) = words t := by
  induction gap with
  | nil => rfl
  | cons c gap ih =>
      have parted := words_append_blank (blank c List.mem_cons_self) [] (gap ++ t)
      rw [List.nil_append] at parted
      rw [List.cons_append, parted, ih fun d member => blank d (List.mem_cons_of_mem c member)]
      rfl

/-- Blanks part the words on their two sides. -/
theorem words_append {gap : Text} (blank : Blank gap) (nonempty : gap ≠ []) (s t : Text) :
    words (s ++ (gap ++ t)) = words s ++ words t := by
  obtain ⟨c, rest, rfl⟩ := List.exists_cons_of_ne_nil nonempty
  rw [List.cons_append, words_append_blank (blank c List.mem_cons_self),
    words_append_of_blank fun d member => blank d (List.mem_cons_of_mem c member)]

theorem words_append_right {gap : Text} (blank : Blank gap) (t : Text) :
    words (t ++ gap) = words t := by
  cases gap with
  | nil => rw [List.append_nil]
  | cons c rest =>
      have parted := words_append (s := t) (t := []) blank (by simp)
      rw [List.append_nil] at parted
      rw [parted]
      simp [words, splitOn]

/-! ## Cuts at a character -/

theorem cutAt?_eq_none {c : Char} {t : Text} (absent : c ∉ t) : cutAt? c t = none := by
  induction t with
  | nil => rfl
  | cons d t ih =>
      rw [List.mem_cons, not_or] at absent
      simp [cutAt?, Ne.symm absent.1, ih absent.2]

theorem cutAt?_append {c : Char} {s : Text} (absent : c ∉ s) (t : Text) :
    cutAt? c (s ++ c :: t) = some (s, t) := by
  induction s with
  | nil => simp [cutAt?]
  | cons d s ih =>
      rw [List.mem_cons, not_or] at absent
      simp [cutAt?, Ne.symm absent.1, ih absent.2]

/-- A text is cut at a character in one way, if the character is in neither front. -/
theorem eq_of_cut {c : Char} {a a' b b' : Text} (absent : c ∉ a) (absent' : c ∉ a')
    (same : a ++ c :: b = a' ++ c :: b') :
    a = a' ∧ b = b' := by
  have first := cutAt?_append absent b
  rw [same, cutAt?_append absent' b'] at first
  exact ⟨(Prod.mk.inj (Option.some.inj first)).1.symm, (Prod.mk.inj (Option.some.inj first)).2.symm⟩

theorem cutAtLast?_eq_none {c : Char} {t : Text} (absent : c ∉ t) : cutAtLast? c t = none := by
  induction t with
  | nil => rfl
  | cons d t ih =>
      rw [List.mem_cons, not_or] at absent
      simp [cutAtLast?, Ne.symm absent.1, ih absent.2]

/-- A text that has a character has it a last time. -/
theorem exists_last_cut {c : Char} {t : Text} (member : c ∈ t) :
    ∃ a b, t = a ++ c :: b ∧ c ∉ b := by
  rcases List.eq_append_cons_of_mem (List.mem_reverse.mpr member) with ⟨back, front, reversed, last⟩
  exact ⟨front.reverse, back.reverse, by simpa using congrArg List.reverse reversed,
    by simpa using last⟩

theorem cutAtLast?_append {c : Char} {t : Text} (absent : c ∉ t) (s : Text) :
    cutAtLast? c (s ++ c :: t) = some (s, t) := by
  induction s with
  | nil => simp [cutAtLast?, cutAtLast?_eq_none absent]
  | cons d s ih => simp [cutAtLast?, ih]

theorem afterLast_of_not_mem {c : Char} {t : Text} (absent : c ∉ t) : afterLast c t = t := by
  rw [afterLast, cutAtLast?_eq_none absent]

theorem afterLast_append {c : Char} {t : Text} (absent : c ∉ t) (s : Text) :
    afterLast c (s ++ c :: t) = t := by
  rw [afterLast, cutAtLast?_append absent]

theorem cutBefore?_append {part s t : Text} (nonempty : part ≠ [])
    (absent : ∀ x y, s = x ++ y → y ≠ [] → ¬ part <+: y ++ (part ++ t)) :
    cutBefore? part (s ++ (part ++ t)) = some (s, part ++ t) := by
  induction s with
  | nil =>
      obtain ⟨c, rest, rfl⟩ := List.exists_cons_of_ne_nil nonempty
      have here : List.isPrefixOf (c :: rest) (c :: (rest ++ t)) = true :=
        List.isPrefixOf_iff_prefix.mpr ⟨t, rfl⟩
      rw [List.nil_append, List.cons_append, cutBefore?, if_pos here]
  | cons d s ih =>
      have elsewhere : ¬ part.isPrefixOf (d :: (s ++ (part ++ t))) = true := fun here =>
        absent [] (d :: s) rfl (by simp) (List.isPrefixOf_iff_prefix.mp here)
      rw [List.cons_append, cutBefore?, if_neg elsewhere, ih fun x y cut =>
        absent (d :: x) y (by rw [cut]; rfl)]
      rfl

theorem cutBefore?_eq_none {part t : Text} (nonempty : part ≠ [])
    (absent : ∀ x y, t = x ++ y → ¬ part <+: y) : cutBefore? part t = none := by
  induction t with
  | nil => simp [cutBefore?, nonempty]
  | cons d t ih =>
      have elsewhere : ¬ part.isPrefixOf (d :: t) = true := fun here =>
        absent [] (d :: t) rfl (List.isPrefixOf_iff_prefix.mp here)
      rw [cutBefore?, if_neg elsewhere, ih fun x y cut => absent (d :: x) y (by rw [cut]; rfl)]
      rfl

/-! ## Peeling -/

section Peel

variable {layer? : Text → Option Text} {t : Text}

theorem peel_of_none (none : layer? t = none) : peel layer? t = (t, 0) := by
  rw [peel, none]

theorem peel_of_some {rest : Text} (layer : layer? t = some rest)
    (shorter : rest.length < t.length) :
    peel layer? t = ((peel layer? rest).1, (peel layer? rest).2 + 1) := by
  rw [peel, layer]
  simp [shorter]

/-- What taking off a layer keeps holds of what is left. -/
theorem peel_induction {P : Text → Prop} (step : ∀ t rest, layer? t = some rest → P t → P rest)
    (holds : P t) :
    P (peel layer? t).1 := by
  fun_induction peel layer? t with
  | case1 t none => exact holds
  | case2 t rest layer shorter peeled ih => exact ih (step t rest layer holds)
  | case3 t rest layer longer => exact holds

end Peel

end Text
end Testwright
