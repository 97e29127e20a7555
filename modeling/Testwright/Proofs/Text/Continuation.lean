import Mathlib.Data.List.Basic
import Testwright.Proofs.Text.Annotations

namespace Testwright
namespace Text

/-!
# Annotations when what follows is replaced

Which annotations a text holds may depend on what follows it: an annotation at the
end may go on, and arguments that are not closed may be closed later.  Where the
first parenthesis of what follows opens one, little of this can happen: the text
loses its annotations as before, up to an end without opening parentheses
(`Drops.exists_front`), and behind a name nothing happens at all (`exists_drops`).
Behind a semicolon, parts without parentheses may be traded for each other
(`drops_or_eq`).
-/

open Character (isBlank isDottedPart)
open Matcher (Stops isParenthesis)

variable {s t t' w : Text}

/-- The first parenthesis of the text opens, and something visible stands in front
of it. -/
def Opens (t : Text) : Prop :=
  ∃ a b, t = a ++ '(' :: b ∧ (∀ c ∈ a, isParenthesis c = false) ∧ ∃ c ∈ a, isBlank c = false

/-- No parenthesis stands in the text. -/
abbrev Plain (t : Text) : Prop :=
  ∀ c ∈ t, isParenthesis c = false

theorem Plain.not_mem {c : Char} (h : Plain t) (parenthesis : isParenthesis c = true) : c ∉ t := by
  intro member
  rw [h c member] at parenthesis
  cases parenthesis

theorem Opens.false_of_closed {inner rest : Text} (plain : Plain inner)
    (h : Opens (inner ++ ')' :: rest)) : False := by
  rcases h with ⟨a, b, same, plain', -⟩
  have inFirst : ∀ c ∈ inner, (!isParenthesis c) = true := fun c member => by simp [plain c member]
  have inSecond : ∀ c ∈ a, (!isParenthesis c) = true := fun c member => by simp [plain' c member]
  rcases eq_of_run_append inFirst inSecond (by decide) (by decide) same with ⟨-, other, -⟩
  exact absurd other (by decide)

theorem Opens.false_of_blank {gap rest : Text} (blank : Blank gap)
    (h : Opens (gap ++ '(' :: rest)) :
    False := by
  rcases h with ⟨a, b, same, plain, c, member, visible⟩
  have noParenthesis : '(' ∉ a := Plain.not_mem plain (by decide)
  rcases exists_behind noParenthesis same.symm with ⟨z, longer, -⟩
  rw [blank c (by rw [longer]; exact List.mem_append_left z member)] at visible
  cases visible

theorem Opens.append_left {a : Text} (plain : Plain a) (h : Opens t) : Opens (a ++ t) := by
  rcases h with ⟨b, r, rfl, plain', c, member, visible⟩
  exact ⟨a ++ b, r, by simp, List.forall_mem_append.mpr ⟨plain, plain'⟩, c,
    List.mem_append_right a member, visible⟩

/-! ## Arguments -/

/-- Where arguments stand in a text of two parts: in the first one, across the place
between them, or behind it. -/
theorem arguments_append {gap inner rest u : Text} (blank : Blank gap)
    (same : s ++ u = gap ++ '(' :: (inner ++ ')' :: rest)) :
    (∃ r, s = gap ++ '(' :: (inner ++ ')' :: r)) ∨
      (∃ i i', inner = i ++ i' ∧ s = gap ++ '(' :: i ∧ u = i' ++ ')' :: rest) ∨
      ∃ gap', Blank gap' ∧ u = gap' ++ '(' :: (inner ++ ')' :: rest) ∧ gap = s ++ gap' := by
  rcases List.append_eq_append_iff.mp same with ⟨gap', rfl, behind⟩ | ⟨v, rfl, behind⟩
  · exact Or.inr
      (Or.inr ⟨gap', fun c member => blank c (List.mem_append_right s member), behind, rfl⟩)
  · cases v with
    | nil => exact Or.inr (Or.inr ⟨[], blank_nil, behind.symm, by simp⟩)
    | cons c i =>
        rcases List.cons.inj behind with ⟨rfl, inside⟩
        rcases List.append_eq_append_iff.mp inside with ⟨i', rfl, behind'⟩ | ⟨r, rfl, behind'⟩
        · cases i' with
          | nil => exact Or.inr (Or.inl ⟨inner ++ [], [], by simp, rfl, behind'.symm⟩)
          | cons d r =>
              rcases List.cons.inj behind' with ⟨rfl, -⟩
              exact Or.inl ⟨r, rfl⟩
        · exact Or.inr (Or.inl ⟨i, r, rfl, rfl, behind'⟩)

theorem NoArguments.of_opens (h : NoArguments (s ++ t)) (opens : Opens t') :
    NoArguments (s ++ t') := by
  intro gap inner rest same blank
  by_contra none
  have plain : Plain inner := fun c member => by
    by_contra paren
    exact none ⟨c, member, by simpa using paren⟩
  rcases arguments_append blank same with
    ⟨r, rfl⟩ | ⟨i, i', rfl, rfl, rfl⟩ | ⟨gap', blank', rfl, rfl⟩
  · exact none (h gap inner (r ++ t) (by simp) blank)
  · exact opens.false_of_closed fun c member => plain c (List.mem_append_right i member)
  · exact opens.false_of_blank blank'

/-- Parts without parentheses may be traded for each other behind something visible. -/
theorem NoArguments.of_plain {g g' : Text} (h : NoArguments (s ++ (g ++ t)))
    (visible : ∃ c ∈ s, isBlank c = false) (plain : Plain g) (plain' : Plain g') :
    NoArguments (s ++ (g' ++ t)) := by
  intro gap inner rest same blank
  by_contra none
  have inside : Plain inner := fun c member => by
    by_contra paren
    exact none ⟨c, member, by simpa using paren⟩
  rcases arguments_append blank same with
    ⟨r, rfl⟩ | ⟨i, i', rfl, rfl, closed⟩ | ⟨gap', blank', opened, rfl⟩
  · exact none (h gap inner (r ++ (g ++ t)) (by simp) blank)
  · rcases exists_behind (plain'.not_mem (by decide)) closed with ⟨i'', rfl, rfl⟩
    rcases h gap (i ++ (g ++ i'')) rest (by simp) blank with ⟨c, member, paren⟩
    simp only [List.mem_append] at member
    rcases member with member | member | member
    · rw [inside c (List.mem_append_left _ member)] at paren
      cases paren
    · rw [plain c member] at paren
      cases paren
    · rw [inside c (by simp [member])] at paren
      cases paren
  · rcases visible with ⟨c, member, shown⟩
    rw [blank c (List.mem_append_left gap' member)] at shown
    cases shown

theorem stops_congr {accept : Char → Bool} (some : s ≠ []) (h : Stops accept (s ++ t)) (t' : Text) :
    Stops accept (s ++ t') := by
  rcases List.exists_cons_of_ne_nil some with ⟨c, s, rfl⟩
  exact h

/-! ## The first parenthesis behind opens -/

/-- The text loses its annotations as before, up to an end without opening
parentheses. -/
theorem Drops.exists_front (h : Drops s t w) (opens : Opens t') :
    ∃ front final u, w = front ++ final ∧ '(' ∉ final ∧ dropAnnotations (s ++ t') = front ++ u := by
  induction h with
  | done t => exact ⟨[], [], _, rfl, by simp, rfl⟩
  | @kept c s t w none rest ih =>
      by_cases none' : NoMark (c :: (s ++ t'))
      · rcases ih with ⟨front, final, u, rfl, absent, same⟩
        exact ⟨c :: front, final, u, rfl, absent, by
          rw [List.cons_append, dropAnnotations_cons none', same, List.cons_append]⟩
      · have blank : Blank s := by
          intro d member
          by_contra shown
          exact none' (noMark_congr none ⟨d, member, by simpa using shown⟩ t')
        have sign : c ≠ '(' := fun same => none' (by
          rw [same]
          exact noMark_of_ne (by decide) _)
        have absent : '(' ∉ s := fun member => absurd (blank '(' member) (by decide)
        refine ⟨[], c :: w, _, rfl, ?_, rfl⟩
        rw [rest.eq_of_not_mem (not_mem_sign_of_blank blank), List.mem_cons, not_or]
        exact ⟨Ne.symm sign, absent⟩
  | @mark r s t w mark rest ih =>
      by_cases atEnd : s = []
      · subst atEnd
        rw [rest.eq_of_not_mem List.not_mem_nil]
        exact ⟨[], [' '], _, rfl, by decide, rfl⟩
      · have mark' : IsMark r (s ++ t') := by
          cases mark with
          | bare blank some dotted stops none =>
              exact .bare blank some dotted (stops_congr atEnd stops t') (none.of_opens opens)
          | full blank some dotted blank' plain => exact .full blank some dotted blank' plain
        rcases ih with ⟨front, final, u, rfl, absent, same⟩
        exact ⟨' ' :: front, final, u, rfl, absent, by
          rw [List.append_assoc, dropAnnotations_mark mark', same, List.cons_append]⟩

/-- A blank that stands behind a dotted name is not in front of it. -/
theorem not_sign_of_dotted {a v gap name : Text} {c : Char} (blank : Blank gap)
    (dotted : ∀ d ∈ name, isDottedPart d = true) (isBlankC : isBlank c = true)
    (last : ∀ d, a.getLast? = some d → isDottedPart d = true) (nonempty : a ≠ [])
    (same : a ++ c :: v = ('@' :: gap) ++ name) : False := by
  rcases List.append_eq_append_iff.mp same with ⟨x, longer, -⟩ | ⟨x, rfl, named⟩
  · rcases List.eq_nil_or_concat a with rfl | ⟨a, d, rfl⟩
    · exact nonempty rfl
    · have isDotted := last d (by simp)
      have member : d ∈ '@' :: gap := by
        rw [longer]
        simp
      rcases List.mem_cons.mp member with rfl | inGap
      · exact absurd isDotted (by decide)
      · rw [Character.not_isDottedPart_of_isBlank (blank d inGap)] at isDotted
        cases isDotted
  · have isDotted := dotted c (by rw [named]; simp)
    rw [Character.not_isDottedPart_of_isBlank isBlankC] at isDotted
    cases isDotted

/-- No annotation of a text that ends in a name goes on behind it, if a blank stands
there and the first parenthesis opens. -/
theorem not_mark_over {r a v rest : Text} {c : Char} (mark : IsMark r rest)
    (whole : r = a ++ c :: v) (nonempty : a ≠ []) (isBlankC : isBlank c = true)
    (last : ∀ d, a.getLast? = some d → isDottedPart d = true) (opens : Opens (c :: (v ++ rest))) :
    False := by
  have notOpen : c ≠ '(' := fun same => absurd (same ▸ isBlankC) (by decide)
  have notClose : c ≠ ')' := fun same => absurd (same ▸ isBlankC) (by decide)
  cases mark with
  | bare blank _ dotted _ _ =>
      exact not_sign_of_dotted blank dotted isBlankC last nonempty (by simpa using whole.symm)
  | @full gap name gap' inner _ blank _ dotted blank' plain =>
      have whole' : ('@' :: gap ++ name ++ gap') ++ '(' :: (inner ++ [')']) = a ++ c :: v := by
        simpa using whole
      rcases List.append_eq_append_iff.mp whole' with ⟨x, longer, tails⟩ | ⟨x, longer, tails⟩
      · cases x with
        | nil => exact notOpen (List.cons.inj tails).1.symm
        | cons d i =>
            rcases List.cons.inj tails with ⟨rfl, inside⟩
            rcases List.append_eq_append_iff.mp inside with ⟨y, -, close⟩ | ⟨y, rfl, close⟩
            · cases y with
              | nil => exact notClose (List.cons.inj close).1.symm
              | cons e y => simp at close
            · cases y with
              | nil => exact notClose (List.cons.inj close).1
              | cons e y =>
                  rcases List.cons.inj close with ⟨rfl, rfl⟩
                  have inner : Plain (c :: y) :=
                    fun d member => plain d (List.mem_append_right i member)
                  exact Opens.false_of_closed inner (by simpa using opens)
      · cases x with
        | nil => exact notOpen (List.cons.inj tails).1
        | cons d x =>
            rcases List.cons.inj tails with ⟨rfl, rfl⟩
            have final : ∀ front : Text, gap' = front ++ c :: x → False := fun front cut => by
              have blank : Blank (c :: x) := fun d member =>
                blank' d (by rw [cut]; exact List.mem_append_right front member)
              exact Opens.false_of_blank blank (by simpa using opens)
            rcases List.append_eq_append_iff.mp longer with ⟨y, -, cut⟩ | ⟨y, named, cut⟩
            · exact final y cut
            · cases y with
              | nil => exact final [] (by simpa using cut.symm)
              | cons e y =>
                  rcases List.cons.inj cut with ⟨rfl, rfl⟩
                  exact not_sign_of_dotted blank dotted isBlankC last nonempty named.symm

/-- Behind a name, where a blank follows and the first parenthesis opens, no
annotation reaches over. -/
theorem exists_drops {c : Char} (isBlankC : isBlank c = true) (opens : Opens (c :: t)) {a : Text}
    (last : ∀ d, a.getLast? = some d → isDottedPart d = true) : ∃ w, Drops a (c :: t) w := by
  induction size : a.length using Nat.strongRecOn generalizing a with
  | ind n ih =>
      cases a with
      | nil => exact ⟨[], .done _⟩
      | cons d a =>
          have last' : ∀ b : Text, b <:+ d :: a → b ≠ [] →
              ∀ e, b.getLast? = some e → isDottedPart e = true := by
            rintro b ⟨front, whole⟩ some e found
            apply last e
            rw [← whole, List.getLast?_append_of_ne_nil _ some, found]
          have shorter : ∀ b : Text, b <:+ d :: a → b.length < n → ∃ w, Drops b (c :: t) w := by
            intro b suffix less
            by_cases some : b = []
            · exact ⟨[], some ▸ .done _⟩
            · exact ih b.length less (last' b suffix some) rfl
          rcases isMark_or_noMark (d :: a ++ c :: t) with ⟨r, rest, whole, mark⟩ | none
          · have inside : ∃ b, d :: a = r ++ b ∧ rest = b ++ c :: t := by
              rcases List.append_eq_append_iff.mp whole with ⟨v, longer, tails⟩ | ⟨b, cut, tails⟩
              · cases v with
                | nil => exact ⟨[], by simpa using longer.symm, tails.symm⟩
                | cons e v =>
                    rcases List.cons.inj tails with ⟨rfl, rfl⟩
                    exact (not_mark_over mark longer (List.cons_ne_nil d a) isBlankC
                      last opens).elim
              · exact ⟨b, cut, tails⟩
            rcases inside with ⟨b, cut, rfl⟩
            have some : r ≠ [] := by cases mark <;> simp
            have less : b.length < n := by
              have positive := List.length_pos_iff.mpr some
              rw [← size, cut, List.length_append]
              omega
            rcases shorter b ⟨r, cut.symm⟩ less with ⟨w, drops⟩
            exact ⟨' ' :: w, cut ▸ .mark mark drops⟩
          · rcases shorter a (List.suffix_cons d a) (by simp [← size]) with ⟨w, drops⟩
            exact ⟨d :: w, .kept none drops⟩

/-! ## Behind a semicolon -/

theorem IsMark.ne_nil {r : Text} (mark : IsMark r t) : r ≠ [] := by
  cases mark <;> simp

theorem IsMark.of_plain {r b g g' : Text} (mark : IsMark r (b ++ (g ++ t)))
    (visible : ∃ c ∈ b, isBlank c = false) (plain : Plain g) (plain' : Plain g') :
    IsMark r (b ++ (g' ++ t)) := by
  cases mark with
  | bare blank some dotted stops none =>
      have nonempty : b ≠ [] := by
        rintro rfl
        rcases visible with ⟨c, member, -⟩
        cases member
      exact .bare blank some dotted (stops_congr nonempty stops _)
        (none.of_plain visible plain plain')
  | full blank some dotted blank' inner => exact .full blank some dotted blank' inner

/-- Behind something visible, parts of what follows without parentheses may be traded for
each other. -/
theorem Drops.of_plain {u g g' : Text} (h : Drops s (u ++ (g ++ t)) w)
    (visible : ∃ c ∈ u, isBlank c = false) (plain : Plain g) (plain' : Plain g') :
    Drops s (u ++ (g' ++ t)) w := by
  generalize behind : u ++ (g ++ t) = v at h
  rcases visible with ⟨c, member, shown⟩
  induction h with
  | done => exact .done _
  | @kept d s v w none rest ih =>
      subst behind
      rw [← List.append_assoc] at none
      have none' := noMark_congr none ⟨c, List.mem_append_right s member, shown⟩ (g' ++ t)
      rw [List.append_assoc] at none'
      exact .kept none' (ih rfl)
  | @mark r s v w mark rest ih =>
      subst behind
      rw [← List.append_assoc] at mark
      have mark' := mark.of_plain ⟨c, List.mem_append_right s member, shown⟩ plain plain'
      rw [List.append_assoc] at mark'
      exact .mark mark' (ih rfl)

/-- An annotation around a semicolon has it among its arguments, and these may end
otherwise. -/
theorem IsMark.exists_arguments {r a v rest : Text} (mark : IsMark r rest)
    (whole : r = a ++ ';' :: v) :
    ∃ i, v = i ++ [')'] ∧ Plain i ∧
      ∀ i' rest' : Text, Plain i' → IsMark (a ++ ';' :: (i' ++ [')'])) rest' := by
  have notBlank : ∀ gap : Text, Blank gap → ';' ∉ gap := fun gap blank member =>
    absurd (blank ';' member) (by decide)
  have notDotted : ∀ name : Text, (∀ c ∈ name, isDottedPart c = true) →
      ';' ∉ name := fun name dotted member =>
    absurd (dotted ';' member) (by decide)
  cases mark with
  | @bare gap name _ blank _ dotted _ _ =>
      have member : ';' ∈ '@' :: (gap ++ name) := by
        rw [whole]
        simp
      simp [notBlank gap blank, notDotted name dotted] at member
  | @full gap name gap' inner _ blank some dotted blank' plain =>
      have whole' : ('@' :: (gap ++ (name ++ (gap' ++ ['('])))) ++ (inner ++ [')']) =
          a ++ ';' :: v := by
        simpa using whole
      have absent : ';' ∉ '@' :: (gap ++ (name ++ (gap' ++ ['(']))) := by
        simp [notBlank gap blank, notDotted name dotted, notBlank gap' blank']
      rcases exists_behind absent whole' with ⟨i, rfl, inside⟩
      rcases List.append_eq_append_iff.mp inside with ⟨y, -, close⟩ | ⟨y, rfl, close⟩
      · cases y with
        | nil => exact absurd (List.cons.inj close).1 (by decide)
        | cons e y => simp at close
      · cases y with
        | nil => exact absurd (List.cons.inj close).1 (by decide)
        | cons e y =>
            rcases List.cons.inj close with ⟨rfl, rfl⟩
            refine ⟨y, rfl, fun c member => plain c (by simp [member]), fun i' rest' plain' => ?_⟩
            have all : Plain (i ++ ';' :: i') := List.forall_mem_append.mpr
              ⟨fun c member => plain c (by simp [member]),
                List.forall_mem_cons.mpr ⟨by decide, plain'⟩⟩
            have mark : IsMark _ rest' := .full blank some dotted blank' all
            simpa using mark

/-- Behind a semicolon, parts without parentheses may be traded for each other: no
annotation reaches over the semicolon, or one goes on behind these parts. -/
theorem drops_or_eq {g g' : Text} (plain : Plain g) (plain' : Plain g') (a t : Text) :
    (∃ w, Drops a (';' :: (g ++ t)) w ∧ Drops a (';' :: (g' ++ t)) w) ∨
      dropAnnotations (a ++ ';' :: (g ++ t)) = dropAnnotations (a ++ ';' :: (g' ++ t)) := by
  have cut : ∀ b u : Text, b ++ ';' :: u = (b ++ [';']) ++ u := by simp
  induction size : a.length using Nat.strongRecOn generalizing a with
  | ind n ih =>
      cases a with
      | nil => exact Or.inl ⟨[], .done _, .done _⟩
      | cons d a =>
          rcases isMark_or_noMark (d :: a ++ ';' :: (g ++ t)) with ⟨r, rest, whole, mark⟩ | none
          · have inside : ∀ b, d :: a = r ++ b → rest = b ++ ';' :: (g ++ t) →
                (∃ w, Drops (d :: a) (';' :: (g ++ t)) w ∧ Drops (d :: a) (';' :: (g' ++ t)) w) ∨
                  dropAnnotations (d :: a ++ ';' :: (g ++ t)) =
                    dropAnnotations (d :: a ++ ';' :: (g' ++ t)) := by
              rintro b longer rfl
              have mark' : IsMark r (b ++ ';' :: (g' ++ t)) := by
                rw [cut] at mark ⊢
                exact mark.of_plain ⟨';', by simp, by decide⟩ plain plain'
              have less : b.length < n := by
                have positive := List.length_pos_iff.mpr mark.ne_nil
                rw [← size, longer, List.length_append]
                omega
              rw [longer]
              rcases ih b.length less b rfl with ⟨w, drops, drops'⟩ | same
              · exact Or.inl ⟨' ' :: w, .mark mark drops, .mark mark' drops'⟩
              · refine Or.inr ?_
                rw [List.append_assoc, dropAnnotations_mark mark, same, List.append_assoc,
                  dropAnnotations_mark mark']
            rcases List.append_eq_append_iff.mp whole with ⟨v, longer, tails⟩ | ⟨b, longer, tails⟩
            · cases v with
              | nil => exact inside [] (by simpa using longer.symm) tails.symm
              | cons e v =>
                  rcases List.cons.inj tails with ⟨rfl, behind⟩
                  rcases mark.exists_arguments longer with ⟨i, rfl, inArguments, others⟩
                  have behind' : g ++ t = i ++ ')' :: rest := behind.trans (by simp)
                  rcases exists_behind (plain.not_mem (by decide)) behind' with ⟨i', rfl, rfl⟩
                  have mark' := others (g' ++ i') rest (List.forall_mem_append.mpr
                    ⟨plain', fun c member => inArguments c (List.mem_append_right g member)⟩)
                  refine Or.inr ?_
                  have first := dropAnnotations_mark (longer ▸ mark)
                  have second := dropAnnotations_mark mark'
                  rw [show d :: a ++ ';' :: (g ++ (i' ++ ')' :: rest)) =
                      d :: a ++ ';' :: (g ++ i' ++ [')']) ++ rest by simp, first,
                    show d :: a ++ ';' :: (g' ++ (i' ++ ')' :: rest)) =
                      d :: a ++ ';' :: (g' ++ i' ++ [')']) ++ rest by simp, second]
            · exact inside b longer tails
          · have none' : NoMark (d :: (a ++ ';' :: (g' ++ t))) := by
              rw [cut]
              rw [List.cons_append, cut] at none
              exact noMark_congr none ⟨';', by simp, by decide⟩ _
            rcases ih a.length (by simp [← size]) a rfl with ⟨w, drops, drops'⟩ | same
            · exact Or.inl ⟨d :: w, .kept none drops, .kept none' drops'⟩
            · refine Or.inr ?_
              have front : dropAnnotations (d :: (a ++ ';' :: (g ++ t))) = _ :=
                dropAnnotations_cons none
              rw [List.cons_append, front, same, List.cons_append, dropAnnotations_cons none']

end Text
end Testwright
