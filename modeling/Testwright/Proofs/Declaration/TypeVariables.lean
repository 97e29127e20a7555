import Testwright.Proofs.Declaration.Neighbours
import Testwright.Proofs.Matcher.Repetition

namespace Testwright

/-!
# Type variables

A list of type variables stands between angle brackets, and the bounds of a
variable have brackets of their own.  A reader of the list takes the first
closing bracket that lets it go on.  Behind a bracket inside the list only a
mark stands, and no result type begins with one, so that bracket is always the
last (`reads_list`).
-/

/-- A type variable and its bounds. -/
structure TypeVariable where
  name : Text
  bounds : List TypeTree

namespace TypeVariable

open Character (isBlank isDottedPart)
open Declaration (isIdentifier)
open Lexeme (IsBracket IsInner IsList IsPlain Joined Spelled behindBlank commaLexemes isBracket_near
  isPlain_mark near partFirst)
open Matcher (Reads Stops isParenthesis)
open Text (Blank)

/-! ## Lexemes -/

/-- The bounds behind the first one. -/
def boundLexemes : List TypeTree → List Lexeme
  | [] => []
  | type :: types => near ['&'] :: (type.lexemes ++ boundLexemes types)

def lexemes (v : TypeVariable) : List Lexeme :=
  near v.name ::
    match v.bounds with
    | [] => []
    | first :: rest =>
        behindBlank "extends".toList :: (partFirst first.lexemes ++ boundLexemes rest)

/-- The lexemes of a list of type variables.  An empty list is not written. -/
def listLexemes : List TypeVariable → List Lexeme
  | [] => []
  | first :: rest =>
      near ['<'] :: (commaLexemes ((first :: rest).map lexemes) ++ [near ['>']])

def isWellFormed (v : TypeVariable) : Bool :=
  isIdentifier v.name && v.bounds.all TypeTree.isDeclared

/-! ## Neighbours -/

theorem partFirst_chain {lexemes : List Lexeme} (chain : lexemes.IsChain Joined) :
    (partFirst lexemes).IsChain Joined := by
  cases lexemes with
  | nil => exact chain
  | cons l lexemes =>
      cases lexemes with
      | nil => exact List.isChain_singleton _
      | cons second lexemes =>
          obtain ⟨joined, chain⟩ := List.isChain_cons_cons.mp chain
          exact List.isChain_cons_cons.mpr ⟨joined, chain⟩

theorem plain_boundLexemes {bounds : List TypeTree} (h : bounds.all TypeTree.isDeclared = true) :
    (∀ l ∈ boundLexemes bounds, IsPlain l) ∧ ∀ {mark : Lexeme} {rest : List Lexeme},
    IsBracket mark →
      (mark :: rest).IsChain Joined → ∃ mark' rest', boundLexemes bounds ++ mark :: rest =
        mark' :: rest' ∧ IsBracket mark' ∧ (mark' :: rest').IsChain Joined := by
  induction bounds with
  | nil => exact ⟨by simp [boundLexemes], fun isBracket chain => ⟨_, _, rfl, isBracket, chain⟩⟩
  | cons type types ih =>
      simp only [List.all_cons, Bool.and_eq_true] at h
      obtain ⟨inType, chainType⟩ :=
        TypeTree.plain_lexemes type (TypeTree.isSpellable_of_isDeclared h.1)
      obtain ⟨inTypes, chainTypes⟩ := ih h.2
      have ampersand : IsBracket (near ['&']) := isBracket_near (by decide) (by decide)
      refine ⟨?_, fun {mark rest} isBracket chain => ?_⟩
      · simp only [boundLexemes, List.forall_mem_cons, List.forall_mem_append]
        exact ⟨isPlain_mark (by decide), inType, inTypes⟩
      · obtain ⟨mark', rest', shape, isBracket', chain'⟩ := chainTypes isBracket chain
        refine ⟨near ['&'], type.lexemes ++ mark' :: rest', by simp [boundLexemes, shape],
          ampersand, ?_⟩
        exact Lexeme.isChain_behind (Joined.behind_bracket ampersand (by decide))
          (Lexeme.isChain_before (Joined.before_bracket isBracket') chainType chain')

/-- A variable and a mark behind it. -/
theorem plain_lexemes {v : TypeVariable} (h : v.isWellFormed = true) :
    (∀ l ∈ v.lexemes, IsPlain l) ∧ ∀ {mark : Lexeme} {rest : List Lexeme}, IsBracket mark →
      (mark :: rest).IsChain Joined → (v.lexemes ++ mark :: rest).IsChain Joined := by
  obtain ⟨name, bounds⟩ := v
  simp only [isWellFormed, Bool.and_eq_true] at h
  have plain : IsPlain (near name) := Lexeme.isPlain_of_isIdentifier h.1
  have notClosing : name ≠ ['>'] := by
    rintro rfl
    exact absurd h.1 (by decide)
  cases bounds with
  | nil =>
      constructor
      · intro l member
        rw [List.mem_singleton.mp member]
        exact plain
      · intro mark rest isBracket chain
        exact List.isChain_cons_cons.mpr ⟨Or.inl isBracket, chain⟩
  | cons first bounds =>
      simp only [List.all_cons, Bool.and_eq_true] at h
      obtain ⟨-, declared, declaredAll⟩ := h
      obtain ⟨inFirst, chainFirst⟩ :=
        TypeTree.plain_lexemes first (TypeTree.isSpellable_of_isDeclared declared)
      obtain ⟨inBounds, chainBounds⟩ := plain_boundLexemes declaredAll
      have extends_ : IsPlain (behindBlank "extends".toList) :=
        ⟨Or.inl ⟨by decide, by decide⟩, by decide⟩
      constructor
      · simp only [lexemes, List.forall_mem_cons, List.forall_mem_append]
        exact ⟨plain, extends_, Lexeme.plain_partFirst inFirst, inBounds⟩
      · intro mark rest isBracket chain
        obtain ⟨mark', rest', shape, isBracket', chain'⟩ := chainBounds isBracket chain
        have whole : lexemes ⟨name, first :: bounds⟩ ++ mark :: rest = near name ::
            behindBlank "extends".toList :: (partFirst first.lexemes ++ mark' :: rest') := by
          rw [← shape]
          simp [lexemes]
        have behind := Lexeme.isChain_before (Joined.before_bracket isBracket')
          (partFirst_chain chainFirst) chain'
        have parted : ∀ l ∈ (partFirst first.lexemes ++ mark' :: rest').head?,
            Joined (behindBlank "extends".toList) l := by
          intro l head
          cases lexemes : first.lexemes with
          | nil =>
              rw [lexemes] at head
              cases head
              exact Or.inl isBracket'
          | cons l' lexemes' =>
              rw [lexemes] at head
              cases head
              exact Or.inr ⟨by decide, Or.inr rfl⟩
        rw [whole]
        refine List.isChain_cons_cons.mpr ⟨Or.inr ⟨notClosing, Or.inr rfl⟩, ?_⟩
        exact List.isChain_cons.mpr ⟨parted, behind⟩

theorem plain_commaLexemes {list : List TypeVariable}
    (h : ∀ v ∈ list, v.isWellFormed = true) :
    (∀ l ∈ commaLexemes (list.map lexemes), IsPlain l) ∧
      (commaLexemes (list.map lexemes) ++ [near ['>']]).IsChain Joined := by
  have closing : IsBracket (near ['>']) := isBracket_near (by decide) (by decide)
  induction list with
  | nil => exact ⟨by simp [commaLexemes], List.isChain_singleton _⟩
  | cons first rest ih =>
      obtain ⟨inFirst, chainFirst⟩ := plain_lexemes (h first List.mem_cons_self)
      obtain ⟨inRest, chainRest⟩ := ih fun v member => h v (List.mem_cons_of_mem first member)
      cases rest with
      | nil => exact ⟨inFirst, chainFirst closing (List.isChain_singleton _)⟩
      | cons second rest =>
          have comma : IsBracket (near [',']) := isBracket_near (by decide) (by decide)
          simp only [List.map_cons] at inRest chainRest ⊢
          constructor
          · simp only [commaLexemes, List.forall_mem_append, List.forall_mem_cons]
            exact ⟨inFirst, isPlain_mark (by decide), inRest⟩
          · have behind := Lexeme.isChain_behind (Joined.behind_bracket comma (by decide)) chainRest
            simpa [commaLexemes] using chainFirst comma behind

theorem plain_listLexemes {list : List TypeVariable} (h : ∀ v ∈ list, v.isWellFormed = true) :
    ∀ l ∈ listLexemes list, IsPlain l := by
  cases list with
  | nil => simp [listLexemes]
  | cons first rest =>
      simp only [listLexemes, List.forall_mem_cons, List.forall_mem_append]
      exact ⟨isPlain_mark (by decide), (plain_commaLexemes h).1, isPlain_mark (by decide), by simp⟩

theorem isList_listLexemes {list : List TypeVariable}
    (h : ∀ v ∈ list, v.isWellFormed = true) : IsList (listLexemes list) := by
  cases list with
  | nil => exact Lexeme.isList_nil
  | cons first rest =>
      have chain := (plain_commaLexemes h).2
      have opening : IsBracket (near ['<']) := isBracket_near (by decide) (by decide)
      constructor
      · exact fun l member => (plain_listLexemes h l member).1
      · exact Lexeme.isChain_behind (Lexeme.Loose.behind_mark opening.mark)
          (chain.imp fun _ _ => Joined.loose)

/-! ## Reading the list -/

theorem eq_closing_of_mem {l : Lexeme} (inner : IsInner l) (member : '>' ∈ l.text) :
    l.text = ['>'] := by
  have marks : ∀ w ∈ Lexeme.innerMarks, '>' ∈ w → w = ['>'] := by decide
  rcases inner with word | mark
  · exact absurd (word.2 '>' member) (by decide)
  · exact marks l.text mark member

theorem exists_front_of_bracket {l : Lexeme} (isBracket : IsBracket l) {gap rest : Text}
    (blank : Blank gap) :
    ∃ gap' c r, gap ++ (l.text ++ rest) = gap' ++ c :: r ∧ Blank gap' ∧ isBlank c = false ∧
      isDottedPart c = false := by
  obtain ⟨c, w, text⟩ := List.exists_cons_of_ne_nil isBracket.1
  obtain ⟨notDotted, visible⟩ := isBracket.2 c (by simp [text])
  exact ⟨gap, c, w ++ rest, by simp [text], blank, visible, notDotted⟩

/-- Behind a closing bracket in a spelling comes, after blanks, a bracket. -/
theorem exists_behind_closing {lexemes : List Lexeme} {closing : Lexeme}
    (inner : ∀ l ∈ lexemes, IsInner l) (chain : (lexemes ++ [closing]).IsChain Joined)
    (isBracket : IsBracket closing) {s x y : Text} (spelled : Spelled lexemes s)
    (cut : s = x ++ '>' :: y) {gap : Text} (blank : Blank gap) (rest : Text) :
    ∃ gap' c r, y ++ (gap ++ (closing.text ++ rest)) = gap' ++ c :: r ∧ Blank gap' ∧
      isBlank c = false ∧ isDottedPart c = false := by
  induction lexemes generalizing s x with
  | nil =>
      cases spelled
      cases x <;> cases cut
  | cons l lexemes ih =>
      obtain ⟨gap', r, rfl, blank', -, others⟩ := spelled
      obtain ⟨innerFirst, innerOthers⟩ := List.forall_mem_cons.mp inner
      have chain' : (lexemes ++ [closing]).IsChain Joined := chain.tail
      have later : ∀ a, r = a ++ '>' :: y → _ := fun a shape => ih innerOthers chain' others shape
      rw [← List.append_assoc] at cut
      rcases List.append_eq_append_iff.mp cut with ⟨a, -, shape⟩ | ⟨a, front, shape⟩
      · exact later a shape
      · cases a with
        | nil => exact later [] shape.symm
        | cons d a =>
            obtain ⟨rfl, rfl⟩ := List.cons.inj shape
            have text : l.text = ['>'] := by
              refine eq_closing_of_mem innerFirst ?_
              have member : '>' ∈ gap' ++ l.text := by simp [front]
              exact (List.mem_append.mp member).resolve_left fun inGap =>
                absurd (blank' _ inGap) (by decide)
            have nothing : a = [] := by
              rw [text] at front
              rcases List.eq_nil_or_concat a with rfl | ⟨a, e, rfl⟩
              · rfl
              · have longer : gap' ++ ['>'] = (x ++ '>' :: a) ++ [e] := by simpa using front
                have inGap : '>' ∈ gap' := by rw [(List.append_inj' longer rfl).1]; simp
                exact absurd (blank' _ inGap) (by decide)
            subst nothing
            cases lexemes with
            | nil =>
                cases others
                exact exists_front_of_bracket isBracket blank
            | cons second lexemes =>
                obtain ⟨gap₂, r, rfl, blank₂, -, -⟩ := others
                have joined : Joined l second := (List.isChain_cons_cons.mp chain).1
                have isBracket₂ := joined.resolve_right fun other => other.1 text
                have front : ∀ u, ∃ gap' c r', gap₂ ++ (second.text ++ u) = gap' ++ c :: r' ∧
                    Blank gap' ∧ isBlank c = false ∧ isDottedPart c = false :=
                  fun u => exists_front_of_bracket isBracket₂ blank₂
                simpa using front (r ++ (gap ++ (closing.text ++ rest)))

/-- A text in angle brackets without parentheses, the shortest first. -/
def angled : Matcher Unit := do
  Matcher.char '<'
  Matcher.lazyRuns fun c => !isParenthesis c
  Matcher.char '>'
  Matcher.run isBlank

/-- The reading of a list of type variables, up to what stands behind it. -/
theorem reads_list {β : Type} {next : Unit → Matcher β} {found : β} {last : Place}
    (dead : ∀ behind c r, isDottedPart c = false → next () ⟨behind, c :: r⟩ = [])
    {list : List TypeVariable} (h : ∀ v ∈ list, v.isWellFormed = true) {t gap u behind : Text}
    (spelled : Spelled (commaLexemes (list.map lexemes) ++ [near ['>']]) t) (blank : Blank gap)
    (stops : Stops isBlank u)
    (reads : Reads (next ()) ⟨('<' :: (t ++ gap)).reverse ++ behind, u⟩ found last) :
    Reads (Matcher.maybe angled >>= next) ⟨behind, '<' :: (t ++ (gap ++ u))⟩ found last := by
  have inner : ∀ l ∈ commaLexemes (list.map lexemes), IsInner l := fun l member =>
    ((plain_commaLexemes h).1 l member).1
  have chain := (plain_commaLexemes h).2
  obtain ⟨s, _, rfl, inList, last⟩ := Lexeme.spelled_append.mp spelled
  obtain ⟨gap', rfl, blank', -⟩ := Lexeme.spelled_singleton.mp last
  have closing : IsBracket (near ['>']) := isBracket_near (by decide) (by decide)
  have accepted : ∀ c ∈ s ++ gap', (!isParenthesis c) = true := by
    intro c member
    rcases List.mem_append.mp member with inText | inGap
    · simpa using (Lexeme.undivided_of_spelled inner inList).not_isParenthesis inText
    · simpa using ((Bool.or_eq_false_iff.mp (Lexeme.not_divides (by decide) (blank' c inGap))).2)
  -- A bracket inside the list has no name behind it.
  have deadInside : ∀ x y, s ++ gap' = x ++ y → y ≠ [] → ∀ behind,
      (Matcher.char '>' >>= fun _ => Matcher.run isBlank >>= next)
        ⟨behind, y ++ '>' :: (gap ++ u)⟩ = [] := by
    intro x y cut nonempty behind
    obtain ⟨d, y, rfl⟩ := List.exists_cons_of_ne_nil nonempty
    by_cases closes : d = '>'
    · subst closes
      have inText : ∃ y', s = x ++ '>' :: y' ∧ y = y' ++ gap' := by
        rcases List.append_eq_append_iff.mp cut with ⟨a, -, inGap⟩ | ⟨a, front, behindText⟩
        · exact absurd ( blank' '>' (by rw [inGap]; simp)) (by decide)
        · cases a with
          | nil =>
              exact absurd ( blank' '>' (by rw [← List.nil_append gap', ← behindText]; simp))
                (by decide)
          | cons e a =>
              obtain ⟨rfl, rfl⟩ := List.cons.inj behindText
              exact ⟨a, front, rfl⟩
      obtain ⟨y, shape, rfl⟩ := inText
      obtain ⟨gap₂, c, r, follows, blank₂, visible, notDotted⟩ :=
        exists_behind_closing inner chain closing inList shape blank' (gap ++ u)
      have ahead : y ++ gap' ++ '>' :: (gap ++ u) = gap₂ ++ c :: r := by simpa using follows
      rw [List.cons_append, Matcher.bind_of_single (Matcher.char_self _ _ _), ahead,
        Matcher.bind_of_single (Matcher.run_append blank₂ (Matcher.stops_cons.mpr visible) _)]
      exact dead _ c r notDotted
    · exact Matcher.bind_of_nil (Matcher.char_of_ne (by simpa using closes))
  rw [Lexeme.near_text] at reads ⊢
  apply Reads.maybe_bind
  unfold angled
  rw [Matcher.bind_assoc]
  refine (Reads.of_eq_cons (Matcher.char_self _ _ _)).bind ?_
  rw [Matcher.bind_assoc]
  have shape : s ++ (gap' ++ ['>']) ++ (gap ++ u) = (s ++ gap') ++ '>' :: (gap ++ u) := by simp
  have place : ('<' :: (s ++ (gap' ++ ['>']) ++ gap)).reverse ++ behind =
      gap.reverse ++ ('>' :: ((s ++ gap').reverse ++ '<' :: behind)) := by simp
  rw [place] at reads
  rw [shape]
  apply Reads.lazyRuns_bind accepted
  · intro x y cut nonempty
    rw [Matcher.bind_assoc]
    exact deadInside x y cut nonempty _
  · rw [Matcher.bind_assoc]
    refine (Reads.of_eq_cons (Matcher.char_self _ _ _)).bind ?_
    exact (Reads.of_eq_cons (Matcher.run_append blank stops _)).bind reads

end TypeVariable
end Testwright
