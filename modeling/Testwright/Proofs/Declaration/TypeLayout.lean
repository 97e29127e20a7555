import Mathlib.Data.List.Chain
import Testwright.Proofs.Declaration.TypeSpelling
import Testwright.Proofs.Matcher.Accepted
import Testwright.Source.Field

namespace Testwright

/-!
# Spellings of a type that its layout accepts

A reader of fields looks for a type by a pattern that it makes of the resolved
type.  Of a name the pattern keeps the last part, behind any qualification.  So
it still reads a name that resolution qualified by an import or by the package.
It does not read a type variable that resolution erased.  A wildcard is one name
together with its bound, and there the last part is all of it only if resolution
leaves the bound as it is, without a dot.  A type with none but the former names
is traceable, and its layout accepts each spelling of it in which the question
marks stand alone (`exists_accepted`).
-/

open Character (isBlank isNamePart)
open Declaration (isDottedName isIdentifier isNodeName nameLexemes)
open Lexeme (Spelled near near_text)
open Text (Blank Visible)

namespace Text

/-- Behind no question mark of the text stands a name character. -/
def MarksAlone (t : Text) : Prop :=
  t.IsChain fun c d => c = '?' → isNamePart d = false

instance (t : Text) : Decidable (MarksAlone t) :=
  inferInstanceAs (Decidable (List.IsChain _ t))

theorem MarksAlone.left {s t : Text} (alone : MarksAlone (s ++ t)) : MarksAlone s :=
  List.IsChain.left_of_append alone

theorem MarksAlone.right {s t : Text} (alone : MarksAlone (s ++ t)) : MarksAlone t :=
  List.IsChain.right_of_append alone

end Text

namespace NameScope

/-- Whether a pattern made of the resolved name reads the name. -/
def isTraceable (policy : ExtractionPolicy) (scope : NameScope) (name : Text) : Bool :=
  match Text.words name with
  | [word] => !(policy.eraseVariables && isVariable word)
  | [_, _, base] => !base.any (· == '.') && scope.resolve policy base == base
  | _ => false

/-- Resolution changes no more than the qualification of a name that it does not
erase. -/
theorem afterLast_resolveName {policy : ExtractionPolicy} {scope : NameScope} {word : Text}
    (kept : (policy.eraseVariables && isVariable word) = false) :
    Text.afterLast '.' (scope.resolveName policy word) = Text.afterLast '.' word := by
  unfold resolveName
  rw [kept]
  split
  · rfl
  · rw [if_neg Bool.false_ne_true]
    split
    · rfl
    · next noDot =>
        have absent : '.' ∉ word := fun member => noDot (List.any_eq_true.mpr ⟨'.', member, rfl⟩)
        split
        · next imported found =>
            have covered := List.find?_some found
            simp only [covers, Bool.and_eq_true, beq_iff_eq] at covered
            split
            · rw [covered.2, Text.afterLast_of_not_mem absent]
            · rfl
        · split
          · rfl
          · split
            · split
              · rw [Text.afterLast_append absent, Text.afterLast_of_not_mem absent]
              · rfl
            · rfl

end NameScope

namespace Matcher

/-! ## Names -/

theorem accepts_spacedWord_append {w v t : Text} (visible : Visible w)
    (h : Accepts (spacedWord v) t) :
    Accepts (spacedWord (w ++ v)) (w ++ t) := by
  induction w with
  | nil => exact h
  | cons c w ih =>
      have seen := visible c List.mem_cons_self
      have noSpace : c ≠ ' ' := by
        rintro rfl
        cases seen
      have later := ih fun d member => visible d (List.mem_cons_of_mem c member)
      rw [List.cons_append, spacedWord, if_neg noSpace]
      exact (accepts_char c).bind later

theorem accepts_spacedWord_space {gap v t : Text} (blank : Blank gap) (nonempty : gap ≠ [])
    (h : Accepts (spacedWord v) t) : Accepts (spacedWord (' ' :: v)) (gap ++ t) := by
  rw [spacedWord, if_pos rfl]
  exact (accepts_runs1 blank nonempty).bind h

theorem accepts_spacedWord {w : Text} (visible : Visible w) : Accepts (spacedWord w) w := by
  simpa using accepts_spacedWord_append (v := []) visible accepts_pure

/-- A name and the dot behind it, as they stand in front of the last part. -/
def qualifier : Matcher Unit := do
  run1 isNamePart
  char '.'

theorem consumes_qualifier : Consumes qualifier :=
  (consumes_run1 isNamePart).bind_left fun _ => (consumes_char '.').keeps

theorem accepts_qualifier {w : Text} (parts : ∀ c ∈ w, isNamePart c = true) (some : w ≠ []) :
    Accepts qualifier (w ++ ['.']) := by
  intro behind rest
  have name : run1 isNamePart ⟨behind, w ++ '.' :: rest⟩ = _ :=
    run1_append parts some (stops_cons.mpr (by decide)) behind
  rw [List.append_assoc, List.singleton_append, qualifier, bind_of_single name, char_self]
  simp

/-- A dotted name is its last part behind a qualification. -/
theorem exists_qualification {name : Text} (h : isDottedName name = true) :
    ∃ front last, name = front ++ last ∧ isIdentifier last = true ∧
      (front = [] ∨ ∃ f, front = f ++ ['.']) ∧ Accepts (many qualifier) front := by
  obtain ⟨first, rest, rfl, isFirst, areRest⟩ := Declaration.exists_parts h
  clear h
  induction rest generalizing first with
  | nil => exact ⟨[], first, by simp, isFirst, Or.inl rfl, accepts_many_nil consumes_qualifier⟩
  | cons second rest ih =>
      obtain ⟨isSecond, areLater⟩ := List.forall_mem_cons.mp areRest
      obtain ⟨front, last, whole, isLast, dot, accepts⟩ := ih second isSecond areLater
      have qualifies := accepts_qualifier (Declaration.isNamePart_of_isIdentifier isFirst)
        (Declaration.isIdentifier_ne_nil isFirst)
      refine ⟨(first ++ ['.']) ++ front, last, ?_, isLast, Or.inr ?_,
        qualifies.many_append consumes_qualifier accepts⟩
      · rw [List.flatMap_cons, List.cons_append, whole]
        simp
      · rcases dot with rfl | ⟨f, rfl⟩
        · exact ⟨first, by simp⟩
        · exact ⟨first ++ '.' :: f, by simp⟩

/-- The layout of a name accepts every dotted name with the same last part. -/
theorem accepts_nameLayout {name name' : Text} (h : isDottedName name = true)
    (same : Text.afterLast '.' name' = Text.afterLast '.' name) :
    Accepts (nameLayout name') name := by
  obtain ⟨front, last, rfl, isLast, dot, accepts⟩ := exists_qualification h
  have absent : '.' ∉ last := fun member =>
    absurd (Declaration.isNamePart_of_isIdentifier isLast '.' member) (by decide)
  have kept : Text.afterLast '.' (front ++ last) = last := by
    rcases dot with rfl | ⟨f, rfl⟩
    · exact Text.afterLast_of_not_mem absent
    · rw [List.append_assoc, List.singleton_append, Text.afterLast_append absent]
  rw [nameLayout, same, kept]
  exact accepts.bind (accepts_spacedWord (Declaration.visible_of_isIdentifier isLast))

/-- A name without a dot is read without a qualification. -/
theorem accepts_nameLayout_of_not_mem {name t : Text} (absent : '.' ∉ name)
    (h : Accepts (spacedWord name) t) : Accepts (nameLayout name) t := by
  rw [nameLayout, Text.afterLast_of_not_mem absent]
  exact (accepts_many_nil consumes_qualifier).bind h

/-- The layout of a wildcard with a bound wants blanks on both sides of the bound
word. -/
theorem accepts_bounded {bound base gap gap' : Text} (isBound : bound ∈ NameScope.boundWords)
    (visible : Visible base) (noDot : '.' ∉ base) (blank : Blank gap) (some : gap ≠ [])
    (blank' : Blank gap') (some' : gap' ≠ []) :
    Accepts (nameLayout (['?'] ++ ' ' :: (bound ++ ' ' :: base)))
      (['?'] ++ (gap ++ (bound ++ (gap' ++ base)))) := by
  obtain ⟨visibleBound, noDotBound⟩ :=
    (by decide : ∀ w ∈ NameScope.boundWords, Visible w ∧ '.' ∉ w) bound isBound
  apply accepts_nameLayout_of_not_mem (by simp [noDot, noDotBound])
  have inBase := accepts_spacedWord_space blank' some' (accepts_spacedWord visible)
  have inBound :=
    accepts_spacedWord_space blank some (accepts_spacedWord_append visibleBound inBase)
  exact accepts_spacedWord_append (by decide) inBound

theorem gap_ne_nil {x gap bound rest : Text} (isBound : bound ∈ NameScope.boundWords)
    (alone : Text.MarksAlone (x ++ (['?'] ++ (gap ++ (bound ++ rest))))) : gap ≠ [] := by
  rintro rfl
  have begins : ∀ w ∈ NameScope.boundWords, w.head?.any isNamePart = true := by decide
  have part := begins bound isBound
  cases bound with
  | nil => cases part
  | cons c bound =>
      have behindMark := (List.isChain_cons_cons.mp alone.right).1 rfl
      rw [List.head?_cons, Option.any_some, behindMark] at part
      cases part

/-- The layout of a resolved name accepts the spellings of the name. -/
theorem exists_accepted_name {policy : ExtractionPolicy} {scope : NameScope} {name t : Text}
    (h : isNodeName name = true) (traceable : scope.isTraceable policy name = true)
    (spelled : Spelled (nameLexemes name) t) (alone : Text.MarksAlone t) :
    ∃ gap w, t = gap ++ w ∧ Blank gap ∧ Accepts (nameLayout (scope.resolve policy name)) w := by
  have form := Declaration.nodeName_of_isNodeName h
  unfold NameScope.isTraceable at traceable
  unfold NameScope.resolve
  unfold nameLexemes at spelled
  generalize Text.words name = words at form traceable spelled
  cases form with
  | @dotted word dotted =>
      obtain ⟨gap, rfl, blank, -⟩ := Lexeme.spelled_singleton.mp spelled
      have noMark : word.head? ≠ some '?' := fun head =>
        absurd (Declaration.isDottedPart_of_isDottedName dotted '?' (List.mem_of_mem_head? head))
          (by decide)
      have kept : (policy.eraseVariables && NameScope.isVariable word) = false :=
        (Bool.not_eq_true' _).mp traceable
      rw [NameScope.resolveWords, if_neg noMark]
      exact ⟨gap, word, rfl, blank,
        accepts_nameLayout dotted (NameScope.afterLast_resolveName kept)⟩
  | wildcard =>
      obtain ⟨gap, rfl, blank, -⟩ := Lexeme.spelled_singleton.mp spelled
      have same : NameScope.resolveWords policy scope [['?']] = ['?'] := rfl
      rw [same]
      exact ⟨gap, ['?'], rfl, blank,
        accepts_nameLayout_of_not_mem (by decide) (accepts_spacedWord (by decide))⟩
  | @bounded bound base isBound dotted =>
      obtain ⟨gap, _, rfl, blank, -, gap₁, _, rfl, blank₁, -, gap₂, _, rfl, blank₂, apart, rfl⟩ :=
        spelled
      simp only [Bool.and_eq_true, Bool.not_eq_true', beq_iff_eq, List.any_eq_false] at traceable
      have noDot : '.' ∉ base := fun member => traceable.1 '.' member rfl
      have visible := Declaration.visible_of_isDottedName dotted
      have kept : NameScope.resolveWords policy scope [base] = base := by
        rw [← Text.words_of_visible visible (Declaration.isDottedName_ne_nil dotted)]
        exact traceable.2
      have same : NameScope.resolveWords policy scope [['?'], bound, base] =
          ['?'] ++ ' ' :: (bound ++ ' ' :: base) := by
        have noBound : ([] : Text) ∉ NameScope.boundWords := by decide
        simpa [NameScope.resolveWords, isBound, noBound] using kept
      rw [same]
      refine ⟨gap, ['?'] ++ (gap₁ ++ (bound ++ (gap₂ ++ base))), by simp, blank, ?_⟩
      exact accepts_bounded isBound visible noDot blank₁
        (gap_ne_nil isBound alone) blank₂ (apart rfl)

/-! ## Types -/

theorem accepts_bracketsLayout {dimensions : Nat} {b : Text}
    (spelled : Spelled (TypeTree.bracketLexemes dimensions) b) :
    Accepts (bracketsLayout dimensions) b := by
  induction dimensions generalizing b with
  | zero =>
      cases spelled
      exact accepts_pure
  | succ dimensions ih =>
      obtain ⟨gap, _, rfl, blank, -, gap', rest, rfl, blank', -, spelled⟩ := spelled
      exact (accepts_runs blank).bind ((accepts_char '[').bind ((accepts_runs blank').bind
        ((accepts_char ']').bind (ih spelled))))

end Matcher

namespace TypeTree

open Matcher

mutual

/-- Whether all names of the type are traceable. -/
def isTraceable (policy : ExtractionPolicy) (scope : NameScope) : TypeTree → Bool
  | ⟨name, arguments, _, _⟩ => scope.isTraceable policy name && areTraceable policy scope arguments

def areTraceable (policy : ExtractionPolicy) (scope : NameScope) : List TypeTree → Bool
  | [] => true
  | type :: types => isTraceable policy scope type && areTraceable policy scope types

end

mutual

/-- The layout of a resolved type accepts the spellings of the type, up to the
blanks in front. -/
theorem exists_accepted (policy : ExtractionPolicy) (scope : NameScope) :
    (type : TypeTree) → type.isSpellable = true → type.isTraceable policy scope = true →
    {t : Text} →
      Spelled type.lexemes t → Text.MarksAlone t →
      ∃ gap w, t = gap ++ w ∧ Blank gap ∧ Accepts (typeLayout (type.resolved policy scope)) w
  | ⟨name, [], dimensions, token⟩, h, traceable, t, spelled, alone => by
      simp only [isSpellable, isTraceable, Bool.and_eq_true] at h traceable
      rw [lexemes] at spelled
      obtain ⟨n, b, rfl, inName, inBrackets⟩ := Lexeme.spelled_append.mp spelled
      obtain ⟨gap, w, rfl, blank, accepts⟩ := exists_accepted_name h.1 traceable.1 inName alone.left
      refine ⟨gap, w ++ b, by simp, blank, ?_⟩
      rw [resolved, resolvedAll]
      exact accepts.bind (accepts_bracketsLayout inBrackets)
  | ⟨name, first :: rest, dimensions, token⟩, h, traceable, t, spelled, alone => by
      simp only [isSpellable, areSpellable, isTraceable, areTraceable,
        Bool.and_eq_true] at h traceable
      rw [lexemes] at spelled
      obtain ⟨n, _, rfl, inName, others⟩ := Lexeme.spelled_append.mp spelled
      obtain ⟨_, b, rfl, ⟨gap₁, _, rfl, blank₁, -, inside⟩, inBrackets⟩ :=
        Lexeme.spelled_append.mp others
      obtain ⟨_, _, rfl, inArguments, atEnd⟩ := Lexeme.spelled_append.mp inside
      obtain ⟨a, c, rfl, inFirst, inRest⟩ := Lexeme.spelled_append.mp inArguments
      obtain ⟨gap₃, rfl, blank₃, -⟩ := Lexeme.spelled_singleton.mp atEnd
      have aloneArguments := alone.right.left.right.right.left
      obtain ⟨gap, w, rfl, blank, accepts⟩ := exists_accepted_name h.1 traceable.1 inName alone.left
      obtain ⟨gap₂, v, rfl, blank₂, acceptsFirst⟩ :=
        exists_accepted policy scope first h.2.1 traceable.2.1 inFirst aloneArguments.left
      have acceptsRest :=
        accepts_typeLayoutRest policy scope rest h.2.2 traceable.2.2 inRest aloneArguments.right
      refine ⟨gap, w ++ (gap₁ ++ (['<'] ++ (gap₂ ++ (v ++ (c ++ (gap₃ ++ (['>'] ++ b))))))),
        by simp, blank, ?_⟩
      rw [resolved, resolvedAll]
      exact accepts.bind
        ((accepts_runs blank₁).bind ((accepts_char '<').bind ((accepts_runs blank₂).bind
        (acceptsFirst.bind (acceptsRest.bind ((accepts_runs blank₃).bind ((accepts_char '>').bind
          (accepts_bracketsLayout inBrackets))))))))

theorem accepts_typeLayoutRest (policy : ExtractionPolicy) (scope : NameScope) :
    (types : List TypeTree) → areSpellable types = true → areTraceable policy scope types = true →
      {t : Text} → Spelled (lexemesRest types) t → Text.MarksAlone t →
      Accepts (typeLayoutRest (resolvedAll policy scope types)) t
  | [], _, _, t, spelled, _ => by
      cases spelled
      exact accepts_pure
  | type :: types, h, traceable, t, spelled, alone => by
      simp only [areSpellable, areTraceable, Bool.and_eq_true] at h traceable
      rw [lexemesRest] at spelled
      obtain ⟨gap, _, rfl, blank, -, inside⟩ := spelled
      obtain ⟨a, b, rfl, inType, inRest⟩ := Lexeme.spelled_append.mp inside
      obtain ⟨gap', w, rfl, blank', accepts⟩ :=
        exists_accepted policy scope type h.1 traceable.1 inType alone.right.right.left
      have acceptsRest :=
        accepts_typeLayoutRest policy scope types h.2 traceable.2 inRest alone.right.right.right
      rw [resolvedAll, typeLayoutRest, List.append_assoc gap']
      exact (accepts_runs blank).bind ((accepts_char ',').bind ((accepts_runs blank').bind
        (accepts.bind acceptsRest)))

end

end TypeTree
end Testwright
