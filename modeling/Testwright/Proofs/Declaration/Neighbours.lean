import Testwright.Proofs.Declaration.Keyword
import Testwright.Proofs.Declaration.ParameterSpelling

namespace Testwright

/-!
# Neighbours in types and parameter lists

The lexemes of types and of parameter lists can be told from each other in every
spelling, and none of their characters ends a piece of a source.  Behind the
closing bracket of type arguments there is never a word: that is what stops a
reader from taking the first such bracket of a list of type parameters for the
last one.
-/

namespace Lexeme

open Character (isBlank isDottedPart isNamePart)
open Declaration (isDottedName isIdentifier isNodeName nameLexemes NodeName)
open Text (Blank)

/-- The marks of types and of parameters. -/
def innerMarks : List Text :=
  ["?".toList, "<".toList, ">".toList, ",".toList, "[".toList, "]".toList, "&".toList,
    "...".toList]

/-- A lexeme that may stand between parentheses. -/
def IsInner (l : Lexeme) : Prop :=
  IsWord l ∨ l.text ∈ innerMarks

theorem isMark_of_mem_innerMarks {l : Lexeme} (member : l.text ∈ innerMarks) : IsMark l := by
  have marks : ∀ w ∈ innerMarks, w ≠ [] ∧ ∀ c ∈ w, isNamePart c = false ∧ isBlank c = false := by
    decide
  exact marks l.text member

theorem IsInner.kind {l : Lexeme} (inner : IsInner l) : IsWord l ∨ IsMark l :=
  inner.imp_right isMark_of_mem_innerMarks

/-- What divides a source is neither a blank nor a character of a name. -/
theorem not_divides {accept : Char → Bool}
    (none : ∀ d ∈ [';', '\x7b', '}', '(', ')'], accept d = false) {c : Char} (h : accept c = true) :
    (Text.isTerminator c || Matcher.isParenthesis c) = false := by
  apply Bool.eq_false_iff.mpr
  intro divides
  have member : c ∈ [';', '\x7b', '}', '(', ')'] := by
    simpa [Text.isTerminator, Matcher.isParenthesis, or_assoc] using divides
  rw [none c member] at h
  cases h

/-- Neither a parenthesis nor an end of a piece stands in such a lexeme. -/
theorem IsInner.undivided {l : Lexeme} (inner : IsInner l) : Text.Undivided l.text := by
  have marks : ∀ w ∈ innerMarks, Text.Undivided w := by decide
  rcases inner with word | mark
  · exact fun c member => not_divides (by decide) (word.2 c member)
  · exact marks l.text mark

/-- A lexeme that is no modifier either. -/
def IsPlain (l : Lexeme) : Prop :=
  IsInner l ∧ l.text ∉ Declaration.modifiers

theorem isPlain_mark {l : Lexeme} (member : l.text ∈ innerMarks) : IsPlain l := by
  have others : ∀ w ∈ innerMarks, w ∉ Declaration.modifiers := by decide
  exact ⟨Or.inr member, others l.text member⟩

theorem isPlain_of_isDottedName {l : Lexeme} (h : isDottedName l.text = true) : IsPlain l :=
  ⟨Or.inl ⟨Declaration.isDottedName_ne_nil h, Declaration.isDottedPart_of_isDottedName h⟩,
    fun member => Declaration.not_mem_keywords_of_isDottedName h
      (Declaration.mem_keywords_of_mem_modifiers member)⟩

theorem isPlain_of_isIdentifier {l : Lexeme} (h : isIdentifier l.text = true) : IsPlain l :=
  ⟨Or.inl ⟨Declaration.isIdentifier_ne_nil h, fun c member => Character.isDottedPart_of_isNamePart
      (Declaration.isNamePart_of_isIdentifier h c member)⟩,
    fun member => Declaration.not_mem_keywords h (Declaration.mem_keywords_of_mem_modifiers member)⟩

theorem plain_partFirst {lexemes : List Lexeme} (inner : ∀ l ∈ lexemes, IsPlain l) :
    ∀ l ∈ partFirst lexemes, IsPlain l := by
  cases lexemes with
  | nil => exact inner
  | cons l lexemes =>
      obtain ⟨first, others⟩ := List.forall_mem_cons.mp inner
      exact List.forall_mem_cons.mpr ⟨first, others⟩

theorem undivided_of_spelled {lexemes : List Lexeme} (inner : ∀ l ∈ lexemes, IsInner l) {t : Text}
    (spelled : Spelled lexemes t) : Text.Undivided t := by
  intro c member
  exact spelled.forall_mem (P := fun c => (Text.isTerminator c || Matcher.isParenthesis c) = false)
    (fun d blank => not_divides (by decide) blank)
    (fun l inLexemes => (inner l inLexemes).undivided) c member

/-- A mark without a dot. -/
def IsBracket (lexeme : Lexeme) : Prop :=
  lexeme.text ≠ [] ∧ ∀ c ∈ lexeme.text, isDottedPart c = false ∧ isBlank c = false

theorem isBracket_near {c : Char} (notDotted : isDottedPart c = false)
    (visible : isBlank c = false) : IsBracket (near [c]) :=
  ⟨by simp, by simp [notDotted, visible]⟩

theorem IsBracket.mark {l : Lexeme} (h : IsBracket l) : IsMark l :=
  ⟨h.1, fun c member =>
    ⟨TypeTree.not_isNamePart_of_not_isDottedPart (h.2 c member).1, (h.2 c member).2⟩⟩

/-- Two neighbours in a type: a bracket stands behind a word that no blank parts
from it, and behind a closing bracket. -/
def Joined (first second : Lexeme) : Prop :=
  IsBracket second ∨ (first.text ≠ ['>'] ∧ (IsBracket first ∨ second.apart = true))

theorem Joined.loose {first second : Lexeme} (h : Joined first second) : Loose first second := by
  rcases h with bracket | ⟨-, bracket | apart⟩
  · exact Or.inr (Or.inr bracket.mark)
  · exact Or.inr (Or.inl bracket.mark)
  · exact Or.inl apart

theorem isChain_before {R : Lexeme → Lexeme → Prop} {lexemes rest : List Lexeme} {mark : Lexeme}
    (before : ∀ a, R a mark) (chain : lexemes.IsChain R) (chain' : (mark :: rest).IsChain R) :
    (lexemes ++ mark :: rest).IsChain R := by
  refine chain.append chain' fun a _ b head => ?_
  cases head
  exact before a

theorem isChain_behind {R : Lexeme → Lexeme → Prop} {first : Lexeme} (behind : ∀ b, R first b)
    {lexemes : List Lexeme} (chain : lexemes.IsChain R) : (first :: lexemes).IsChain R := by
  cases lexemes with
  | nil => exact List.isChain_singleton first
  | cons l lexemes => exact List.isChain_cons_cons.mpr ⟨behind l, chain⟩

theorem Joined.before_bracket {second : Lexeme} (bracket : IsBracket second) (first : Lexeme) :
    Joined first second :=
  Or.inl bracket

theorem Joined.behind_bracket {first : Lexeme} (bracket : IsBracket first)
    (other : first.text ≠ ['>']) (second : Lexeme) : Joined first second :=
  Or.inr ⟨other, Or.inl bracket⟩

end Lexeme

namespace TypeTree

open Declaration (isDottedName isIdentifier isNodeName nameLexemes NodeName)
open Lexeme (IsBracket IsPlain Joined behindBlank isBracket_near isPlain_mark near)

theorem isPlain_boundWord {l : Lexeme} (isBound : l.text ∈ NameScope.boundWords) : IsPlain l := by
  have words : ∀ w ∈ NameScope.boundWords, (w ≠ [] ∧ ∀ c ∈ w, Character.isDottedPart c = true) ∧
      w ∉ Declaration.modifiers := by decide
  exact ⟨Or.inl (words l.text isBound).1, (words l.text isBound).2⟩

theorem plain_nameLexemes {name : Text} (h : isNodeName name = true) :
    (∀ l ∈ nameLexemes name, IsPlain l) ∧ (nameLexemes name).IsChain Joined := by
  have mark : IsBracket (near ['?']) := isBracket_near (by decide) (by decide)
  have words := Declaration.nodeName_of_isNodeName h
  unfold nameLexemes
  cases found : Text.words name with
  | nil =>
      rw [found] at words
      cases words
  | cons w rest =>
      rw [found] at words
      cases words with
      | dotted dotted =>
          refine ⟨fun l member => ?_, List.isChain_singleton _⟩
          rw [List.mem_singleton.mp member]
          exact Lexeme.isPlain_of_isDottedName dotted
      | wildcard =>
          refine ⟨fun l member => ?_, List.isChain_singleton _⟩
          rw [List.mem_singleton.mp member]
          exact isPlain_mark (by decide)
      | @bounded bound base isBound dotted =>
          have notClosing : bound ≠ ['>'] := by
            rintro rfl
            exact absurd isBound (by decide)
          refine ⟨?_, ?_⟩
          · simp only [List.mem_cons, List.not_mem_nil, or_false, forall_eq_or_imp, forall_eq]
            exact ⟨isPlain_mark (by decide), isPlain_boundWord isBound,
              Lexeme.isPlain_of_isDottedName dotted⟩
          · refine Lexeme.isChain_behind (Joined.behind_bracket mark (by decide)) ?_
            exact List.isChain_pair.mpr (Or.inr ⟨notClosing, Or.inr rfl⟩)

theorem plain_bracketLexemes (dimensions : Nat) :
    (∀ l ∈ bracketLexemes dimensions, IsPlain l) ∧ (bracketLexemes dimensions).IsChain Joined := by
  induction dimensions with
  | zero => exact ⟨by simp [bracketLexemes], List.isChain_nil⟩
  | succ dimensions ih =>
      obtain ⟨inner, chain⟩ := ih
      constructor
      · simp only [bracketLexemes, List.forall_mem_cons]
        exact ⟨isPlain_mark (by decide), isPlain_mark (by decide), inner⟩
      · have opening : IsBracket (near ['[']) := isBracket_near (by decide) (by decide)
        have closing : IsBracket (near [']']) := isBracket_near (by decide) (by decide)
        exact Lexeme.isChain_behind (Joined.behind_bracket opening (by decide))
          (Lexeme.isChain_behind (Joined.behind_bracket closing (by decide)) chain)

/-- Behind a type or one of its closing brackets only a mark stands next. -/
theorem isChain_closing (dimensions : Nat) :
    (near ['>'] :: bracketLexemes dimensions).IsChain Joined := by
  cases dimensions with
  | zero => exact List.isChain_singleton _
  | succ dimensions =>
      exact List.isChain_cons_cons.mpr ⟨Or.inl (isBracket_near (by decide) (by decide)),
        (plain_bracketLexemes (dimensions + 1)).2⟩

mutual

theorem plain_lexemes : (type : TypeTree) → type.isSpellable = true →
    (∀ l ∈ type.lexemes, IsPlain l) ∧ type.lexemes.IsChain Joined
  | ⟨name, [], dimensions, _⟩, h => by
      simp only [isSpellable, Bool.and_eq_true] at h
      obtain ⟨inner, chain⟩ := plain_nameLexemes h.1
      obtain ⟨inner', chain'⟩ := plain_bracketLexemes dimensions
      refine ⟨List.forall_mem_append.mpr ⟨inner, inner'⟩, ?_⟩
      cases dimensions with
      | zero => simpa [lexemes, bracketLexemes] using chain
      | succ dimensions =>
          exact Lexeme.isChain_before
            (Joined.before_bracket (isBracket_near (by decide) (by decide)))
            chain chain'
  | ⟨name, first :: rest, dimensions, token⟩, h => by
      simp only [isSpellable, areSpellable, Bool.and_eq_true] at h
      obtain ⟨inner, chain⟩ := plain_nameLexemes h.1
      obtain ⟨inFirst, chainFirst⟩ := plain_lexemes first h.2.1
      obtain ⟨inRest, chainRest⟩ := plain_lexemesRest rest h.2.2
      have closing : IsBracket (near ['>']) := isBracket_near (by decide) (by decide)
      obtain ⟨mark, others, shape, isBracket, chainOthers⟩ :=
        chainRest closing (isChain_closing dimensions)
      constructor
      · simp only [lexemes, List.forall_mem_append, List.forall_mem_cons]
        exact ⟨inner,
          ⟨isPlain_mark (by decide), ⟨inFirst, inRest⟩, isPlain_mark (by decide), by simp⟩,
          (plain_bracketLexemes dimensions).1⟩
      · have opening : IsBracket (near ['<']) := isBracket_near (by decide) (by decide)
        have whole : lexemes ⟨name, first :: rest, dimensions, token⟩ =
            nameLexemes name ++ near ['<'] :: (first.lexemes ++ mark :: others) := by
          rw [← shape]
          simp [lexemes]
        rw [whole]
        exact Lexeme.isChain_before (Joined.before_bracket opening) chain
          (Lexeme.isChain_behind (Joined.behind_bracket opening (by decide))
            (Lexeme.isChain_before (Joined.before_bracket isBracket) chainFirst chainOthers))

theorem plain_lexemesRest : (types : List TypeTree) → areSpellable types = true →
    (∀ l ∈ lexemesRest types, IsPlain l) ∧ ∀ {mark : Lexeme} {rest : List Lexeme}, IsBracket mark →
      (mark :: rest).IsChain Joined → ∃ mark' rest', lexemesRest types ++ mark :: rest =
        mark' :: rest' ∧ IsBracket mark' ∧ (mark' :: rest').IsChain Joined
  | [], _ => ⟨by simp [lexemesRest], fun isBracket chain => ⟨_, _, rfl, isBracket, chain⟩⟩
  | type :: types, h => by
      simp only [areSpellable, Bool.and_eq_true] at h
      obtain ⟨inType, chainType⟩ := plain_lexemes type h.1
      obtain ⟨inTypes, chainTypes⟩ := plain_lexemesRest types h.2
      have comma : IsBracket (near [',']) := isBracket_near (by decide) (by decide)
      refine ⟨?_, fun {mark rest} isBracket chain => ?_⟩
      · simp only [lexemesRest, List.forall_mem_cons, List.forall_mem_append]
        exact ⟨isPlain_mark (by decide), inType, inTypes⟩
      · obtain ⟨mark', rest', shape, isBracket', chain'⟩ := chainTypes isBracket chain
        refine ⟨near [','], type.lexemes ++ mark' :: rest', by simp [lexemesRest, shape], comma, ?_⟩
        exact Lexeme.isChain_behind (Joined.behind_bracket comma (by decide))
          (Lexeme.isChain_before (Joined.before_bracket isBracket') chainType chain')

end

end TypeTree

namespace Lexeme

theorem Loose.before_mark {second : Lexeme} (mark : IsMark second) (first : Lexeme) :
    Loose first second :=
  Or.inr (Or.inr mark)

theorem Loose.behind_mark {first : Lexeme} (mark : IsMark first) (second : Lexeme) :
    Loose first second :=
  Or.inr (Or.inl mark)

/-- Lexemes that may stand between parentheses, and can be told from each other
there. -/
structure IsList (lexemes : List Lexeme) : Prop where
  inner : ∀ l ∈ lexemes, IsInner l
  chain : lexemes.IsChain Loose

theorem IsList.sound {lexemes : List Lexeme} (h : IsList lexemes) : IsSound lexemes :=
  ⟨fun l member => (h.inner l member).kind, h.chain⟩

theorem IsList.append {first second : List Lexeme} (h : IsList first) (h' : IsList second)
    (between : ∀ a ∈ first.getLast?, ∀ b ∈ second.head?, Loose a b) : IsList (first ++ second) where
  inner := List.forall_mem_append.mpr ⟨h.inner, h'.inner⟩
  chain := h.chain.append h'.chain between

/-- A mark may stand between any two lists. -/
theorem IsList.append_mark {first second : List Lexeme} {mark : Text} (h : IsList first)
    (isMark : mark ∈ innerMarks) (h' : IsList second) : IsList (first ++ near mark :: second) where
  inner := List.forall_mem_append.mpr ⟨h.inner, List.forall_mem_cons.mpr ⟨Or.inr isMark, h'.inner⟩⟩
  chain := isChain_before (Loose.before_mark (isMark_of_mem_innerMarks isMark)) h.chain
    (isChain_behind (Loose.behind_mark (isMark_of_mem_innerMarks isMark)) h'.chain)

theorem isList_nil : IsList [] :=
  ⟨by simp, List.isChain_nil⟩

theorem isList_singleton {l : Lexeme} (inner : IsInner l) : IsList [l] :=
  ⟨by simpa using inner, List.isChain_singleton l⟩

/-- A word stands in front of a list if a blank follows it. -/
theorem IsList.word_cons {l : Lexeme} {lexemes : List Lexeme} (word : IsWord l)
    (h : IsList lexemes) : IsList (l :: partFirst lexemes) := by
  cases lexemes with
  | nil => exact isList_singleton (Or.inl word)
  | cons second lexemes =>
      obtain ⟨inner, inner'⟩ := List.forall_mem_cons.mp h.inner
      refine ⟨List.forall_mem_cons.mpr ⟨Or.inl word, List.forall_mem_cons.mpr ⟨inner, inner'⟩⟩, ?_⟩
      refine List.isChain_cons_cons.mpr ⟨Or.inl rfl, ?_⟩
      cases lexemes with
      | nil => exact List.isChain_singleton _
      | cons third lexemes =>
          obtain ⟨loose, chain⟩ := List.isChain_cons_cons.mp h.chain
          exact List.isChain_cons_cons.mpr ⟨loose, chain⟩

theorem isList_commaLexemes {items : List (List Lexeme)} (each : ∀ item ∈ items, IsList item) :
    IsList (commaLexemes items) := by
  induction items with
  | nil => exact isList_nil
  | cons item items ih =>
      have first := each item List.mem_cons_self
      have others := ih fun item' member => each item' (List.mem_cons_of_mem item member)
      cases items with
      | nil => exact first
      | cons second items => exact first.append_mark (by decide) others

end Lexeme

namespace TypeTree

theorem isList_lexemes {type : TypeTree} (h : type.isSpellable = true) :
    Lexeme.IsList type.lexemes :=
  ⟨fun l member => ((plain_lexemes type h).1 l member).1,
    (plain_lexemes type h).2.imp fun _ _ => Lexeme.Joined.loose⟩

end TypeTree

namespace ParameterForm

open Declaration (isIdentifier)
open Lexeme (IsList IsWord behindBlank near)
open TypeTree (bracketLexemes)

variable {form : ParameterForm}

theorem isWord_name (h : form.isWellFormed = true) {l : Lexeme} (text : l.text = form.name) :
    IsWord l :=
  ⟨text ▸ name_ne_nil (isReadable_of_isWellFormed h), fun c member =>
    Character.isDottedPart_of_isNamePart
      (isNamePart_name (isReadable_of_isWellFormed h) c (text ▸ member))⟩

theorem isList_bracketLexemes (dimensions : Nat) : IsList (bracketLexemes dimensions) :=
  ⟨fun l member => ((TypeTree.plain_bracketLexemes dimensions).1 l member).1,
    (TypeTree.plain_bracketLexemes dimensions).2.imp fun _ _ => Lexeme.Joined.loose⟩

theorem isList_bareLexemes (h : form.isWellFormed = true) :
    IsList (form.bareLexemes ++ bracketLexemes form.marks) := by
  have type := TypeTree.isList_lexemes (TypeTree.isSpellable_of_isDeclared (isDeclared_type h))
  have bare : IsList form.bareLexemes := by
    unfold bareLexemes
    split
    · have name := Lexeme.isList_singleton (Or.inl (isWord_name h (l := near form.name) rfl))
      exact type.append_mark (by decide) name
    · have name := Lexeme.isList_singleton (Or.inl (isWord_name h (l := behindBlank form.name) rfl))
      exact type.append name fun a _ b head => Or.inl (by cases head; rfl)
  have brackets := isList_bracketLexemes form.marks
  cases marks : form.marks with
  | zero => simpa [bracketLexemes] using bare
  | succ marks =>
      rw [marks] at brackets
      exact bare.append brackets fun a _ b head =>
        Or.inr (Or.inr (by cases head; exact (Lexeme.isBracket_near (by decide) (by decide)).mark))

theorem plain_bareLexemes (h : form.isWellFormed = true) :
    ∀ l ∈ form.bareLexemes ++ bracketLexemes form.marks, Lexeme.IsPlain l := by
  have name : isIdentifier form.name = true := by
    simp only [isWellFormed, Bool.and_eq_true] at h
    exact h.2
  have type := (TypeTree.plain_lexemes _ (TypeTree.isSpellable_of_isDeclared (isDeclared_type h))).1
  have brackets := (TypeTree.plain_bracketLexemes form.marks).1
  refine List.forall_mem_append.mpr ⟨List.forall_mem_append.mpr ⟨type, ?_⟩, brackets⟩
  split
  · exact List.forall_mem_cons.mpr ⟨Lexeme.isPlain_mark (by decide),
      by simpa using Lexeme.isPlain_of_isIdentifier name⟩
  · intro l member
    rw [List.mem_singleton.mp member]
    exact Lexeme.isPlain_of_isIdentifier name

theorem isList_lexemes (h : form.isWellFormed = true) : IsList form.lexemes := by
  unfold lexemes
  split
  · exact (isList_bareLexemes h).word_cons ⟨by decide, by decide⟩
  · exact isList_bareLexemes h

theorem isList_listLexemes {forms : List ParameterForm}
    (wellFormed : ∀ form ∈ forms, form.isWellFormed = true) : IsList (listLexemes forms) := by
  apply Lexeme.isList_commaLexemes
  intro item member
  obtain ⟨form, isForm, rfl⟩ := List.mem_map.mp member
  exact isList_lexemes (wellFormed form isForm)

theorem head_listLexemes {forms : List ParameterForm}
    (wellFormed : ∀ form ∈ forms, form.isWellFormed = true) :
    ∀ l, (listLexemes forms).head? = some l → l.apart = false := by
  intro l head
  cases forms with
  | nil => cases head
  | cons form forms =>
      have readable := isReadable_of_isWellFormed (wellFormed form List.mem_cons_self)
      obtain ⟨first, more, shape⟩ := (isUnled_bare readable).begins
      obtain ⟨w, rest, shape'⟩ : ∃ w rest, form.lexemes = near w :: rest := by
        unfold lexemes
        split
        · exact ⟨_, _, rfl⟩
        · exact ⟨first, more, shape⟩
      have whole : (listLexemes (form :: forms)).head? = some (near w) := by
        cases forms with
        | nil => rw [listLexemes, List.map_cons, List.map_nil, Lexeme.commaLexemes, shape']; rfl
        | cons second forms =>
            rw [listLexemes, List.map_cons, List.map_cons, Lexeme.commaLexemes, shape']
            rfl
      rw [whole] at head
      cases head
      rfl

/-! ## The word `final` in a parameter list -/

theorem not_final_of_isPlain {l : Lexeme} (plain : Lexeme.IsPlain l) : l.text ≠ "final".toList := by
  intro same
  refine plain.2 ?_
  rw [same]
  decide

theorem plain_or_final_of_mem {forms : List ParameterForm}
    (wellFormed : ∀ form ∈ forms, form.isWellFormed = true) :
    ∀ l ∈ listLexemes forms, Lexeme.IsPlain l ∨ l.text = "final".toList := by
  induction forms with
  | nil => simp [listLexemes, Lexeme.commaLexemes]
  | cons form forms ih =>
      have plain := plain_bareLexemes (wellFormed form List.mem_cons_self)
      have others := ih fun form' member => wellFormed form' (List.mem_cons_of_mem form member)
      have first : ∀ l ∈ form.lexemes, Lexeme.IsPlain l ∨ l.text = "final".toList := by
        unfold lexemes
        split
        · exact List.forall_mem_cons.mpr ⟨Or.inr rfl,
            fun l member => Or.inl (Lexeme.plain_partFirst plain l member)⟩
        · exact fun l member => Or.inl (plain l member)
      cases forms with
      | nil => exact first
      | cons second forms =>
          have parted : ∀ l ∈ form.lexemes ++ near [','] :: listLexemes (second :: forms),
              Lexeme.IsPlain l ∨ l.text = "final".toList :=
            List.forall_mem_append.mpr ⟨first,
              List.forall_mem_cons.mpr ⟨Or.inl (Lexeme.isPlain_mark (by decide)), others⟩⟩
          exact parted

/-- A parameter from which the word `final` may have been taken is spelled as a
parameter that says the same. -/
theorem exists_form_of_erased (h : form.isWellFormed = true) {rest : List Lexeme}
    (erased : Lexeme.Erased "final".toList form.lexemes rest) :
    ∃ form' : ParameterForm, form'.isWellFormed = true ∧
      (∀ policy scope, form'.declared policy scope = form.declared policy scope) ∧
      ∀ {more : List Lexeme} {t : Text}, Lexeme.Spelled (rest ++ more) t →
        Lexeme.Spelled (form'.lexemes ++ more) t := by
  have plain := plain_bareLexemes h
  by_cases isFinal : form.isFinal = true
  · rw [lexemes, if_pos isFinal] at erased
    have free : ∀ l ∈ Lexeme.partFirst (form.bareLexemes ++ bracketLexemes form.marks),
        l.text ≠ "final".toList := fun l member =>
      not_final_of_isPlain (Lexeme.plain_partFirst plain l member)
    cases erased with
    | keep _ others =>
        rw [others.eq_of_free free]
        exact ⟨form, h, fun _ _ => rfl, fun spelled => by rwa [lexemes, if_pos isFinal]⟩
    | drop _ others =>
        rw [others.eq_of_free free]
        refine ⟨{ form with isFinal := false }, h, fun _ _ => rfl, fun spelled => ?_⟩
        obtain ⟨a, b, rfl, inForm, inMore⟩ := Lexeme.spelled_append.mp spelled
        exact Lexeme.spelled_append.mpr ⟨a, b, rfl, inForm.of_part_first, inMore⟩
  · rw [lexemes, if_neg isFinal] at erased
    rw [erased.eq_of_free fun l member => not_final_of_isPlain (plain l member)]
    exact ⟨form, h, fun _ _ => rfl, fun spelled => by rwa [lexemes, if_neg isFinal]⟩

theorem exists_forms_of_erased {forms : List ParameterForm}
    (wellFormed : ∀ form ∈ forms, form.isWellFormed = true) {rest : List Lexeme}
    (erased : Lexeme.Erased "final".toList (listLexemes forms) rest) :
    ∃ forms' : List ParameterForm, (∀ form ∈ forms', form.isWellFormed = true) ∧
      (∀ policy scope, forms'.map (declared policy scope) = forms.map (declared policy scope)) ∧
      (forms = [] ↔ forms' = []) ∧
      ∀ {more : List Lexeme} {t : Text}, Lexeme.Spelled (rest ++ more) t →
        Lexeme.Spelled (listLexemes forms' ++ more) t := by
  induction forms generalizing rest with
  | nil =>
      cases erased
      exact ⟨[], by simp, fun _ _ => rfl, Iff.rfl, id⟩
  | cons form forms ih =>
      have first := wellFormed form List.mem_cons_self
      have others := fun form' member => wellFormed form' (List.mem_cons_of_mem form member)
      cases forms with
      | nil =>
          obtain ⟨form', wf, same, spells⟩ := exists_form_of_erased first erased
          exact ⟨[form'], by simpa using wf, fun policy scope => by simp [same], by simp, spells⟩
      | cons second forms =>
          have parted : Lexeme.Erased "final".toList
              (form.lexemes ++ near [','] :: listLexemes (second :: forms)) rest := erased
          obtain ⟨rest₁, rest₂, rfl, inFirst, inRest⟩ := parted.append_inv
          obtain ⟨form', wf, same, spells⟩ := exists_form_of_erased first inFirst
          cases inRest with
          | drop impossible _ => exact absurd impossible (by decide)
          | keep _ inRest =>
              obtain ⟨forms', wfs, sames, someForms, spellsRest⟩ := ih others inRest
              obtain ⟨second', forms', rfl⟩ :=
                List.exists_cons_of_ne_nil fun none => absurd (someForms.mpr none) (by simp)
              refine ⟨form' :: second' :: forms', List.forall_mem_cons.mpr ⟨wf, wfs⟩,
                fun policy scope => ?_, by simp, fun {more t} spelled => ?_⟩
              · rw [List.map_cons, same, sames policy scope, ← List.map_cons]
              · have whole : listLexemes (form' :: second' :: forms') ++ more =
                    form'.lexemes ++ near [','] :: (listLexemes (second' :: forms') ++ more) := by
                  simp [listLexemes, Lexeme.commaLexemes]
                rw [List.append_assoc] at spelled
                obtain ⟨a, _, rfl, inForm, gap, r, rfl, blank, apart, inMore⟩ :=
                  Lexeme.spelled_append.mp (spells spelled)
                rw [whole]
                exact Lexeme.spelled_append.mpr
                  ⟨a, _, rfl, inForm, gap, r, rfl, blank, apart, spellsRest inMore⟩

end ParameterForm
end Testwright
