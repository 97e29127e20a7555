import Mathlib.Data.List.Forall2
import Testwright.Proofs.Declaration.Finals
import Testwright.Proofs.Declaration.Name
import Testwright.Proofs.Text.Depth

namespace Testwright
namespace TypeTree

/-!
# Reading a spelled type back

A type is spelled as its name, its arguments between angle brackets, and a
bracket pair for each dimension, with blanks wherever they may stand.  Reading
such a text gives the type back (`ofText_of_writes`), each name resolved in the
scope of the reader and each token computed anew.  The proof follows the tree:
the brackets are peeled off the end, the outermost angle brackets enclose the
arguments, and the arguments are closed texts, so that the commas between them
are the ones at which the reader cuts.
-/

open Character (isBlank isDottedPart isNamePart)
open Declaration (isDottedName isNodeName isTypeName nameLexemes TypeName DotsInside)
open Header (isDottedPath)
open Lexeme (Spelled near near_text)
open Text (Blank Visible Closed IsTrimmed)

/-! ## Spellings -/

/-- One bracket pair for each dimension. -/
def bracketLexemes : Nat → List Lexeme
  | 0 => []
  | dimensions + 1 => near ['['] :: near [']'] :: bracketLexemes dimensions

mutual

/-- The lexemes of a type. -/
def lexemes : TypeTree → List Lexeme
  | ⟨name, [], dimensions, _⟩ => nameLexemes name ++ bracketLexemes dimensions
  | ⟨name, first :: rest, dimensions, _⟩ =>
      nameLexemes name ++ (near ['<'] :: (lexemes first ++ lexemesRest rest ++ [near ['>']]) ++
        bracketLexemes dimensions)

/-- The arguments behind the first one, each behind its comma. -/
def lexemesRest : List TypeTree → List Lexeme
  | [] => []
  | type :: types => near [','] :: (lexemes type ++ lexemesRest types)

end

mutual

/-- Whether every node of the type has a name that can be spelled. -/
def isSpellable : TypeTree → Bool
  | ⟨name, arguments, _, _⟩ => isNodeName name && areSpellable arguments

def areSpellable : List TypeTree → Bool
  | [] => true
  | type :: types => isSpellable type && areSpellable types

end

mutual

/-- The type as a reader in the scope understands it. -/
def resolved (policy : ExtractionPolicy) (scope : NameScope) : TypeTree → TypeTree
  | ⟨name, arguments, dimensions, _⟩ =>
      ((named (scope.resolve policy name)).withArguments
        (resolvedAll policy scope arguments)).withDimensions dimensions

def resolvedAll (policy : ExtractionPolicy) (scope : NameScope) : List TypeTree → List TypeTree
  | [] => []
  | type :: types => resolved policy scope type :: resolvedAll policy scope types

end

mutual

/-- Whether every node of the type has a name that is read as one name.  The words of
the names may be any words of name characters. -/
def isWritable : TypeTree → Bool
  | ⟨name, arguments, _, _⟩ => isTypeName name && areWritable arguments

def areWritable : List TypeTree → Bool
  | [] => true
  | type :: types => isWritable type && areWritable types

end

mutual

theorem isWritable_of_isSpellable :
    (type : TypeTree) → type.isSpellable = true → type.isWritable = true
  | ⟨name, arguments, _, _⟩, h => by
      simp only [isSpellable, Bool.and_eq_true] at h
      simp [isWritable, Declaration.isTypeName_of_isNodeName h.1,
        areWritable_of_areSpellable arguments h.2]

theorem areWritable_of_areSpellable :
    (types : List TypeTree) → areSpellable types = true → areWritable types = true
  | [], _ => rfl
  | type :: types, h => by
      simp only [areSpellable, Bool.and_eq_true] at h
      simp [areWritable, isWritable_of_isSpellable type h.1, areWritable_of_areSpellable types h.2]

end

/-- Whether the type can be read: the outermost name is no wildcard, and none of the
words that a reader of types takes for something else. -/
def isReadable (type : TypeTree) : Bool :=
  isDottedPath type.name && !(["final".toList, "void".toList].contains type.name) &&
    areWritable type.arguments

/-- Whether the type can stand in a declaration: the outermost name is no
wildcard. -/
def isDeclared (type : TypeTree) : Bool :=
  isDottedName type.name && areSpellable type.arguments

theorem isSpellable_of_isDeclared {type : TypeTree} (h : type.isDeclared = true) :
    type.isSpellable = true := by
  obtain ⟨name, arguments, dimensions, token⟩ := type
  simp only [isDeclared, Bool.and_eq_true] at h
  simp [isSpellable, Declaration.isNodeName_of_isDottedName h.1, h.2]

theorem isReadable_of_isDeclared {type : TypeTree} (h : type.isDeclared = true) :
    type.isReadable = true := by
  simp only [isDeclared, Bool.and_eq_true] at h
  have keywords : ∀ w ∈ ["final".toList, "void".toList], w ∈ Declaration.keywords := by decide
  have other : type.name ∉ ["final".toList, "void".toList] := fun member =>
    Declaration.not_mem_keywords_of_isDottedName h.1 (keywords _ member)
  simp only [isReadable, Bool.and_eq_true, Bool.not_eq_true', ← Bool.not_eq_true,
    List.contains_iff_mem]
  exact ⟨⟨Declaration.isDottedPath_of_isDottedName h.1, other⟩, areWritable_of_areSpellable _ h.2⟩

theorem isWritable_of_isDeclared {type : TypeTree} (h : type.isDeclared = true) :
    type.isWritable = true :=
  isWritable_of_isSpellable type (isSpellable_of_isDeclared h)

theorem isDottedName_of_isDeclared {type : TypeTree} (h : type.isDeclared = true) :
    isDottedName type.name = true := by
  simp only [isDeclared, Bool.and_eq_true] at h
  exact h.1

theorem isDottedPath_of_isReadable {type : TypeTree} (h : type.isReadable = true) :
    isDottedPath type.name = true := by
  simp only [isReadable, Bool.and_eq_true] at h
  exact h.1.1

theorem not_mem_of_isReadable {type : TypeTree} (h : type.isReadable = true) :
    type.name ∉ ["final".toList, "void".toList] := by
  simp only [isReadable, Bool.and_eq_true, Bool.not_eq_true', ← Bool.not_eq_true,
    List.contains_iff_mem] at h
  exact h.1.2

theorem isWritable_of_isReadable {type : TypeTree} (h : type.isReadable = true) :
    type.isWritable = true := by
  obtain ⟨name, arguments, dimensions, token⟩ := type
  simp only [isReadable, Bool.and_eq_true] at h
  simp [isWritable, Declaration.isTypeName_of_isDottedPath h.1.1, h.2]

/-! ## The name at a node -/

/-- A word of a name. -/
structure IsNameWord (w : Text) : Prop where
  nonempty : w ≠ []
  chars : ∀ c ∈ w, isDottedPart c = true ∨ c = '?'
  dots : DotsInside w

theorem isNameWord_of_isDottedPath {w : Text} (h : isDottedPath w = true) : IsNameWord w where
  nonempty := Header.isDottedPath_ne_nil h
  chars := fun c member => Or.inl (Header.isDottedPart_of_isDottedPath h c member)
  dots := Declaration.dotsInside_of_isDottedPath h

theorem isNameWord_of_mem {words : List Text} (h : TypeName words) : ∀ w ∈ words, IsNameWord w := by
  have mark : IsNameWord ['?'] :=
    ⟨by simp, by simp, Declaration.dotsInside_of_not_mem (by simp)⟩
  have bound : ∀ w ∈ NameScope.boundWords, w ≠ [] ∧ (∀ c ∈ w, isDottedPart c = true) ∧ '.' ∉ w := by
    decide
  cases h with
  | dotted dotted =>
      simp only [List.mem_singleton, forall_eq]
      exact isNameWord_of_isDottedPath dotted
  | wildcard => simpa using mark
  | bounded isBound dotted =>
      simp only [List.mem_cons, List.not_mem_nil, or_false, forall_eq_or_imp, forall_eq]
      obtain ⟨nonempty, chars, noDot⟩ := bound _ isBound
      exact ⟨mark, ⟨nonempty, fun c member => Or.inl (chars c member),
        Declaration.dotsInside_of_not_mem noDot⟩, isNameWord_of_isDottedPath dotted⟩

theorem nameLexemes_text {name : Text} :
    (nameLexemes name).map Lexeme.text = Text.words name := by
  unfold nameLexemes
  split
  · next found => rw [found]; rfl
  · simp [Function.comp_def]

theorem nameLexemes_ne_nil {name : Text} (h : isTypeName name = true) : nameLexemes name ≠ [] := by
  intro none
  have words : Text.words name = [] := by rw [← nameLexemes_text, none]; rfl
  have := Declaration.typeName_iff.mp h
  rw [words] at this
  cases this

theorem isNameWord_of_mem_nameLexemes {name : Text} (h : isTypeName name = true) :
    ∀ l ∈ nameLexemes name, IsNameWord l.text := by
  intro l member
  have isWord : l.text ∈ Text.words name := by
    rw [← nameLexemes_text]
    exact List.mem_map_of_mem member
  exact isNameWord_of_mem (Declaration.typeName_iff.mp h) l.text isWord

/-- The characters of a spelled name. -/
theorem forall_mem_of_spelled_name {name t : Text} (h : isTypeName name = true)
    (spelled : Spelled (nameLexemes name) t) :
    ∀ c ∈ t, isBlank c = true ∨ isDottedPart c = true ∨ c = '?' :=
  spelled.forall_mem (fun _ blank => Or.inl blank)
    fun l member c inText => Or.inr ((isNameWord_of_mem_nameLexemes h l member).chars c inText)

theorem words_single {w g gap : Text} (visible : Visible w) (nonempty : w ≠ []) (blank : Blank g)
    (blank' : Blank gap) : Text.words (g ++ w ++ gap) = [w] := by
  rw [Text.words_append_right blank', Text.words_append_of_blank blank,
    Text.words_of_visible visible nonempty]

/-- A spelled name is resolved as the name is. -/
theorem resolve_of_spelled {policy : ExtractionPolicy} {scope : NameScope} {name t gap : Text}
    (h : isTypeName name = true) (spelled : Spelled (nameLexemes name) t) (blank : Blank gap) :
    scope.resolve policy (t ++ gap) = scope.resolve policy name := by
  have form := Declaration.typeName_iff.mp h
  unfold NameScope.resolve
  unfold nameLexemes at spelled
  cases words : Text.words name with
  | nil =>
      rw [words] at form
      cases form
  | cons first others =>
      rw [words] at form spelled
      cases form with
      | dotted dotted =>
          obtain ⟨g, rfl, blankG, -⟩ := Lexeme.spelled_singleton.mp spelled
          rw [near_text, words_single (Header.visible_of_isDottedPath dotted)
            (Header.isDottedPath_ne_nil dotted) blankG blank]
      | wildcard =>
          obtain ⟨g, rfl, blankG, -⟩ := Lexeme.spelled_singleton.mp spelled
          rw [near_text, words_single (by decide) (by simp) blankG blank]
      | @bounded bound base isBound dotted =>
          obtain ⟨g, r, rfl, blankG, -, g', r', rfl, blankG', -, g'', r'', rfl, blankG'',
            apart, rfl⟩ :=
            spelled
          have some : g'' ≠ [] := apart rfl
          have last : Text.words (base ++ gap) = [base] := by
            simpa using words_single (Header.visible_of_isDottedPath dotted)
              (Header.isDottedPath_ne_nil dotted) Text.blank_nil blank
          have boundWord : Visible bound ∧ bound ≠ [] := by
            have all : ∀ w ∈ NameScope.boundWords, Visible w ∧ w ≠ [] := by decide
            exact all bound isBound
          simp only [near_text, Lexeme.behindBlank_text, List.append_nil, List.append_assoc]
          rw [Text.words_append_of_blank blankG]
          by_cases joined : g' = []
          · -- The bound word stands right behind the question mark.
            subst joined
            have glued : Visible ('?' :: bound) := by
              intro c member
              rcases List.mem_cons.mp member with rfl | member
              · decide
              · exact boundWord.1 c member
            have whole : ['?'] ++ ([] ++ (bound ++ (g'' ++ (base ++ gap)))) =
                ('?' :: bound) ++ (g'' ++ (base ++ gap)) := by simp
            have noBound : ([] : Text) ∉ NameScope.boundWords := by decide
            rw [whole, Text.words_append blankG'' some, Text.words_of_visible glued (by simp), last]
            simp [NameScope.resolveWords, isBound, noBound]
          · rw [Text.words_append blankG' joined, Text.words_append blankG'' some,
              Text.words_of_visible (by decide) (by simp),
              Text.words_of_visible boundWord.1 boundWord.2, last]
            rfl

/-- A spelled name ends with a name character or a question mark. -/
theorem getLast_of_spelled_name {name t : Text} (h : isTypeName name = true)
    (spelled : Spelled (nameLexemes name) t) {c : Char} (last : t.getLast? = some c) :
    isNamePart c = true ∨ c = '?' := by
  have form := Declaration.typeName_iff.mp h
  unfold nameLexemes at spelled
  cases words : Text.words name with
  | nil =>
      rw [words] at form
      cases form
  | cons first others =>
      rw [words] at form spelled
      cases form with
      | dotted dotted =>
          obtain ⟨g, rfl, -, -⟩ := Lexeme.spelled_singleton.mp spelled
          rw [near_text,
            List.getLast?_append_of_ne_nil _ (Header.isDottedPath_ne_nil dotted)] at last
          exact Or.inl (Header.isNamePart_getLast dotted last)
      | wildcard =>
          obtain ⟨g, rfl, -, -⟩ := Lexeme.spelled_singleton.mp spelled
          rw [near_text, List.getLast?_concat] at last
          exact Or.inr (Option.some.inj last).symm
      | @bounded bound base isBound dotted =>
          obtain ⟨g, r, rfl, -, -, g', r', rfl, -, -, g'', r'', rfl, -, -, rfl⟩ := spelled
          simp only [near_text, Lexeme.behindBlank_text, List.append_nil,
            ← List.append_assoc] at last
          rw [List.getLast?_append_of_ne_nil _ (Header.isDottedPath_ne_nil dotted)] at last
          exact Or.inl (Header.isNamePart_getLast dotted last)

/-! ## The brackets at the end -/

/-- A bracket pair behind a text that ends with no blank, as a layer. -/
theorem bracketLayer?_append {s gap gap' : Text} (back : Text.trimEnd s = s) (blank : Blank gap)
    (blank' : Blank gap') : bracketLayer? (s ++ (gap ++ '[' :: (gap' ++ [']']))) = some s := by
  have outer : Text.dropFinal? [']'] (s ++ (gap ++ '[' :: (gap' ++ [']']))) =
      some (s ++ (gap ++ '[' :: gap')) :=
    Text.dropFinal?_eq_some_iff.mpr (by simp)
  have trimmed : Text.trimEnd (s ++ (gap ++ '[' :: gap')) = s ++ (gap ++ ['[']) := by
    have whole : s ++ (gap ++ '[' :: gap') = (s ++ (gap ++ ['['])) ++ gap' := by simp
    have last : Text.trimEnd (s ++ (gap ++ ['['])) = s ++ (gap ++ ['[']) := by
      rw [← List.append_assoc]
      simp [Text.trimEnd]
      decide
    rw [whole, Text.trimEnd_append blank', last]
  have inner : Text.dropFinal? ['['] (s ++ (gap ++ ['['])) = some (s ++ gap) :=
    Text.dropFinal?_eq_some_iff.mpr (by simp)
  unfold bracketLayer?
  simp only [outer, Option.bind_eq_bind, Option.bind_some, trimmed, inner]
  rw [Text.trimEnd_append blank, back]
  rfl

/-- The dots of a variable arity parameter are no bracket pair, and a bracket
pair is no dots. -/
theorem arrayLayer?_append {s gap gap' : Text} (back : Text.trimEnd s = s) (blank : Blank gap)
    (blank' : Blank gap') : arrayLayer? (s ++ (gap ++ '[' :: (gap' ++ [']']))) = some s := by
  have noDots : Text.dropFinal? "...".toList (s ++ (gap ++ '[' :: (gap' ++ [']']))) = none := by
    apply Option.eq_none_iff_forall_ne_some.mpr
    intro rest found
    have whole : s ++ (gap ++ '[' :: (gap' ++ [']'])) = (s ++ (gap ++ '[' :: gap')) ++ [']'] := by
      simp
    have ends := congrArg List.getLast? (Text.dropFinal?_eq_some_iff.mp found)
    have dots : "...".toList.getLast? = some '.' := by decide
    rw [whole, List.getLast?_concat, List.getLast?_append, dots, Option.some_or] at ends
    exact absurd (Option.some.inj ends) (by decide)
  unfold arrayLayer?
  rw [noDots]
  exact bracketLayer?_append back blank blank'

/-- Spelled bracket pairs are peeled off one by one. -/
theorem peel_brackets {layer? : Text → Option Text}
    (layer : ∀ {s gap gap' : Text}, Text.trimEnd s = s → Blank gap → Blank gap' →
      layer? (s ++ (gap ++ '[' :: (gap' ++ [']']))) = some s)
    {dimensions : Nat} {s b : Text} (back : Text.trimEnd s = s)
    (spelled : Spelled (bracketLexemes dimensions) b) :
    Text.peel layer? (s ++ b) = ((Text.peel layer? s).1, (Text.peel layer? s).2 + dimensions) := by
  induction dimensions generalizing s b with
  | zero =>
      cases spelled
      simp
  | succ dimensions ih =>
      obtain ⟨gap, _, rfl, blank, -, gap', rest, rfl, blank', -, spelled⟩ := spelled
      have whole : s ++ (gap ++ (['['] ++ (gap' ++ ([']'] ++ rest)))) =
          (s ++ (gap ++ '[' :: (gap' ++ [']']))) ++ rest := by simp
      have back' : Text.trimEnd (s ++ (gap ++ '[' :: (gap' ++ [']']))) =
          s ++ (gap ++ '[' :: (gap' ++ [']'])) := by
        simp [Text.trimEnd]
        decide
      have pair := Text.peel_of_some (layer back blank blank')
        (by simp only [List.length_append, List.length_cons]; omega)
      simp only [near_text]
      rw [whole, ih back' spelled, pair]
      simp [Nat.add_assoc, Nat.add_comm 1]

/-! ## The arguments between angle brackets -/

/-- A text that spells the type, blanks behind it allowed. -/
def Writes (type : TypeTree) (piece : Text) : Prop :=
  Lexeme.Covers type.lexemes piece

theorem lexemes_append_rest (first : TypeTree) (rest : List TypeTree) :
    lexemes first ++ lexemesRest rest = Lexeme.commaLexemes ((first :: rest).map lexemes) := by
  induction rest generalizing first with
  | nil => simp [lexemesRest, Lexeme.commaLexemes]
  | cons second rest ih =>
      have unfolded : Lexeme.commaLexemes ((first :: second :: rest).map lexemes) =
          lexemes first ++ near [','] :: Lexeme.commaLexemes ((second :: rest).map lexemes) := rfl
      rw [lexemesRest, ih, unfolded]

/-- Spelled arguments are texts that spell the types, with commas between
them. -/
theorem exists_arguments {first : TypeTree} {rest : List TypeTree} {t : Text}
    (h : Spelled (lexemes first ++ lexemesRest rest ++ [near ['>']]) t) :
    ∃ pieces, t = [','].intercalate pieces ++ ['>'] ∧
      List.Forall₂ Writes (first :: rest) pieces := by
  rw [lexemes_append_rest] at h
  obtain ⟨pieces, rfl, written⟩ := Lexeme.exists_pieces (by simp) h
  have each : List.Forall₂ (fun type piece => Lexeme.Covers (lexemes type) piece) (first :: rest)
      pieces := List.forall₂_map_left_iff.mp written
  exact ⟨pieces, rfl, each⟩

/-- The spelling of a type cut into its name, its arguments and its brackets. -/
theorem Spelled.cut {name : Text} {arguments : List TypeTree} {dimensions : Nat} {token t : Text}
    (h : Spelled (lexemes ⟨name, arguments, dimensions, token⟩) t) :
    ∃ n a b, t = n ++ (a ++ b) ∧ Spelled (nameLexemes name) n ∧
      Spelled (bracketLexemes dimensions) b ∧
      ((arguments = [] ∧ a = []) ∨ ∃ gap pieces, arguments ≠ [] ∧ Blank gap ∧
        a = gap ++ ('<' :: ([','].intercalate pieces ++ ['>'])) ∧
        List.Forall₂ Writes arguments pieces) := by
  cases arguments with
  | nil =>
      rw [lexemes] at h
      obtain ⟨n, b, rfl, inName, inBrackets⟩ := Lexeme.spelled_append.mp h
      exact ⟨n, [], b, rfl, inName, inBrackets, Or.inl ⟨rfl, rfl⟩⟩
  | cons first rest =>
      rw [lexemes] at h
      obtain ⟨n, _, rfl, inName, inRest⟩ := Lexeme.spelled_append.mp h
      obtain ⟨_, b, rfl, ⟨gap, r, rfl, blank, -, inArguments⟩, inBrackets⟩ :=
        Lexeme.spelled_append.mp inRest
      obtain ⟨pieces, rfl, written⟩ := exists_arguments inArguments
      refine ⟨n, gap ++ ('<' :: ([','].intercalate pieces ++ ['>'])), b, rfl, inName, inBrackets,
        Or.inr ⟨gap, pieces, by simp, blank, rfl, written⟩⟩

/-! ## The characters of a type -/

/-- What a type is written with. -/
def isTypeChar (c : Char) : Bool :=
  isDottedPart c || ['?', '<', '>', ',', '[', ']'].contains c

theorem not_isBlank_of_isTypeChar {c : Char} (h : isTypeChar c = true) : isBlank c = false := by
  simp only [isTypeChar, Bool.or_eq_true, List.contains_iff_mem] at h
  rcases h with dotted | special
  · exact Character.not_isBlank_of_isDottedPart dotted
  · have all : ∀ d ∈ ['?', '<', '>', ',', '[', ']'], isBlank d = false := by decide
    exact all c special

/-- A lexeme that a type may have. -/
structure IsTypeLexeme (l : Lexeme) : Prop where
  nonempty : l.text ≠ []
  chars : ∀ c ∈ l.text, isTypeChar c = true
  dots : DotsInside l.text

theorem IsTypeLexeme.isVisible {l : Lexeme} (h : IsTypeLexeme l) : l.IsVisible :=
  ⟨h.nonempty, fun c member => not_isBlank_of_isTypeChar (h.chars c member)⟩

theorem isTypeLexeme_near {c : Char} (isType : isTypeChar c = true) (notDot : c ≠ '.') :
    IsTypeLexeme (near [c]) where
  nonempty := by simp
  chars := by simpa using isType
  dots := Declaration.dotsInside_of_not_mem (by simpa using notDot.symm)

theorem isTypeLexeme_bracketLexemes {dimensions : Nat} :
    ∀ l ∈ bracketLexemes dimensions, IsTypeLexeme l := by
  have brackets : IsTypeLexeme (near ['[']) ∧ IsTypeLexeme (near [']']) :=
    ⟨isTypeLexeme_near (by decide) (by decide), isTypeLexeme_near (by decide) (by decide)⟩
  induction dimensions with
  | zero => simp [bracketLexemes]
  | succ dimensions ih =>
      exact List.forall_mem_cons.mpr ⟨brackets.1, List.forall_mem_cons.mpr ⟨brackets.2, ih⟩⟩

theorem isTypeLexeme_nameLexemes {name : Text} (h : isTypeName name = true) :
    ∀ l ∈ nameLexemes name, IsTypeLexeme l := by
  intro l member
  obtain ⟨nonempty, chars, dots⟩ := isNameWord_of_mem_nameLexemes h l member
  refine ⟨nonempty, fun c inText => ?_, dots⟩
  rcases chars c inText with dotted | rfl
  · simp [isTypeChar, dotted]
  · decide

mutual

theorem isTypeLexeme_lexemes : (type : TypeTree) → type.isWritable = true →
    ∀ l ∈ type.lexemes, IsTypeLexeme l
  | ⟨name, [], dimensions, _⟩, h => by
      simp only [isWritable, Bool.and_eq_true] at h
      rw [lexemes]
      exact List.forall_mem_append.mpr ⟨isTypeLexeme_nameLexemes h.1, isTypeLexeme_bracketLexemes⟩
  | ⟨name, first :: rest, dimensions, _⟩, h => by
      simp only [isWritable, areWritable, Bool.and_eq_true] at h
      have brackets : IsTypeLexeme (near ['<']) ∧ IsTypeLexeme (near ['>']) :=
        ⟨isTypeLexeme_near (by decide) (by decide), isTypeLexeme_near (by decide) (by decide)⟩
      have inFirst := isTypeLexeme_lexemes first h.2.1
      have inRest := isTypeLexeme_lexemesRest rest h.2.2
      rw [lexemes]
      simp only [List.forall_mem_append, List.forall_mem_cons, List.cons_append]
      exact ⟨isTypeLexeme_nameLexemes h.1, brackets.1,
        ⟨⟨inFirst, inRest⟩, brackets.2, by simp⟩, isTypeLexeme_bracketLexemes⟩

theorem isTypeLexeme_lexemesRest : (types : List TypeTree) → areWritable types = true →
    ∀ l ∈ lexemesRest types, IsTypeLexeme l
  | [], _ => by simp [lexemesRest]
  | type :: types, h => by
      simp only [areWritable, Bool.and_eq_true] at h
      have comma : IsTypeLexeme (near [',']) := isTypeLexeme_near (by decide) (by decide)
      rw [lexemesRest]
      simp only [List.forall_mem_append, List.forall_mem_cons]
      exact ⟨comma, isTypeLexeme_lexemes type h.1, isTypeLexeme_lexemesRest types h.2⟩

end

/-! ## Type texts are closed -/

theorem closed_of_spelled_name {name t : Text} (h : isTypeName name = true)
    (spelled : Spelled (nameLexemes name) t) : Closed t := by
  apply Text.closed_of_forall
  intro c member
  rcases forall_mem_of_spelled_name h spelled c member with blank | dotted | rfl
  · refine ⟨?_, ?_, ?_⟩
    all_goals
      rintro rfl
      exact absurd blank (by decide)
  · refine ⟨?_, ?_, ?_⟩
    all_goals
      rintro rfl
      exact absurd dotted (by decide)
  · decide

theorem closed_of_spelled_brackets {dimensions : Nat} {b : Text}
    (spelled : Spelled (bracketLexemes dimensions) b) : Closed b := by
  have chars : ∀ l ∈ bracketLexemes dimensions, ∀ c ∈ l.text, c = '[' ∨ c = ']' := by
    induction dimensions generalizing b with
    | zero => simp [bracketLexemes]
    | succ dimensions ih =>
        obtain ⟨_, _, rfl, _, _, _, _, rfl, _, _, rest⟩ := spelled
        simp only [bracketLexemes, List.forall_mem_cons]
        exact ⟨by simp, by simp, ih rest⟩
  have all : ∀ c ∈ b, isBlank c = true ∨ c = '[' ∨ c = ']' :=
    spelled.forall_mem (fun c blank => Or.inl blank) fun l member c inText =>
      Or.inr (chars l member c inText)
  apply Text.closed_of_forall
  intro c member
  rcases all c member with blank | rfl | rfl
  · refine ⟨?_, ?_, ?_⟩
    all_goals
      rintro rfl
      exact absurd blank (by decide)
  · decide
  · decide

mutual

theorem closed_of_spelled : (type : TypeTree) → type.isWritable = true → {t : Text} →
    Spelled type.lexemes t → Closed t
  | ⟨name, arguments, dimensions, token⟩, h, t, spelled => by
      simp only [isWritable, Bool.and_eq_true] at h
      obtain ⟨n, a, b, rfl, inName, inBrackets, arguments_cut⟩ := Spelled.cut spelled
      refine (closed_of_spelled_name h.1 inName).append
        (Closed.append ?_ (closed_of_spelled_brackets inBrackets))
      rcases arguments_cut with ⟨-, rfl⟩ | ⟨gap, pieces, -, blank, rfl, written⟩
      · exact Text.closed_of_blank Text.blank_nil
      · exact (Text.closed_of_blank blank).append
          (Closed.angled (closed_of_writes arguments h.2 written))

theorem closed_of_writes : (types : List TypeTree) → areWritable types = true →
    {pieces : List Text} → List.Forall₂ Writes types pieces → ∀ piece ∈ pieces, Closed piece
  | [], _, _, written => by
      cases written
      intro piece member
      cases member
  | type :: types, h, _, written => by
      simp only [areWritable, Bool.and_eq_true] at h
      cases written with
      | cons here rest =>
          obtain ⟨s, gap, rfl, spelled, blank⟩ := here
          rw [List.forall_mem_cons]
          exact ⟨(closed_of_spelled type h.1 spelled).append (Text.closed_of_blank blank),
            closed_of_writes types h.2 rest⟩

end

/-! ## Reading a type back -/

theorem ofText_congr {policy : ExtractionPolicy} {scope : NameScope} {s t : Text}
    (same : Text.trim s = Text.trim t) : ofText policy scope s = ofText policy scope t := by
  rw [ofText, ofText, same]

theorem ofText_of_name {policy : ExtractionPolicy} {scope : NameScope} {t name : Text}
    {dimensions : Nat} (peeled : Text.peel arrayLayer? (Text.trim t) = (name, dimensions))
    (bare : argumentTexts? name = none) :
    ofText policy scope t =
      ((named (scope.resolve policy name)).withArguments []).withDimensions dimensions := by
  rw [ofText]
  simp only [peeled]
  split
  · rfl
  · next found =>
      rw [peeled, bare] at found
      cases found

theorem ofText_of_arguments {policy : ExtractionPolicy} {scope : NameScope} {t whole name : Text}
    {pieces : List Text} {dimensions : Nat}
    (peeled : Text.peel arrayLayer? (Text.trim t) = (whole, dimensions))
    (cut : argumentTexts? whole = some (name, pieces)) :
    ofText policy scope t = ((named (scope.resolve policy name)).withArguments
      (pieces.map (ofText policy scope))).withDimensions dimensions := by
  rw [ofText]
  simp only [peeled]
  split
  · next missing =>
      rw [peeled, cut] at missing
      cases missing
  · next found =>
      rw [peeled, cut, Option.some.injEq] at found
      subst found
      rw [List.map_attach_eq_pmap]
      simp

theorem argumentTexts?_of_angled {name inner : Text} (notOpened : '<' ∉ name) :
    argumentTexts? (name ++ '<' :: (inner ++ ['>'])) =
      some (name, (Text.topLevelPieces inner).filter (!·.isEmpty)) := by
  unfold argumentTexts?
  rw [Text.cutAt?_append notOpened]
  simp only [Text.cutAtLast?_append (t := []) (by simp)]

theorem arrayLayer?_eq_none {t : Text} (last : ∀ c, t.getLast? = some c → c ≠ ']' ∧ c ≠ '.') :
    arrayLayer? t = none := by
  have noDots : Text.dropFinal? "...".toList t = none := by
    apply Option.eq_none_iff_forall_ne_some.mpr
    intro rest found
    rw [Text.dropFinal?_eq_some_iff] at found
    exact (last '.' (by rw [found, List.getLast?_append]; rfl)).2 rfl
  have noBracket : Text.dropFinal? [']'] t = none := by
    apply Option.eq_none_iff_forall_ne_some.mpr
    intro rest found
    rw [Text.dropFinal?_eq_some_iff] at found
    exact (last ']' (by rw [found, List.getLast?_append]; rfl)).1 rfl
  unfold arrayLayer?
  rw [noDots]
  unfold bracketLayer?
  simp [noBracket]

theorem head_lexemes {type : TypeTree} (h : type.isWritable = true) :
    ∀ l, type.lexemes.head? = some l → l.apart = false := by
  obtain ⟨name, arguments, dimensions, token⟩ := type
  simp only [isWritable, Bool.and_eq_true] at h
  have front : ∀ l, (nameLexemes name).head? = some l → l.apart = false := by
    intro l head
    unfold nameLexemes at head
    split at head
    · cases head
      rfl
    · rw [List.head?_map, Option.map_eq_some_iff] at head
      obtain ⟨w, -, rfl⟩ := head
      rfl
  intro l head
  apply front l
  cases arguments with
  | nil => rwa [lexemes, List.head?_append_of_ne_nil _ (nameLexemes_ne_nil h.1)] at head
  | cons first rest => rwa [lexemes, List.head?_append_of_ne_nil _ (nameLexemes_ne_nil h.1)] at head

/-- A text that spells a type does so without the blanks around it. -/
theorem Writes.trim {type : TypeTree} {piece : Text} (h : type.isWritable = true)
    (writes : Writes type piece) : Spelled type.lexemes (Text.trim piece) := by
  obtain ⟨s, gap, rfl, spelled, blank⟩ := writes
  exact spelled.trim (fun l member => (isTypeLexeme_lexemes type h l member).isVisible)
    (head_lexemes h) blank

theorem lexemes_ne_nil {type : TypeTree} (h : type.isWritable = true) : type.lexemes ≠ [] := by
  obtain ⟨name, arguments, dimensions, token⟩ := type
  simp only [isWritable, Bool.and_eq_true] at h
  have nonempty := nameLexemes_ne_nil h.1
  cases arguments with
  | nil => simp [lexemes, nonempty]
  | cons first rest => simp [lexemes]

theorem Writes.trim_ne_nil {type : TypeTree} {piece : Text} (h : type.isWritable = true)
    (writes : Writes type piece) : Text.trim piece ≠ [] :=
  (writes.trim h).ne_nil (fun l member => (isTypeLexeme_lexemes type h l member).isVisible)
    (lexemes_ne_nil h)

mutual

/-- Reading a spelled type gives the type, its names resolved. -/
theorem ofText_of_writes (policy : ExtractionPolicy) (scope : NameScope) :
    (type : TypeTree) → type.isWritable = true → {piece : Text} → Writes type piece →
      ofText policy scope piece = type.resolved policy scope
  | ⟨name, arguments, dimensions, token⟩, h, piece, writes => by
      have spelled := writes.trim h
      have back := (Text.isTrimmed_trim piece).back
      simp only [isWritable, Bool.and_eq_true] at h
      obtain ⟨n, a, b, whole, inName, inBrackets, arguments_cut⟩ := Spelled.cut spelled
      have noOpen : '<' ∉ n := by
        intro member
        rcases forall_mem_of_spelled_name h.1 inName '<' member with blank | dotted | same
        · exact absurd blank (by decide)
        · exact absurd dotted (by decide)
        · exact absurd same (by decide)
      have nameLast : ∀ c, n.getLast? = some c → isBlank c = false ∧ c ≠ ']' ∧ c ≠ '.' := by
        intro c last
        rcases getLast_of_spelled_name h.1 inName last with part | rfl
        · refine ⟨Character.not_isBlank_of_isNamePart part, ?_, ?_⟩
          · rintro rfl
            exact absurd part (by decide)
          · rintro rfl
            exact absurd part (by decide)
        · decide
      rcases arguments_cut with ⟨rfl, rfl⟩ | ⟨gap, pieces, nonempty, blank, rfl, written⟩
      · rw [List.nil_append] at whole
        have peeled : Text.peel arrayLayer? (Text.trim piece) = (n, dimensions) := by
          rw [whole, peel_brackets arrayLayer?_append
              (Text.trimEnd_of_back fun c last => (nameLast c last).1) inBrackets,
            Text.peel_of_none (arrayLayer?_eq_none fun c last => (nameLast c last).2)]
          simp
        have bare : argumentTexts? n = none := by
          unfold argumentTexts?
          rw [Text.cutAt?_eq_none noOpen]
        have resolvedName : scope.resolve policy n = scope.resolve policy name := by
          rw [← resolve_of_spelled h.1 inName Text.blank_nil, List.append_nil]
        rw [ofText_of_name peeled bare, resolvedName, resolved, resolvedAll]
      · have inGap : '<' ∉ gap := fun member => absurd (blank '<' member) (by decide)
        have shape : n ++ (gap ++ '<' :: ([','].intercalate pieces ++ ['>'])) =
            (n ++ gap) ++ '<' :: ([','].intercalate pieces ++ ['>']) := by simp
        have last : ∀ c,
            (n ++ (gap ++ '<' :: ([','].intercalate pieces ++ ['>']))).getLast? = some c →
            c = '>' := by
          intro c last
          have closing : n ++ (gap ++ '<' :: ([','].intercalate pieces ++ ['>'])) =
              (n ++ (gap ++ '<' :: [','].intercalate pieces)) ++ ['>'] := by simp
          rw [closing, List.getLast?_concat] at last
          exact (Option.some.inj last).symm
        have peeled : Text.peel arrayLayer? (Text.trim piece) =
            (n ++ (gap ++ '<' :: ([','].intercalate pieces ++ ['>'])), dimensions) := by
          have visible : ∀ c, (n ++ (gap ++ '<' :: ([','].intercalate pieces ++ ['>']))).getLast? =
              some c → isBlank c = false := by
            intro c atEnd
            rw [last c atEnd]
            decide
          have noLayer : ∀ c, (n ++ (gap ++ '<' :: ([','].intercalate pieces ++ ['>']))).getLast? =
              some c → c ≠ ']' ∧ c ≠ '.' := by
            intro c atEnd
            rw [last c atEnd]
            decide
          rw [whole, ← List.append_assoc n, peel_brackets arrayLayer?_append
            (Text.trimEnd_of_back visible) inBrackets,
            Text.peel_of_none (arrayLayer?_eq_none noLayer)]
          simp
        have nonempty' : pieces ≠ [] := by
          rintro rfl
          cases written
          exact nonempty rfl
        have cut : argumentTexts? (n ++ (gap ++ '<' :: ([','].intercalate pieces ++ ['>']))) =
            some (n ++ gap, (pieces.map Text.trim).filter (!·.isEmpty)) := by
          rw [shape, argumentTexts?_of_angled (by simp [noOpen, inGap]),
            Text.topLevelPieces_intercalate (closed_of_writes arguments h.2 written) nonempty']
        rw [ofText_of_arguments peeled cut, resolve_of_spelled h.1 inName blank,
          ofText_of_writesAll policy scope arguments h.2 written, resolved]

theorem ofText_of_writesAll (policy : ExtractionPolicy) (scope : NameScope) :
    (types : List TypeTree) → areWritable types = true → {pieces : List Text} →
      List.Forall₂ Writes types pieces →
      (((pieces.map Text.trim).filter (!·.isEmpty)).map (ofText policy scope)) =
        resolvedAll policy scope types
  | [], _, _, written => by
      cases written
      rfl
  | type :: types, h, _, written => by
      simp only [areWritable, Bool.and_eq_true] at h
      cases written with
      | @cons _ piece _ pieces here rest =>
          have nonempty : (!(Text.trim piece).isEmpty) = true := by simp [here.trim_ne_nil h.1]
          rw [List.map_cons, List.filter_cons, if_pos nonempty, List.map_cons,
            ofText_congr (Text.trim_trim piece), ofText_of_writes policy scope type h.1 here,
            ofText_of_writesAll policy scope types h.2 rest, resolvedAll]

end

/-! ## Types of declarations -/

theorem head_of_spelled_brackets {dimensions : Nat} {b : Text}
    (spelled : Spelled (bracketLexemes dimensions) b) :
    ∀ c, b.head? = some c → isDottedPart c = false := by
  intro c head
  cases dimensions with
  | zero =>
      cases spelled
      cases head
  | succ dimensions =>
      obtain ⟨gap, rest, rfl, blank, -, -⟩ := spelled
      cases gap with
      | nil =>
          cases head
          decide
      | cons d gap =>
          rw [← Option.some.inj head]
          exact Character.not_isDottedPart_of_isBlank (blank d List.mem_cons_self)

/-- A type with a dotted path for its name begins with it, and the name ends there. -/
theorem exists_front {type : TypeTree} (dotted : isDottedPath type.name = true) {t : Text}
    (spelled : Spelled type.lexemes t) :
    ∃ g rest, t = g ++ (type.name ++ rest) ∧ Blank g ∧
      ∀ c, rest.head? = some c → isDottedPart c = false := by
  obtain ⟨name, arguments, dimensions, token⟩ := type
  obtain ⟨n, a, b, rfl, inName, inBrackets, arguments_cut⟩ := Spelled.cut spelled
  rw [Declaration.nameLexemes_of_isDottedPath dotted] at inName
  obtain ⟨g, rfl, blank, -⟩ := Lexeme.spelled_singleton.mp inName
  refine ⟨g, a ++ b, by simp, blank, ?_⟩
  rcases arguments_cut with ⟨-, rfl⟩ | ⟨gap, pieces, -, blank', rfl, -⟩
  · exact head_of_spelled_brackets inBrackets
  · intro c head
    cases gap with
    | nil =>
        cases head
        decide
    | cons d gap =>
        rw [← Option.some.inj head]
        exact Character.not_isDottedPart_of_isBlank (blank' d List.mem_cons_self)

/-- Two texts with the same beginning, one a word that a blank follows and one a
word that no name character follows. -/
theorem eq_of_append_eq {w w' rest rest' : Text} {c : Char} (visible : Visible w)
    (parts : ∀ d ∈ w', isNamePart d = true) (blank : isBlank c = true)
    (ends : ∀ d, rest.head? = some d → isNamePart d = false)
    (same : w ++ rest = w' ++ c :: rest') : w = w' := by
  rcases List.append_eq_append_iff.mp same with ⟨a, rfl, here⟩ | ⟨a, rfl, here⟩
  · cases a with
    | nil => simp
    | cons d a =>
        have isPart := parts d (by simp)
        rw [ends d (by rw [here]; rfl)] at isPart
        cases isPart
  · cases a with
    | nil => simp
    | cons d a =>
        obtain ⟨rfl, -⟩ := List.cons.inj here
        rw [visible c (by simp)] at blank
        cases blank

theorem dropKeywords_of_front {keyword w rest : Text} (visible : Visible w)
    (parts : ∀ d ∈ keyword, isNamePart d = true) (other : w ≠ keyword)
    (ends : ∀ d, rest.head? = some d → isNamePart d = false) :
    Text.dropKeywords keyword (w ++ rest) = w ++ rest := by
  have none : Text.dropKeyword? keyword (w ++ rest) = none := by
    unfold Text.dropKeyword?
    split
    · next c rest' found =>
        split
        · next blank =>
            exact absurd (eq_of_append_eq visible parts blank ends
              (Text.dropStart?_eq_some_iff.mp found)) other
        · rfl
    · rfl
  rw [Text.dropKeywords, Text.peel_of_none none]

theorem isNamePart_final : ∀ d ∈ "final".toList, isNamePart d = true := by decide

theorem not_isNamePart_of_not_isDottedPart {c : Char} (h : isDottedPart c = false) :
    isNamePart c = false := by
  apply Bool.eq_false_iff.mpr
  intro part
  rw [Character.isDottedPart_of_isNamePart part] at h
  cases h

theorem not_isNamePart_of_spelled_nil {t : Text} (spelled : Spelled [] t) (c : Char)
    (head : t.head? = some c) : isNamePart c = false := by
  cases spelled
  cases head

section

variable {type : TypeTree} (h : type.isReadable = true)
include h

theorem isVisible_lexemes : ∀ l ∈ type.lexemes, l.IsVisible := fun l member =>
  (isTypeLexeme_lexemes type (isWritable_of_isReadable h) l member).isVisible

/-- Behind a type that can be read stand no name characters, if what follows it does
not begin with one. -/
theorem exists_front_append {more : List Lexeme}
    (begins : ∀ {t : Text}, Spelled more t → ∀ c, t.head? = some c → isNamePart c = false)
    {t : Text} (spelled : Spelled (type.lexemes ++ more) t)
    (front : ∀ c, t.head? = some c → isBlank c = false) :
    ∃ rest, t = type.name ++ rest ∧ ∀ c, rest.head? = some c → isNamePart c = false := by
  obtain ⟨s, m, rfl, inType, inMore⟩ := Lexeme.spelled_append.mp spelled
  obtain ⟨g, rest, rfl, blank, ends⟩ := exists_front (isDottedPath_of_isReadable h) inType
  rw [List.append_assoc] at front
  obtain rfl := blank.eq_nil_of_front front
  refine ⟨rest ++ m, by simp, fun c head => ?_⟩
  cases rest with
  | nil => exact begins inMore c head
  | cons d rest => exact not_isNamePart_of_not_isDottedPart (ends c head)

/-- A type that can be read is not taken for a word `final`, whatever ends its name. -/
theorem isUnled_append {more : List Lexeme} (visible : ∀ l ∈ more, l.IsVisible)
    (begins : ∀ {t : Text}, Spelled more t → ∀ c, t.head? = some c → isNamePart c = false) :
    Lexeme.IsUnled (type.lexemes ++ more) where
  visible := List.forall_mem_append.mpr ⟨isVisible_lexemes h, visible⟩
  begins := by
    have writable := isWritable_of_isReadable h
    obtain ⟨l, others, shape⟩ := List.exists_cons_of_ne_nil (lexemes_ne_nil writable)
    have apart := head_lexemes writable l (by rw [shape]; rfl)
    obtain ⟨text, _⟩ := l
    subst apart
    exact ⟨text, others ++ more, by rw [shape]; rfl⟩
  kept := by
    intro t spelled front
    obtain ⟨rest, rfl, ends⟩ := exists_front_append h begins spelled front
    refine dropKeywords_of_front (Header.visible_of_isDottedPath (isDottedPath_of_isReadable h))
      isNamePart_final (fun same => ?_) ends
    exact not_mem_of_isReadable h (by rw [same]; decide)

theorem isUnled_lexemes : Lexeme.IsUnled type.lexemes := by
  have unled : Lexeme.IsUnled (type.lexemes ++ []) :=
    isUnled_append h (by simp) not_isNamePart_of_spelled_nil
  rwa [List.append_nil] at unled

/-- A text that is the type and more without the words `final` in front of it is read as
a type. -/
theorem read?_of_bare {policy : ExtractionPolicy} {scope : NameScope} {more : List Lexeme}
    (begins : ∀ {t : Text}, Spelled more t → ∀ c, t.head? = some c → isNamePart c = false)
    {raw bare : Text}
    (dropped : Text.trim (Text.dropKeywords "final".toList (Text.trim raw)) = bare)
    (spelled : Spelled (type.lexemes ++ more) bare) :
    read? policy scope raw = some (ofText policy scope bare) := by
  have front : ∀ c, bare.head? = some c → isBlank c = false := by
    rw [← dropped]
    exact (Text.isTrimmed_trim _).front
  obtain ⟨rest, rfl, ends⟩ := exists_front_append h begins spelled front
  have dotted := isDottedPath_of_isReadable h
  have notVoid : type.name ++ rest ≠ "void".toList := by
    intro same
    have inVoid : ∀ c ∈ "void".toList, isNamePart c = true := by decide
    cases rest with
    | nil =>
        rw [List.append_nil] at same
        exact not_mem_of_isReadable h (by rw [same]; decide)
    | cons d rest =>
        have part := inVoid d (by rw [← same]; simp)
        rw [ends d rfl] at part
        cases part
  have accepted : ((type.name ++ rest).isEmpty || type.name ++ rest == "void".toList) = false := by
    rw [Bool.or_eq_false_iff, beq_eq_false_iff_ne, List.isEmpty_eq_false_iff]
    exact ⟨fun empty => Header.isDottedPath_ne_nil dotted (List.append_eq_nil_iff.mp empty).1,
      notVoid⟩
  unfold read?
  simp only [dropped]
  rw [accepted, if_neg (by simp)]

/-- A spelled type with words `final` in front of it is read as the type. -/
theorem read?_of_covers {policy : ExtractionPolicy} {scope : NameScope} {finals : Nat}
    {piece : Text} (covers : Lexeme.Covers (Lexeme.behindFinals type.lexemes finals) piece) :
    read? policy scope piece = some (type.resolved policy scope) := by
  have bare := (isUnled_lexemes h).spelled_bare covers
  rw [read?_of_bare h not_isNamePart_of_spelled_nil rfl (by rwa [List.append_nil]),
    ofText_of_writes policy scope type (isWritable_of_isReadable h)
      ⟨_, [], by simp, bare, Text.blank_nil⟩]

/-- A spelled type of a declaration is read as the type. -/
theorem read?_of_writes {policy : ExtractionPolicy} {scope : NameScope} {piece : Text}
    (writes : Writes type piece) :
    read? policy scope piece = some (type.resolved policy scope) := by
  have covers : Lexeme.Covers (Lexeme.behindFinals type.lexemes 0) piece := writes
  exact read?_of_covers h covers

end

/-! ## Three dots behind a type -/

/-- Two texts with the same name and arguments behind their array layers stand for
the same type, up to its dimensions. -/
theorem ofText_of_layers {policy : ExtractionPolicy} {scope : NameScope} {s t whole : Text}
    {dimensions dimensions' : Nat}
    (peeled : Text.peel arrayLayer? (Text.trim s) = (whole, dimensions))
    (peeled' : Text.peel arrayLayer? (Text.trim t) = (whole, dimensions')) :
    ofText policy scope t = (ofText policy scope s).withDimensions dimensions' := by
  cases cut : argumentTexts? whole with
  | none => rw [ofText_of_name peeled cut, ofText_of_name peeled' cut]; rfl
  | some parts =>
      obtain ⟨name, pieces⟩ := parts
      rw [ofText_of_arguments peeled cut, ofText_of_arguments peeled' cut]
      rfl

theorem dimensions_ofText (policy : ExtractionPolicy) (scope : NameScope) (t : Text) :
    (ofText policy scope t).dimensions = (Text.peel arrayLayer? (Text.trim t)).2 := by
  cases cut : argumentTexts? (Text.peel arrayLayer? (Text.trim t)).1 with
  | none => rw [ofText_of_name rfl cut]; rfl
  | some parts =>
      obtain ⟨name, pieces⟩ := parts
      rw [ofText_of_arguments rfl cut]
      rfl

/-- Three dots behind a type text are one more dimension. -/
theorem ofText_dots {policy : ExtractionPolicy} {scope : NameScope} {s gap : Text}
    (trimmed : Text.IsTrimmed s) (nonempty : s ≠ []) (blank : Blank gap) :
    ofText policy scope (s ++ (gap ++ "...".toList)) =
      (ofText policy scope s).withDimensions ((ofText policy scope s).dimensions + 1) := by
  have whole : Text.trim (s ++ (gap ++ "...".toList)) = s ++ (gap ++ "...".toList) :=
    (trimmed.append (Text.isTrimmed_of_visible (by decide)) gap nonempty (by decide)).trim_eq
  have layer : arrayLayer? (s ++ (gap ++ "...".toList)) = some s := by
    have dots : Text.dropFinal? "...".toList (s ++ (gap ++ "...".toList)) = some (s ++ gap) :=
      Text.dropFinal?_eq_some_iff.mpr (by simp)
    unfold arrayLayer?
    rw [dots]
    simp only [Text.trimEnd_append blank, trimmed.trimEnd_eq]
  have peeled := Text.peel_of_some layer (by simp)
  rw [dimensions_ofText, trimmed.trim_eq]
  have peeledType : Text.peel arrayLayer? (Text.trim s) =
      ((Text.peel arrayLayer? s).1, (Text.peel arrayLayer? s).2) := by rw [trimmed.trim_eq]
  exact ofText_of_layers peeledType (by rw [whole, peeled])

/-! ## Dimensions -/

theorem dimensions_resolved (policy : ExtractionPolicy) (scope : NameScope) (type : TypeTree) :
    (type.resolved policy scope).dimensions = type.dimensions := by
  obtain ⟨name, arguments, dimensions, token⟩ := type
  rfl

theorem resolved_withDimensions (policy : ExtractionPolicy) (scope : NameScope) (type : TypeTree) :
    (type.resolved policy scope).withDimensions type.dimensions = type.resolved policy scope := by
  obtain ⟨name, arguments, dimensions, token⟩ := type
  rfl

/-- A spelled type with words `final` in front of it and three dots behind it is read
with one more dimension. -/
theorem read?_of_dots {policy : ExtractionPolicy} {scope : NameScope} {type : TypeTree}
    (h : type.isReadable = true) {finals : Nat} {piece : Text}
    (covers : Lexeme.Covers (Lexeme.behindFinals (type.lexemes ++ [near "...".toList]) finals)
      piece) :
    read? policy scope piece =
      some ((type.resolved policy scope).withDimensions (type.dimensions + 1)) := by
  have visible : (near "...".toList).IsVisible := Lexeme.isVisible_near (by decide) (by decide)
  have begins : ∀ {t : Text}, Spelled [near "...".toList] t → ∀ c, t.head? = some c →
      isNamePart c = false := by
    intro t spelled c head
    obtain ⟨gap, rfl, blank, -⟩ := Lexeme.spelled_singleton.mp spelled
    cases gap with
    | nil =>
        cases head
        decide
    | cons d gap =>
        rw [← Option.some.inj head]
        exact Character.not_isNamePart_of_isBlank (blank d List.mem_cons_self)
  have writable := isWritable_of_isReadable h
  have bare := (isUnled_append h (List.forall_mem_singleton.mpr visible) begins).spelled_bare covers
  have front := (Text.isTrimmed_trim (Text.dropKeywords "final".toList (Text.trim piece))).front
  rw [read?_of_bare h begins rfl bare]
  obtain ⟨s, _, shape, inType, inDots⟩ := Lexeme.spelled_append.mp bare
  obtain ⟨gap, rfl, blank, -⟩ := Lexeme.spelled_singleton.mp inDots
  rw [shape] at front ⊢
  have nonempty : s ≠ [] := inType.ne_nil (isVisible_lexemes h) (lexemes_ne_nil writable)
  have trimmed : IsTrimmed s :=
    ⟨fun c head => front c (by rw [List.head?_append_of_ne_nil _ nonempty, head]),
      inType.back (isVisible_lexemes h)⟩
  rw [near_text, ofText_dots trimmed nonempty blank,
    ofText_of_writes policy scope type writable ⟨s, [], by simp, inType, Text.blank_nil⟩,
    dimensions_resolved]

end TypeTree
end Testwright
