import Testwright.Proofs.Declaration.Lexeme
import Testwright.Proofs.Header.DottedPath
import Testwright.Source.Signature
import Testwright.Source.TypeText

namespace Testwright
namespace Declaration

/-!
# Names of a declaration

An identifier is made of name characters and is none of the words that mean
something to a reader of declarations.  A dotted name is a list of identifiers
with dots between them; this is what rules out a leading or trailing dot, and the
three dots of a variable arity parameter.  The name at a node of a type is a
dotted name or a wildcard, whose bound is part of the name.
-/

open Character (isBlank isWord isNamePart isDottedPart)
open Text (Blank Visible)

/-- The words that may stand in front of a declaration. -/
def modifiers : List Text :=
  Visibility.keywords ++ Matcher.qualifiers

/-- The words that no identifier of a declaration is. -/
def keywords : List Text :=
  Signature.reserved ++ modifiers ++ ["void".toList]

def isIdentifier (w : Text) : Bool :=
  !w.isEmpty && w.all isNamePart && !keywords.contains w

/-- Identifiers with a dot between each two. -/
def isDottedName (t : Text) : Bool :=
  (Text.splitOn (· == '.') t).all isIdentifier

theorem not_mem_keywords {w : Text} (h : isIdentifier w = true) : w ∉ keywords := by
  intro member
  simp [isIdentifier, member] at h

theorem mem_keywords_of_mem_modifiers {w : Text} (h : w ∈ modifiers) : w ∈ keywords :=
  List.mem_append_left _ (List.mem_append_right _ h)

theorem isIdentifier_ne_nil {w : Text} (h : isIdentifier w = true) : w ≠ [] := by
  rintro rfl
  cases h

theorem isNamePart_of_isIdentifier {w : Text} (h : isIdentifier w = true) :
    ∀ c ∈ w, isNamePart c = true := by
  simp only [isIdentifier, Bool.and_eq_true, List.all_eq_true] at h
  exact h.1.2

theorem visible_of_isIdentifier {w : Text} (h : isIdentifier w = true) : Visible w :=
  fun c member => Character.not_isBlank_of_isNamePart (isNamePart_of_isIdentifier h c member)

/-! ## Dotted names -/

/-- A dotted name is one identifier and then others, each behind a dot. -/
theorem exists_parts {t : Text} (h : isDottedName t = true) :
    ∃ (first : Text) (rest : List Text), t = first ++ (rest.flatMap fun piece => '.' :: piece) ∧
      isIdentifier first = true ∧ ∀ piece ∈ rest, isIdentifier piece = true := by
  obtain ⟨first, rest, pieces, whole⟩ := Text.exists_splitOn '.' t
  rw [isDottedName, pieces, List.all_cons, Bool.and_eq_true, List.all_eq_true] at h
  exact ⟨first, rest, whole, h.1, h.2⟩

/-- The parts of a dotted name may be any words of name characters for most of what
is said about it. -/
theorem isDottedPath_of_isDottedName {t : Text} (h : isDottedName t = true) :
    Header.isDottedPath t = true := by
  rw [isDottedName, List.all_eq_true] at h
  rw [Header.isDottedPath, List.all_eq_true]
  intro piece member
  have part := h piece member
  simp only [isIdentifier, Bool.and_eq_true] at part
  simpa using part.1

theorem isDottedPart_of_isDottedName {t : Text} (h : isDottedName t = true) :
    ∀ c ∈ t, isDottedPart c = true :=
  Header.isDottedPart_of_isDottedPath (isDottedPath_of_isDottedName h)

theorem visible_of_isDottedName {t : Text} (h : isDottedName t = true) : Visible t :=
  Header.visible_of_isDottedPath (isDottedPath_of_isDottedName h)

theorem isDottedName_ne_nil {t : Text} (h : isDottedName t = true) : t ≠ [] :=
  Header.isDottedPath_ne_nil (isDottedPath_of_isDottedName h)

/-- No keyword is a dotted name. -/
theorem not_mem_keywords_of_isDottedName {t : Text} (h : isDottedName t = true) : t ∉ keywords := by
  have noDots : ∀ w ∈ keywords, Text.splitOn (· == '.') w = [w] := by decide
  intro member
  rw [isDottedName, noDots t member, List.all_cons, Bool.and_eq_true] at h
  exact not_mem_keywords h.1 member

/-! ## No two dots together -/

/-- Behind each dot of the text stands a name character. -/
def DotsInside (t : Text) : Prop :=
  ∀ x y, t = x ++ '.' :: y → ∃ c y', y = c :: y' ∧ isNamePart c = true

theorem dotsInside_of_not_mem {t : Text} (absent : '.' ∉ t) : DotsInside t := by
  rintro x y rfl
  exact absurd (by simp) absent

theorem DotsInside.append {s t : Text} (first : DotsInside s) (second : DotsInside t) :
    DotsInside (s ++ t) := by
  intro x y cut
  rcases List.append_eq_append_iff.mp cut with ⟨a, rfl, rfl⟩ | ⟨a, rfl, here⟩
  · exact second a y rfl
  · cases a with
    | nil => exact second [] y here.symm
    | cons d a =>
        obtain ⟨rfl, rfl⟩ := List.cons.inj here
        obtain ⟨c, y', inside, part⟩ := first x a rfl
        exact ⟨c, y' ++ t, by rw [inside]; rfl, part⟩

theorem dotsInside_of_isDottedPath {t : Text} (h : Header.isDottedPath t = true) :
    DotsInside t := by
  obtain ⟨first, rest, rfl, inFirst, inRest⟩ := Header.exists_names h
  have name : ∀ w, (∀ c ∈ w, isNamePart c = true) → DotsInside w := by
    intro w isWord
    apply dotsInside_of_not_mem
    intro member
    exact absurd (isWord '.' member) (by decide)
  apply (name first inFirst.2).append
  clear h
  induction rest with
  | nil => exact dotsInside_of_not_mem (by simp)
  | cons piece rest ih =>
      have isPiece := inRest piece List.mem_cons_self
      have later := ih fun w member => inRest w (List.mem_cons_of_mem piece member)
      rw [List.flatMap_cons, List.cons_append]
      intro x y cut
      cases x with
      | nil =>
          obtain ⟨-, rfl⟩ := List.cons.inj cut
          obtain ⟨c, w, rfl⟩ := List.exists_cons_of_ne_nil isPiece.1
          exact ⟨c, _, rfl, isPiece.2 c List.mem_cons_self⟩
      | cons d x =>
          obtain ⟨-, tail⟩ := List.cons.inj cut
          exact (name piece isPiece.2).append later x y tail

/-! ## Names at the nodes of a type -/

/-- The lexemes of the name at a node.  The bound word of a wildcard may stand
right behind the question mark. -/
def nameLexemes (name : Text) : List Lexeme :=
  match Text.words name with
  | [mark, bound, base] => [Lexeme.near mark, Lexeme.near bound, Lexeme.behindBlank base]
  | words => words.map Lexeme.near

/-- Whether the text is a dotted name, a wildcard, or a wildcard with a bound. -/
def isNodeName (name : Text) : Bool :=
  match Text.words name with
  | [word] => word == ['?'] || isDottedName word
  | [mark, bound, base] =>
      mark == ['?'] && NameScope.boundWords.contains bound && isDottedName base
  | _ => false

/-- The forms of the name at a node. -/
inductive NodeName : List Text → Prop
  | dotted {word : Text} (h : isDottedName word = true) : NodeName [word]
  | wildcard : NodeName [['?']]
  | bounded {bound base : Text} (isBound : bound ∈ NameScope.boundWords)
      (h : isDottedName base = true) : NodeName [['?'], bound, base]

theorem nodeName_of_isNodeName {name : Text} (h : isNodeName name = true) :
    NodeName (Text.words name) := by
  unfold isNodeName at h
  split at h
  · next word found =>
      simp only [Bool.or_eq_true, beq_iff_eq] at h
      rw [found]
      rcases h with rfl | dotted
      · exact NodeName.wildcard
      · exact NodeName.dotted dotted
  · next mark bound base found =>
      simp only [Bool.and_eq_true, beq_iff_eq, List.contains_iff_mem] at h
      obtain ⟨⟨rfl, isBound⟩, dotted⟩ := h
      rw [found]
      exact NodeName.bounded isBound dotted
  · cases h

/-- Whether the text is a dotted path, a wildcard, or a wildcard with a bound, whatever
words of name characters are in it. -/
def isTypeName (name : Text) : Bool :=
  match Text.words name with
  | [word] => word == ['?'] || Header.isDottedPath word
  | [mark, bound, base] =>
      mark == ['?'] && NameScope.boundWords.contains bound && Header.isDottedPath base
  | _ => false

/-- The forms of the name at a node, whatever its words are. -/
inductive TypeName : List Text → Prop
  | dotted {word : Text} (h : Header.isDottedPath word = true) : TypeName [word]
  | wildcard : TypeName [['?']]
  | bounded {bound base : Text} (isBound : bound ∈ NameScope.boundWords)
      (h : Header.isDottedPath base = true) : TypeName [['?'], bound, base]

theorem typeName_iff {name : Text} : isTypeName name = true ↔ TypeName (Text.words name) := by
  unfold isTypeName
  constructor
  · intro h
    split at h
    · next word found =>
        simp only [Bool.or_eq_true, beq_iff_eq] at h
        rw [found]
        rcases h with rfl | dotted
        · exact TypeName.wildcard
        · exact TypeName.dotted dotted
    · next mark bound base found =>
        simp only [Bool.and_eq_true, beq_iff_eq, List.contains_iff_mem] at h
        obtain ⟨⟨rfl, isBound⟩, dotted⟩ := h
        rw [found]
        exact TypeName.bounded isBound dotted
    · cases h
  · intro form
    generalize Text.words name = words at form ⊢
    cases form with
    | dotted h => simp [h]
    | wildcard => rfl
    | bounded isBound h => simp [isBound, h]

theorem isTypeName_of_isNodeName {name : Text} (h : isNodeName name = true) :
    isTypeName name = true := by
  have form := nodeName_of_isNodeName h
  rw [typeName_iff]
  generalize Text.words name = words at form ⊢
  cases form with
  | dotted dotted => exact TypeName.dotted (isDottedPath_of_isDottedName dotted)
  | wildcard => exact TypeName.wildcard
  | bounded isBound dotted => exact TypeName.bounded isBound (isDottedPath_of_isDottedName dotted)

theorem isTypeName_of_isDottedPath {name : Text} (h : Header.isDottedPath name = true) :
    isTypeName name = true := by
  have single :=
    Text.words_of_visible (Header.visible_of_isDottedPath h) (Header.isDottedPath_ne_nil h)
  simp [isTypeName, single, h]

theorem nameLexemes_of_isDottedPath {name : Text} (h : Header.isDottedPath name = true) :
    nameLexemes name = [Lexeme.near name] := by
  have single :=
    Text.words_of_visible (Header.visible_of_isDottedPath h) (Header.isDottedPath_ne_nil h)
  simp [nameLexemes, single]

theorem isNodeName_of_isDottedName {name : Text} (h : isDottedName name = true) :
    isNodeName name = true := by
  have single := Text.words_of_visible (visible_of_isDottedName h) (isDottedName_ne_nil h)
  simp [isNodeName, single, h]

theorem nameLexemes_of_isDottedName {name : Text} (h : isDottedName name = true) :
    nameLexemes name = [Lexeme.near name] := by
  have single := Text.words_of_visible (visible_of_isDottedName h) (isDottedName_ne_nil h)
  simp [nameLexemes, single]

end Declaration
end Testwright
