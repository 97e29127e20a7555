import Testwright.Proofs.Declaration.ConstructorSpelling
import Testwright.Proofs.Declaration.ImportSpelling
import Testwright.Proofs.Declaration.MethodReading

namespace Testwright

/-!
# Classes in the source

A class is written as a package statement, import statements, a header and
members in any order.  The layout is free between the lexemes of each, and the
text of a body is taken as it is.

`ClassForm.declared` is the surface of a class in its normalized form: each
member contributes what it declares, and behind it what the pieces of its body
would declare on their own.  A reader of areas cannot tell a local class from the
class around it.
-/

open Lexeme (Spelled behindBlank freeFirst led near partFirst)

/-- A member of a class.  A field is private and has no initializer. -/
inductive Member where
  | field (type : TypeTree) (name : Text)
  | constructor (form : ConstructorForm)
  | method (form : MethodForm)

namespace Member

open Declaration (isIdentifier)

/-- The lexemes up to the semicolon or to the brace in front of the body. -/
def lexemes (className : Text) : Member → List Lexeme
  | field type name =>
      near "private".toList :: (partFirst type.lexemes ++ [behindBlank name, near [';']])
  | constructor form => form.lexemes className
  | method form => form.lexemes

/-- The text between the braces. -/
def body : Member → Option Text
  | field _ _ => none
  | constructor form => some form.body
  | method form => form.body

/-- What follows the lexemes: the body and the brace behind it. -/
def closing (member : Member) : Text :=
  match member.body with
  | some body => body ++ ['}']
  | none => []

/-- The words that begin the statements of a source. -/
def statementWords : List Text :=
  ["package".toList, "import".toList]

/-- Whether no statement begins with the end of the type in front of a name.
Arguments and brackets keep it from that. -/
def isUnlikeStatement (type : TypeTree) : Bool :=
  !type.arguments.isEmpty || 0 < type.dimensions ||
    statementWords.all fun w => !Text.endsIn type.name w

def isWellFormed (className : Text) : Member → Bool
  | field type name => type.isDeclared && isIdentifier name && isUnlikeStatement type
  | constructor form =>
      form.isWellFormed && statementWords.all fun w => !Text.mentions form.body w
  | method form =>
      form.isWellFormed && form.name != className &&
        statementWords.all fun w => form.body.all fun body => !Text.mentions body w

/-- The constructor that the member is. -/
def ownConstructors (policy : ExtractionPolicy) (scope : NameScope) : Member → List Constructor
  | constructor form => [form.declared policy scope]
  | _ => []

/-- The method that the member is. -/
def ownMethods (library : PatternLibrary) (policy : ExtractionPolicy) (scope : NameScope)
    (source : Text) : Member → List Method
  | method form => [form.declared library policy scope source]
  | _ => []

/-- The constructors that the member shows: itself, and those that stand in its
body. -/
def constructors (policy : ExtractionPolicy) (scope : NameScope) (className : Text)
    (member : Member) : List Constructor :=
  member.ownConstructors policy scope ++
    (Text.areas member.closing).filterMap (Constructor.ofArea? policy scope className)

/-- The methods that the member shows: itself, and those that stand in its
body. -/
def methods (library : PatternLibrary) (policy : ExtractionPolicy) (scope : NameScope)
    (className source : Text)
    (member : Member) : List Method :=
  member.ownMethods library policy scope source ++
    (Signature.findAll member.closing className).map
      (Method.ofSignature library policy scope source)

/-- The member with another text in its body. -/
def mapBody (change : Text → Text) : Member → Member
  | field type name => field type name
  | constructor form => constructor { form with body := change form.body }
  | method form => method { form with body := form.body.map change }

/-- Whether a text is the members in order, each spelled up to its body. -/
def Written (className : Text) : List Member → Text → Prop
  | [], t => t = []
  | member :: members, t =>
      ∃ s rest, t = s ++ (member.closing ++ rest) ∧ Spelled (member.lexemes className) s ∧
        Written className members rest

end Member

/-- A class or an interface. -/
structure ClassForm where
  package : Option Text
  imports : List ImportForm
  modifiers : List Text
  /-- The word that begins the declaration. -/
  keyword : Text
  name : Text
  /-- The name behind `extends`, if there is one. -/
  parent : Option Text
  members : List Member

namespace ClassForm

open Declaration (isDottedName isIdentifier)
open Text (Blank)

/-- The lexemes of the statements in front of the class. -/
def statementLexemes (form : ClassForm) : List Lexeme :=
  Lexeme.packageLexemes form.package ++ form.imports.flatMap ImportForm.lexemes

/-- The lexemes from the word that begins the declaration on, without the brace. -/
def frontLexemes (form : ClassForm) : List Lexeme :=
  near form.keyword :: behindBlank form.name ::
    form.parent.toList.flatMap fun parent => [behindBlank "extends".toList, behindBlank parent]

/-- The lexemes of the header, without the statements in front of it. -/
def headerLexemes (form : ClassForm) : List Lexeme :=
  freeFirst (led form.modifiers form.frontLexemes) ++ [near ['\x7b']]

def isWellFormed (form : ClassForm) : Bool :=
  form.package.all isDottedName && form.imports.all ImportForm.isWellFormed &&
    form.modifiers.all Declaration.modifiers.contains && Matcher.classWords.contains form.keyword &&
    isIdentifier form.name && form.parent.all isDottedName &&
    form.members.all (Member.isWellFormed form.name)

structure Parts (form : ClassForm) : Prop where
  package : ∀ name ∈ form.package, isDottedName name = true
  imports : ∀ statement ∈ form.imports, statement.isWellFormed = true
  modifiers : ∀ w ∈ form.modifiers, w ∈ Declaration.modifiers
  keyword : form.keyword ∈ Matcher.classWords
  name : isIdentifier form.name = true
  parent : ∀ name ∈ form.parent, isDottedName name = true
  members : ∀ member ∈ form.members, member.isWellFormed form.name = true

theorem parts {form : ClassForm} (h : form.isWellFormed = true) : Parts form := by
  simp only [isWellFormed, Bool.and_eq_true, List.all_eq_true, List.contains_iff_mem,
    Option.all_eq_true] at h
  obtain ⟨⟨⟨⟨⟨⟨package, imports⟩, modifiers⟩, keyword⟩, name⟩, parent⟩, members⟩ := h
  exact ⟨package, imports, modifiers, keyword, name, parent, members⟩

/-- A lexeme of a statement is a word, or it ends the statement or its path. -/
theorem inner_statementLexemes {form : ClassForm} (h : form.isWellFormed = true) :
    ∀ l ∈ form.statementLexemes, Lexeme.IsInner l ∨ l.text ∈ [[';'], ".*".toList] := by
  have word : ∀ {l : Lexeme}, l.text ∈ ["package".toList, "import".toList, "static".toList] →
      Lexeme.IsInner l := fun {l} member =>
    Or.inl ((by decide : ∀ t ∈ ["package".toList, "import".toList, "static".toList],
      t ≠ [] ∧ ∀ c ∈ t, Character.isDottedPart c = true) l.text member)
  refine List.forall_mem_append.mpr ⟨fun l member => ?_, fun l member => ?_⟩
  · obtain ⟨name, isPackage, inStatement⟩ := List.mem_flatMap.mp member
    have dotted := (parts h).package name (Option.mem_toList.mp isPackage)
    simp only [List.mem_cons, List.not_mem_nil, or_false] at inStatement
    rcases inStatement with rfl | rfl | rfl
    · exact Or.inl (word (by decide))
    · exact Or.inl (Lexeme.isPlain_of_isDottedName dotted).1
    · exact Or.inr (by decide)
  · obtain ⟨statement, isImport, inStatement⟩ := List.mem_flatMap.mp member
    have dotted : isDottedName statement.path = true := (parts h).imports statement isImport
    simp only [ImportForm.lexemes, List.mem_cons, List.mem_append, List.mem_ite_nil_right,
      List.not_mem_nil, or_false] at inStatement
    rcases inStatement with rfl | ⟨-, rfl⟩ | rfl | ⟨-, rfl⟩ | rfl
    · exact Or.inl (word (by decide))
    · exact Or.inl (word (by decide))
    · exact Or.inl (Lexeme.isPlain_of_isDottedName dotted).1
    · exact Or.inr (by decide)
    · exact Or.inr (by decide)

theorem inner_frontLexemes {form : ClassForm} (h : form.isWellFormed = true) :
    ∀ l ∈ form.frontLexemes, Lexeme.IsInner l := by
  have keyword := (by decide : ∀ w ∈ Matcher.classWords, Lexeme.IsKeyword w) _ (parts h).keyword
  refine List.forall_mem_cons.mpr ⟨Or.inl (Lexeme.isWord_of_isKeyword keyword), ?_⟩
  refine List.forall_mem_cons.mpr ⟨(Lexeme.isPlain_of_isIdentifier (parts h).name).1, ?_⟩
  intro l member
  obtain ⟨parent, isParent, member⟩ := List.mem_flatMap.mp member
  have dotted := (parts h).parent parent (Option.mem_toList.mp isParent)
  simp only [List.mem_cons, List.not_mem_nil, or_false] at member
  rcases member with rfl | rfl
  · exact Or.inl ⟨by decide, by decide⟩
  · exact (Lexeme.isPlain_of_isDottedName dotted).1

theorem inner_headerLexemes {form : ClassForm} (h : form.isWellFormed = true) :
    ∀ l ∈ freeFirst (led form.modifiers form.frontLexemes), Lexeme.IsInner l := by
  refine Lexeme.forall_mem_freeFirst_led (P := fun w => Lexeme.IsInner (near w))
    (fun w member => ?_)
    fun l member => ?_
  · exact Or.inl (Lexeme.isWord_of_isKeyword
      (MethodForm.isKeyword_modifiers ((parts h).modifiers w member)))
  · exact inner_frontLexemes h l member

/-- Whether a text is the class in some layout. -/
def Written (form : ClassForm) (t : Text) : Prop :=
  ∃ a b c gap gap', t = a ++ (b ++ (c ++ (gap ++ '}' :: gap'))) ∧
    Spelled form.statementLexemes a ∧ Spelled form.headerLexemes b ∧
    Member.Written form.name form.members c ∧ Blank gap ∧ Blank gap'

/-- What a surface says of the class apart from its members. -/
def header (form : ClassForm) : ClassSurface where
  name := form.name
  package := form.package
  imports := form.imports.map ImportForm.declared
  constructors := []
  methods := []

/-- The surface of the class in a normalized source.  The source decides which
methods are accessors. -/
def declared (library : PatternLibrary) (policy : ExtractionPolicy) (source : Text)
    (form : ClassForm) : ClassSurface :=
  let scope := NameScope.ofSurface form.header
  { form.header with
    constructors := form.members.flatMap (Member.constructors policy scope form.name)
    methods := form.members.flatMap (Member.methods library policy scope form.name source) }

/-- The class with other texts in its bodies. -/
def mapBodies (change : Text → Text) (form : ClassForm) : ClassForm :=
  { form with members := form.members.map (Member.mapBody change) }

/-- One layout of the class, with no blank that is not needed. -/
def print (form : ClassForm) : Text :=
  Lexeme.print form.statementLexemes ++ (Lexeme.print form.headerLexemes ++
    ((form.members.flatMap fun member =>
      Lexeme.print (member.lexemes form.name) ++ member.closing) ++ ['}']))

theorem written_print (form : ClassForm) : form.Written form.print := by
  have members : ∀ members : List Member, Member.Written form.name members
      (members.flatMap fun member =>
        Lexeme.print (member.lexemes form.name) ++ member.closing) := by
    intro members
    induction members with
    | nil => rfl
    | cons member members ih =>
        exact ⟨Lexeme.print (member.lexemes form.name), _, by simp, Lexeme.spelled_print _, ih⟩
  exact ⟨_, _, _, [], [], rfl, Lexeme.spelled_print _, Lexeme.spelled_print _, members form.members,
    Text.blank_nil, Text.blank_nil⟩

end ClassForm
end Testwright
