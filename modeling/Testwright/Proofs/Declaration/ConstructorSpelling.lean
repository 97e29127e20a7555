import Testwright.Proofs.Declaration.MethodReading
import Testwright.Source.ClassReader

namespace Testwright

/-!
# Spellings of constructors

A constructor is declared by a keyword of visibility or none, the name of the
class, parameters, thrown types and a body.  Its area is read as a constructor
and left out of the methods.  With the area of a method it is the other way
round, because the name of the method stands where the name of the class would.
-/

open Lexeme (Spelled behindBlank freeFirst led listedLexemes near)

/-- The declaration of a constructor. -/
structure ConstructorForm where
  /-- The keyword of visibility, if there is one. -/
  access : List Text
  parameters : List ParameterForm
  /-- The names of the thrown types. -/
  thrown : List Text
  /-- The text between the braces. -/
  body : Text

namespace ConstructorForm

open Character (isBlank isNamePart)
open Declaration (isDottedName isIdentifier)
open Lexeme (IsInner IsKeyword IsSound)
open Matcher (Reads Stops)
open Text (Blank)

/-- The lexemes of the declaration up to the opening brace. -/
def lexemes (className : Text) (form : ConstructorForm) : List Lexeme :=
  listedLexemes (freeFirst (led form.access [near className]))
    (ParameterForm.listLexemes form.parameters) form.thrown '\x7b'

def isWellFormed (form : ConstructorForm) : Bool :=
  form.access.all Visibility.keywords.contains && form.access.length ≤ 1 &&
    form.parameters.all ParameterForm.isWellFormed && form.thrown.all isDottedName

/-- The constructor that a reader in the scope makes of the declaration. -/
def declared (policy : ExtractionPolicy) (scope : NameScope) (form : ConstructorForm) :
    Constructor :=
  let parameters := form.parameters.map (ParameterForm.declared policy scope)
  { visibility := Lexeme.visibilityOf policy.implicitVisibility form.access
    parameterNames := parameters.map Parameter.name
    parameterTypes := parameters.map Parameter.type }

section

variable {form : ConstructorForm} {className : Text}

/-- What a well-formed declaration is made of. -/
structure Parts (form : ConstructorForm) : Prop where
  access : ∀ w ∈ form.access, w ∈ Visibility.keywords
  parameters : ∀ parameter ∈ form.parameters, parameter.isWellFormed = true
  thrown : ∀ name ∈ form.thrown, isDottedName name = true

theorem parts (h : form.isWellFormed = true) : Parts form := by
  simp only [isWellFormed, Bool.and_eq_true, List.all_eq_true, List.contains_iff_mem] at h
  exact ⟨h.1.1.1, h.1.2, h.2⟩

theorem isKeyword_of_isIdentifier {w : Text} (h : isIdentifier w = true) : IsKeyword w :=
  ⟨Declaration.isIdentifier_ne_nil h, Declaration.isNamePart_of_isIdentifier h⟩

theorem inner_headingLexemes (h : form.isWellFormed = true)
    (isClass : isIdentifier className = true) :
    ∀ l ∈ freeFirst (led form.access [near className]), IsInner l := by
  refine Lexeme.forall_mem_freeFirst_led (P := fun w => IsInner (near w)) (fun w member => ?_)
    fun l member => ?_
  · exact Or.inl
      (Lexeme.isWord_of_isKeyword (Lexeme.isKeyword_visibility w ((parts h).access w member)))
  · rw [List.mem_singleton.mp member]
    exact (Lexeme.isPlain_of_isIdentifier (l := near className) isClass).1

/-- The lexemes behind the name of the class. -/
def listLexemes (form : ConstructorForm) : List Lexeme :=
  near ['('] :: (ParameterForm.listLexemes form.parameters ++ (near [')'] ::
    (Lexeme.throwsLexemes form.thrown ++ [near ['\x7b']])))

theorem lexemes_eq (form : ConstructorForm) :
    form.lexemes className = freeFirst (led form.access (near className :: form.listLexemes)) := by
  have whole : near className :: form.listLexemes = [near className] ++ form.listLexemes := rfl
  rw [whole, Lexeme.led_append_right _ (by simp),
    Lexeme.freeFirst_append (Lexeme.led_ne_nil (by simp))]
  rfl

theorem isSound_lexemes (h : form.isWellFormed = true) (isClass : isIdentifier className = true) :
    IsSound (near className :: form.listLexemes) := by
  have tail := (Lexeme.isList_throwsLexemes (parts h).thrown).sound.append_mark
    (Lexeme.isMark_last (Or.inl rfl)) Lexeme.isSound_nil
  have list := (ParameterForm.isList_listLexemes (parts h).parameters).sound.append_mark
    Lexeme.isMark_parenthesis.2 tail
  have name : IsSound [near className] :=
    Lexeme.isSound_singleton (Lexeme.isPlain_of_isIdentifier (l := near className) isClass).1.kind
  exact name.append_mark Lexeme.isMark_parenthesis.1 list

/-- The keywords in front of the name of the class, as they are read. -/
theorem exists_access (h : form.isWellFormed = true) (isClass : isIdentifier className = true)
    {area : Text} (spelled : Spelled (form.lexemes className) area) (stops : Stops isBlank area) :
    ∃ lead r, area = lead ++ (className ++ r) ∧ Spelled form.listLexemes r ∧
      Reads (Matcher.many (Lexeme.choice Visibility.keywords)) ⟨[], area⟩ ()
        ⟨lead.reverse ++ [], className ++ r⟩ ∧
      ∀ implied, Visibility.ofSignature implied lead = Lexeme.visibilityOf implied form.access := by
  rw [lexemes_eq] at spelled
  have other : className ∉ Visibility.keywords := fun member => Declaration.not_mem_keywords isClass
    (Declaration.mem_keywords_of_mem_modifiers (List.mem_append_left _ member))
  obtain ⟨gap, lead, r, shape, blank, some, -, inList,
    ⟨s, gap', rfl, inWords, blank', some'⟩, reads⟩ :=
    Lexeme.exists_lead Lexeme.areDistinct_visibility (parts h).access other
      (isSound_lexemes h isClass)
      (spelled.behind_space (Lexeme.led_ne_nil (by simp)))
  have same : area = s ++ gap' ++ (className ++ r) := by
    obtain ⟨d, gap, rfl⟩ := List.exists_cons_of_ne_nil some
    obtain ⟨-, rfl⟩ := List.cons.inj shape
    have behind : Blank gap := fun c member => blank c (List.mem_cons_of_mem d member)
    obtain rfl := behind.eq_nil_of_front stops.front
    rfl
  refine ⟨s ++ gap', r, same, inList, same ▸ reads [], fun implied => Lexeme.ofSignature_eq ?_⟩
  intro w isVisibility
  refine Lexeme.occursIn_blankDelimited
    (fun w' member => Lexeme.isKeyword_visibility w' ((parts h).access w' member))
    (Lexeme.isKeyword_visibility w isVisibility) Lexeme.isSound_nil (by simp) ?_ blank'
    fun someWords => Or.inr (some' someWords)
  simpa [led, Lexeme.partFirst] using inWords

/-- The area of a constructor is read as the constructor. -/
theorem ofArea?_of_spelled (h : form.isWellFormed = true) (isClass : isIdentifier className = true)
    {area : Text} (spelled : Spelled (form.lexemes className) area) (stops : Stops isBlank area)
    (policy : ExtractionPolicy) (scope : NameScope) :
    Constructor.ofArea? policy scope className area = some (form.declared policy scope) := by
  obtain ⟨lead, r, rfl, inList, readsAccess, visibility⟩ := exists_access h isClass spelled stops
  obtain ⟨gap₁, _, rfl, blank₁, -, inRest⟩ := inList
  obtain ⟨inner, _, rfl, inParameters, gap₂, _, rfl, blank₂, -, inTail⟩ :=
    Lexeme.spelled_append.mp inRest
  obtain ⟨s, _, rfl, inThrows, atEnd⟩ := Lexeme.spelled_append.mp inTail
  obtain ⟨gap₃, rfl, blank₃, -⟩ := Lexeme.spelled_singleton.mp atEnd
  simp only [Lexeme.near_text] at readsAccess ⊢
  obtain ⟨gap₄, r, tail, blank₄, stops₄, -, readsClause⟩ :=
    Lexeme.reads_throwsClause (parts h).thrown inThrows blank₃ (Or.inl rfl)
  have list := ParameterForm.isList_listLexemes (parts h).parameters
  have undivided : Text.Undivided (inner ++ gap₂) :=
    Lexeme.undivided_of_covers list.inner ⟨inner, gap₂, rfl, inParameters, blank₂⟩
  have shape : gap₁ ++ (['('] ++ (inner ++ (gap₂ ++ ([')'] ++ (s ++ (gap₃ ++ ['\x7b'])))))) =
      gap₁ ++ '(' :: ((inner ++ gap₂) ++ ')' :: (gap₄ ++ r)) := by
    simp [tail]
  rw [shape] at readsAccess ⊢
  have found : ∃ found later, Reads (Matcher.constructorShape className)
      ⟨[], lead ++ (className ++ (gap₁ ++ '(' :: ((inner ++ gap₂) ++ ')' :: (gap₄ ++ r))))⟩
        found later ∧
      found.1.text = lead ∧ found.2.text = inner ++ gap₂ := by
    obtain ⟨clause, behind, clauseReads, -⟩ := readsClause (gap₄.reverse ++ ')' ::
      ((inner ++ gap₂).reverse ++
        '(' :: (gap₁.reverse ++ (className.reverse ++ (lead.reverse ++ [])))))
    refine (Reads.of_eq_cons rfl : Reads Matcher.textStart _ () _).exists_bind ?_
    refine readsAccess.stretch.exists_bind ?_
    refine (Reads.of_eq_cons (Matcher.word_append _ _ _)).exists_bind ?_
    refine (Reads.of_eq_cons
      (Matcher.run_append blank₁ (Matcher.stops_cons.mpr (by decide)) _)).exists_bind ?_
    refine (Reads.of_eq_cons (Text.parenthesized_append undivided _ _)).exists_bind ?_
    refine (Reads.of_eq_cons (Matcher.run_append blank₄ stops₄ _)).exists_bind ?_
    refine clauseReads.exists_bind ?_
    refine (Reads.of_eq_cons
      (Matcher.run_of_stops (Matcher.stops_cons.mpr (by decide)) _)).exists_bind ?_
    refine (Reads.of_eq_cons (Matcher.char_self _ _ _)).exists_bind ?_
    refine (Reads.of_eq_cons rfl : Reads Matcher.textEnd _ () _).exists_bind ?_
    exact ⟨_, _, Reads.pure _ _, Matcher.text_mk _ _ _ _, Matcher.text_mk _ _ _ _⟩
  obtain ⟨found, later, reads, access, inside⟩ := found
  have readAll : Parameter.readAll policy scope (inner ++ gap₂) =
      form.parameters.map (ParameterForm.declared policy scope) := by
    apply ParameterForm.readAll_of_spelled policy scope (parts h).parameters
    rw [List.append_assoc]
    exact Lexeme.spelled_append.mpr
      ⟨inner, _, rfl, inParameters, gap₂, [], by simp, blank₂, by simp, rfl⟩
  rw [Constructor.ofArea?, Matcher.read?_of_reads reads]
  simp only [Option.bind_eq_bind, Option.bind_some, access, inside, readAll, visibility]
  rfl

theorem isConstructorArea_of_spelled (h : form.isWellFormed = true)
    (isClass : isIdentifier className = true) {area : Text}
    (spelled : Spelled (form.lexemes className) area) :
    Signature.isConstructorArea className area = true := by
  obtain ⟨s, gap, rest, rfl, -, inHeading, blank, absent, once⟩ :=
    Lexeme.exists_heading (inner_headingLexemes h isClass)
      (ParameterForm.isList_listLexemes (parts h).parameters).inner (parts h).thrown
        (Or.inl rfl) spelled
  have named : Spelled (freeFirst (led form.access ([] ++ [near className]))) s := inHeading
  obtain ⟨x, rfl, before⟩ := Lexeme.exists_last_word (by simp) named
  have keyword := isKeyword_of_isIdentifier isClass
  rw [Lexeme.near_text, List.append_assoc, Lexeme.isConstructorArea_eq before keyword blank
    (fun member => absent (List.mem_append_left _ member)) once keyword]
  exact decide_eq_true rfl

end

end ConstructorForm

namespace MethodForm

open Declaration (isIdentifier)
open Text (Blank)

theorem blankLast_flatten {rounds : List Text}
    (each : ∀ r ∈ rounds, ∃ w gap, r = w ++ gap ∧ w ∈ Visibility.keywords ∧ gap ≠ [] ∧ Blank gap) :
    Lexeme.BlankLast rounds.flatten := by
  rcases List.eq_nil_or_concat rounds with rfl | ⟨rounds, r, rfl⟩
  · exact Or.inl rfl
  · obtain ⟨w, gap, rfl, -, some, blank⟩ := each r (by simp)
    obtain ⟨gap, b, rfl⟩ : ∃ gap' b, gap = gap' ++ [b] :=
      ⟨_, _, (List.dropLast_concat_getLast some).symm⟩
    exact Or.inr ⟨rounds.flatten ++ (w ++ gap), b, by simp, blank b (by simp)⟩

/-- What reads the area as a constructor, reads the name of the class in front
of the parameter list, and a brace behind it. -/
theorem takes_constructorShape (className : Text) :
    Matcher.Takes (Matcher.constructorShape className) fun s => ∃ x gap rest,
      s = x ++ (className ++ (gap ++ '(' :: rest)) ∧ Lexeme.BlankLast x ∧ Blank gap ∧
      '\x7b' ∈ rest := by
  have round := (Matcher.takes_anyOf Visibility.keywords).bind fun _ =>
    Matcher.takes_run1 Character.isBlank
  have clause := ((Matcher.takes_word "throws".toList).bind fun _ =>
    (Matcher.takes_one Character.isBlank).bind fun _ =>
      Matcher.takes_run1 Matcher.isThrowsPart).stretch
  apply ((Matcher.takes_require _).bind fun _ => round.many.stretch.bind fun _ =>
    (Matcher.takes_word className).bind fun _ => (Matcher.takes_run Character.isBlank).bind fun _ =>
    Text.takes_parenthesized.bind fun _ => (Matcher.takes_run Character.isBlank).bind fun _ =>
    clause.optional.bind fun _ => (Matcher.takes_run Character.isBlank).bind fun _ =>
    (Matcher.takes_char '\x7b').bind fun _ => (Matcher.takes_require _).bind fun _ =>
    Matcher.takes_pure _).mono
  rintro _ ⟨_, _, rfl, rfl, _, _, rfl, ⟨rounds, rfl, each⟩, _, _, rfl, rfl, gap, _, rfl,
    blank, _, _, rfl, ⟨inner, rfl, -⟩, g, _, rfl, -, c, _, rfl, -, g', _, rfl, -, _, u, rfl, rfl, -⟩
  exact ⟨rounds.flatten, gap, inner ++ ')' :: (g ++ (c ++ (g' ++ '\x7b' :: u))), by simp,
    blankLast_flatten each, blank, by simp⟩

/-- An area with another word in front of its parameter list is no constructor. -/
theorem ofArea?_of_other {x w gap rest className : Text} (before : Lexeme.BlankLast x)
    (keyword : Lexeme.IsKeyword w) (blank : Blank gap) (absent : '(' ∉ x) (once : '(' ∉ rest)
    (isClass : Lexeme.IsKeyword className) (other : w ≠ className) (policy : ExtractionPolicy)
    (scope : NameScope) :
    Constructor.ofArea? policy scope className (x ++ (w ++ (gap ++ '(' :: rest))) = none := by
  have none : Matcher.constructorShape className ⟨[], x ++ (w ++ (gap ++ '(' :: rest))⟩ = [] := by
    apply (takes_constructorShape className).eq_nil
    rintro _ t same ⟨x', gap', rest', rfl, before', blank', -⟩
    have cut : x ++ (w ++ (gap ++ '(' :: rest)) =
        x' ++ (className ++ (gap' ++ '(' :: (rest' ++ t))) := by simpa using same
    exact other (Lexeme.eq_className before keyword blank absent once isClass before' blank' cut)
  rw [Constructor.ofArea?, Matcher.read?, Place.start, none]
  rfl

/-- A method that is not named like the class is no constructor. -/
theorem not_constructor {form : MethodForm} (h : form.isWellFormed = true) {className : Text}
    (isClass : Lexeme.IsKeyword className) (other : form.name ≠ className) {area : Text}
    (spelled : Spelled form.lexemes area) :
    Signature.isConstructorArea className area = false ∧
      ∀ policy scope, Constructor.ofArea? policy scope className area = none := by
  obtain ⟨s, gap, rest, rfl, -, inHeading, blank, absent, once⟩ := exists_heading h spelled
  have named :
      Spelled (freeFirst (led form.modifiers ((TypeVariable.listLexemes form.typeVariables ++
      form.resultType.lexemes) ++ [behindBlank form.name]))) s := by
    rw [List.append_assoc]
    exact inHeading
  obtain ⟨x, rfl, before⟩ := Lexeme.exists_last_word (fun _ => rfl) named
  have keyword := ConstructorForm.isKeyword_of_isIdentifier (parts h).name
  have absentX : '(' ∉ x := fun member => absent (List.mem_append_left _ member)
  rw [Lexeme.behindBlank_text, List.append_assoc]
  constructor
  · rw [Lexeme.isConstructorArea_eq before keyword blank absentX once isClass]
    exact decide_eq_false other
  · exact ofArea?_of_other before keyword blank absentX once isClass other

end MethodForm
end Testwright
