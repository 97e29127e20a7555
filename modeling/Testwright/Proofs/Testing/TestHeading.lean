import Testwright.Proofs.Declaration.ConstructorSpelling
import Testwright.Proofs.Testing.Rendered

namespace Testwright
namespace TestPlan

/-!
# The heading of a test method, read

The heading of a generated test method is a declaration whatever its name is, short of
the words that no method has for a name; even a keyword such as `public` may stand
there, because no blank follows it.  So the heading is read as a public method without
result and parameters that throws `Exception`, and it is no constructor.
-/

open Character (isBlank isNamePart)
open Lexeme (IsKeyword IsMark IsSound IsWord Seeks Spelled behindBlank near)
open Matcher (Silent Stops)
open Text (Blank)

/-- The heading of a test method from its visibility to its brace. -/
def heading (name : Text) : Text :=
  "public".toList ++ headingOf name

/-- What stands behind the visibility. -/
def unmodified (name : Text) : Text :=
  "void".toList ++ ([' '] ++ name) ++ "() throws Exception \x7b".toList

theorem heading_eq (name : Text) : heading name = "public".toList ++ [' '] ++ unmodified name := by
  simp [heading, headingOf, unmodified]

/-- What reading a test method of the name gives. -/
def testMethod (name : Text) : Method :=
  { Method.named name with throws := [ThrownType.named "Exception".toList] }

/-- The lexemes behind the name. -/
def closingLexemes : List Lexeme :=
  [near ['('], near [')'], near "throws".toList, behindBlank "Exception".toList, near ['\x7b']]

theorem spelled_closingLexemes : Spelled closingLexemes "() throws Exception \x7b".toList :=
  ⟨[], _, rfl, Text.blank_nil, by decide, [], _, rfl, Text.blank_nil, by decide,
    [' '], _, rfl, by decide, by decide, [' '], _, rfl, by decide, by decide,
    [' '], _, rfl, by decide, by decide, rfl⟩

theorem isSound_closingLexemes : IsSound closingLexemes where
  kinds := by
    have word : ∀ {l : Lexeme}, l.text ∈ ["throws".toList, "Exception".toList] →
        IsWord l := fun {l} member =>
      (by decide : ∀ t ∈ ["throws".toList, "Exception".toList],
        t ≠ [] ∧ ∀ c ∈ t, Character.isDottedPart c = true) l.text member
    have mark : ∀ {l : Lexeme}, l.text ∈ [['('], [')'], ['\x7b']] → IsMark l := fun {l} member =>
      (by decide : ∀ t ∈ [['('], [')'], ['\x7b']],
        t ≠ [] ∧ ∀ c ∈ t, isNamePart c = false ∧ isBlank c = false) l.text member
    simp only [closingLexemes, List.forall_mem_cons]
    exact ⟨Or.inr (mark (by decide)), Or.inr (mark (by decide)), Or.inl (word (by decide)),
      Or.inl (word (by decide)), Or.inr (mark (by decide)), by simp⟩
  chain := by
    have mark : IsMark (near [')']) := ⟨by decide, by decide⟩
    have brace : IsMark (near ['\x7b']) := ⟨by decide, by decide⟩
    exact List.isChain_cons_cons.mpr ⟨Or.inr (Or.inr mark),
      List.isChain_cons_cons.mpr ⟨Or.inr (Or.inl mark),
      List.isChain_cons_cons.mpr ⟨Or.inl rfl, List.isChain_pair.mpr (Or.inr (Or.inr brace))⟩⟩⟩

section

variable {name : Text} (keyword : IsKeyword name)
include keyword

/-! ## Searches for keywords -/

section Search

variable {m : Matcher Unit} {words : List Text} (seeks : Seeks m words)
  (keywords : ∀ w ∈ words, IsKeyword w)
include seeks keywords

/-- A search for keywords passes over the result and the name of a test method, and
finds nothing that is not there. -/
theorem silent_result (other : "void".toList ∉ words) {gap : Text} (blank : Blank gap) {t : Text}
    (ends : Stops isNamePart t) (close : Stops isBlank t) (behind : Text) :
    Silent m behind (gap ++ "void".toList ++ ([' '] ++ name)) t := by
  have result : IsWord (near "void".toList) := ⟨by decide, by decide⟩
  have word : IsWord (behindBlank name) := Lexeme.isWord_of_isKeyword keyword
  have first : Silent m behind (gap ++ (near "void".toList).text) ([' '] ++ name ++ t) :=
    Lexeme.silent_lexeme seeks keywords (Or.inl result) other blank
      (Or.inr (Matcher.stops_cons.mpr (by decide)))
      behind
  have second : Silent m ((gap ++ "void".toList).reverse ++ behind)
      ([' '] ++ (behindBlank name).text) t :=
    Lexeme.silent_unparted seeks keywords (Or.inl word) (by decide) (Or.inr ends) close _
  exact Matcher.silent_append.mpr ⟨first, second⟩

theorem silent_unmodified
    (others : ∀ t ∈ ["void".toList, ['('], [')'], "throws".toList, "Exception".toList, ['\x7b']],
      t ∉ words)
    {gap : Text} (blank : Blank gap) (behind : Text) :
    Silent m behind (gap ++ unmodified name) [] := by
  have free : ∀ l ∈ closingLexemes, l.text ∉ words := by
    intro l member
    refine others l.text ?_
    have inside : ∀ l ∈ closingLexemes.map Lexeme.text,
        l ∈ ["void".toList, ['('], [')'], "throws".toList,
        "Exception".toList, ['\x7b']] := by decide
    exact inside l.text (List.mem_map_of_mem member)
  rw [unmodified, ← List.append_assoc, ← List.append_assoc]
  refine Matcher.silent_append.mpr ⟨?_, ?_⟩
  · exact silent_result keyword seeks keywords (others _ (by decide)) blank
      (Matcher.stops_cons.mpr (by decide))
      (Matcher.stops_cons.mpr (by decide)) behind
  · exact Lexeme.silent_of_free seeks keywords isSound_closingLexemes free spelled_closingLexemes
      Lexeme.final_nil _

end Search

/-- Without its visibility, the heading of a test method has a space in its place. -/
theorem bareArea_heading : Signature.bareArea (heading name) = [' ', ' '] ++ unmodified name := by
  have visibility : Matcher.visibilityWord.replaceAll [' '] (heading name) =
      [' '] ++ unmodified name := by
    have silent :=
      silent_unmodified keyword Lexeme.seeks_visibilityWord Lexeme.isKeyword_visibility (by decide)
      Text.blank_nil ("public ".toList.reverse ++ [])
    have reads :
        Matcher.Reads Matcher.visibilityWord ⟨[], "public".toList ++ [' '] ++ unmodified name⟩ ()
        ⟨("public".toList ++ [' ']).reverse ++ [], unmodified name⟩ :=
      Lexeme.reads_visibilityWord_start (by decide) (by decide) (by decide)
        (Matcher.stops_cons.mpr (by decide))
    rw [Matcher.replaceAll, heading_eq, Matcher.replaceAllFrom_of_reads (by simp) reads]
    exact congrArg _ (Matcher.replaceAllFrom_of_silent silent)
  have final : Matcher.finalWord.replaceAll [' '] ([' '] ++ unmodified name) =
      [' '] ++ unmodified name :=
    Matcher.replaceAllFrom_of_silent
      (silent_unmodified keyword Lexeme.seeks_finalWord Lexeme.isKeyword_final
      (by decide) (by decide) [])
  rw [Signature.bareArea, visibility, final]
  rfl

/-! ## The signature -/

omit keyword in
/-- The result, the name, the empty list and the thrown type of a test method. -/
theorem spelled_bare : Spelled (Lexeme.led [] (TypeVariable.listLexemes [] ++
    Lexeme.declaratorLexemes Lexeme.voidType name [] ["Exception".toList] '\x7b'))
      ([' ', ' '] ++ unmodified name) := by
  have parted : [' ', ' '] ++ unmodified name =
      [' ', ' '] ++ ("void".toList ++ ([' '] ++ (name ++ "() throws Exception \x7b".toList))) := by
    simp only [unmodified, List.append_assoc]
  rw [parted]
  exact ⟨[' ', ' '], _, rfl, by decide, fun _ => List.cons_ne_nil _ _, [' '], _, rfl, by decide,
    fun _ => List.cons_ne_nil _ _, spelled_closingLexemes⟩

theorem exists_signature (other : name ∉ Signature.reserved) :
    ∃ signature, Signature.ofArea? (heading name) = some signature ∧ signature.area = heading name ∧
      signature.name = name ∧
      (∀ policy scope, TypeTree.read? policy scope signature.returnType = none) ∧
      (∀ policy scope, Parameter.readAll policy scope signature.parameters = []) ∧
      (signature.throwsClause.map Method.thrownTypes).getD [] =
        [ThrownType.named "Exception".toList] := by
  have result : Lexeme.IsResult Lexeme.voidType := Or.inr rfl
  have dotted : ∀ thrown ∈ ["Exception".toList], Declaration.isDottedName thrown = true := by decide
  rcases Lexeme.reads_signatureShape (List.forall_mem_nil _) (List.forall_mem_nil _) result
    (by decide) keyword.1
    keyword.2 ⟨List.forall_mem_nil _, List.isChain_nil⟩ dotted
      (Or.inl rfl) spelled_bare with ⟨found, later, reads, isSignature⟩
  rcases Lexeme.baseName_of_spelled result isSignature.result isSignature.front with ⟨trimmed, base⟩
  have inside : Text.trim found.parameters.text = [] := by
    rcases Lexeme.spelled_singleton.mp isSignature.inside with ⟨gap, whole, blank, -⟩
    rw [List.append_cancel_right whole]
    exact Text.trim_of_blank blank
  refine ⟨⟨heading name, found.returnType.text, name, [], found.throwsClause.map fun clause =>
    Text.trim clause.text⟩, ?_, rfl, rfl, fun policy scope => ?_, fun policy scope => ?_, ?_⟩
  · have void : Lexeme.voidType.name ∉ Signature.reserved := by decide
    rw [Signature.ofArea?, bareArea_heading keyword, Matcher.read?_of_reads reads]
    simp [trimmed, base, other, inside, void, isSignature.name_eq]
  · have declared : ∀ type, (none : Option TypeTree) = some type → type.isDeclared = true := by simp
    exact Lexeme.read?_of_result declared isSignature.result isSignature.front
  · exact ParameterForm.readAll_of_blank policy scope Text.blank_nil
  · have clause := Lexeme.thrownTypes_of_clause dotted isSignature.clause
    simpa [Option.map_map, Function.comp_def] using clause

/-! ## The method -/

omit keyword in
/-- A method without result and parameters implies no field. -/
theorem isBacked_testMethod (library : PatternLibrary) (source : Text) :
    (testMethod name).isBacked library source = false := by
  have none : (testMethod name).impliedField? = none := by
    unfold Method.impliedField?
    split
    · rfl
    · split <;> rfl
  rw [Method.isBacked, none]

/-- In front of the parentheses of a test method stands the word `public`, and no
`static`, not even as the name. -/
theorem occursIn_heading :
    (Matcher.blankDelimited "public".toList).occursIn (Text.before '(' (heading name)) = true ∧
    (Matcher.blankDelimited "static".toList).occursIn (Text.before '(' (heading name)) = false := by
  have absent : '(' ∉ name := fun member => absurd (keyword.2 _ member) (by decide)
  have front : Text.before '(' (heading name) =
      "public".toList ++ ([' '] ++ "void".toList ++ ([' '] ++ name)) := by
    have passed : ∀ d ∈ "public void ".toList ++ name, (!(d == '(')) = true := by
      refine List.forall_mem_append.mpr ⟨by decide, fun d member => ?_⟩
      have other : d ≠ '(' := fun same => absent (same ▸ member)
      simpa using other
    have shape : heading name =
        "public void ".toList ++ name ++ "() throws Exception \x7b".toList := by
      simp [heading, headingOf]
    have ends : "() throws Exception \x7b".toList.takeWhile (fun c => !(c == '(')) = [] := rfl
    rw [Text.before, shape, List.takeWhile_append_of_pos passed, ends, List.append_nil]
    simp
  rw [front]
  constructor
  · exact Lexeme.occursIn_blankDelimited_append (x := []) (c := ' ') (Or.inl rfl) (by decide)
  · have isStatic : ∀ w ∈ ["static".toList], IsKeyword w := by decide
    have visibility : IsWord (near "public".toList) := ⟨by decide, by decide⟩
    have first : Silent (Matcher.blankDelimited "static".toList) []
        ([] ++ (near "public".toList).text)
        ([' '] ++ "void".toList ++ ([' '] ++ name) ++ []) :=
      Lexeme.silent_lexeme (Lexeme.seeks_blankDelimited _) isStatic (Or.inl visibility)
        (by decide) Text.blank_nil
        (Or.inr (Matcher.stops_cons.mpr (by decide))) []
    have second : Silent (Matcher.blankDelimited "static".toList) ("public".toList.reverse ++ [])
        ([' '] ++ "void".toList ++ ([' '] ++ name)) [] :=
      silent_result keyword (Lexeme.seeks_blankDelimited "static".toList) isStatic
        (by decide) (by decide)
        (Matcher.stops_nil _) (Matcher.stops_nil _) _
    have silent := Matcher.silent_append.mpr ⟨first, second⟩
    rw [Matcher.occursIn, Matcher.find?]
    exact congrArg Option.isSome (Matcher.findFrom_eq_none silent
      (Lexeme.not_reads_at_end (Lexeme.seeks_blankDelimited "static".toList) isStatic _))

/-- The heading of a test method is read as that method, whatever the rest of the source
is. -/
theorem ofSignature_heading (other : name ∉ Signature.reserved) (library : PatternLibrary)
    (policy : ExtractionPolicy) (scope : NameScope) (source : Text) :
    (Signature.ofArea? (heading name)).map (Method.ofSignature library policy scope source) =
      some (testMethod name) := by
  rcases exists_signature keyword other with
    ⟨signature, found, area, named, result, parameters, thrown⟩
  rcases occursIn_heading keyword with ⟨isPublic, notStatic⟩
  have visibility :
      Visibility.ofSignature policy.implicitVisibility (Text.before '(' (heading name)) =
      .publicAccess := if_pos isPublic
  have method : Method.ofSignature library policy scope source signature =
      { testMethod name with isAccessor := (testMethod name).isBacked library source } := by
    unfold Method.ofSignature Signature.heading
    rw [area, named, result, parameters, thrown, visibility, notStatic]
    rfl
  rw [found, Option.map_some, method, isBacked_testMethod]
  rfl

theorem areas_heading {gap : Text} (blank : Blank gap) :
    Text.areas (gap ++ heading name) = [heading name] := by
  have shape : heading name =
      "public void ".toList ++ name ++ '(' :: ([] ++ ')' :: (" throws Exception ".toList ++
      ['\x7b'])) := by
    simp [heading, headingOf]
  have inner : Lexeme.IsInner (near name) := Or.inl (Lexeme.isWord_of_isKeyword keyword)
  have inside : Text.Undivided ("public void ".toList ++ name) :=
    List.forall_mem_append.mpr ⟨by decide, inner.undivided⟩
  have front : ∀ d, ("public void ".toList ++ name ++ ['(']).head? = some d →
      isBlank d = false := by
    intro d head
    rw [← Option.some.inj head]
    decide
  have line : Text.onOneLine (heading name) = heading name := by
    apply Text.onOneLine_of_unbroken
    rw [shape]
    refine List.forall_mem_append.mpr
      ⟨List.forall_mem_append.mpr ⟨by decide, fun c member => ?_⟩, by decide⟩
    constructor <;> rintro rfl <;> exact absurd (keyword.2 _ member) (by decide)
  have declared := Text.areas_declaration blank front inside (List.forall_mem_nil _)
    (show Text.Undivided " throws Exception ".toList by decide) (Or.inl rfl)
  rwa [← shape, line] at declared

/-- The heading of a test method is a constructor of no class but one of its own name. -/
theorem not_constructor_heading {className : Text} (isClass : IsKeyword className)
    (other : name ≠ className) :
    Signature.isConstructorArea className (heading name) = false ∧
      ∀ policy scope, Constructor.ofArea? policy scope className (heading name) = none := by
  have shape : heading name =
      "public void ".toList ++ (name ++ ([] ++ '(' :: ") throws Exception \x7b".toList)) := by
    simp [heading, headingOf]
  have before : Lexeme.BlankLast "public void ".toList :=
    Or.inr ⟨"public void".toList, ' ', rfl, by decide⟩
  rw [shape]
  constructor
  · rw [Lexeme.isConstructorArea_eq before keyword Text.blank_nil (by decide) (by decide) isClass]
    exact decide_eq_false other
  · exact MethodForm.ofArea?_of_other before keyword Text.blank_nil (by decide)
      (by decide) isClass other

end

end TestPlan
end Testwright
