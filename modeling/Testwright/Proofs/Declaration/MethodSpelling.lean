import Testwright.Proofs.Declaration.AreaSpelling
import Testwright.Source.MethodReader

namespace Testwright

/-!
# Spellings of methods

A method is declared by modifiers, type variables, a result, a name, parameters
and thrown types.  Its area, the keywords of visibility and some of the words
`final` taken out, is a spelling of the same declaration with fewer modifiers
(`exists_bare`).  So one reading of the signature shape serves all of them, and
what is read does not depend on the order of the modifiers or on the layout.
-/

open Lexeme (Spelled behindBlank freeFirst led listedLexemes near)

/-- The declaration of a method. -/
structure MethodForm where
  modifiers : List Text
  typeVariables : List TypeVariable
  /-- A method without a result is `void`. -/
  result : Option TypeTree
  name : Text
  parameters : List ParameterForm
  /-- The names of the thrown types. -/
  thrown : List Text
  /-- The text between the braces, if the method has a body. -/
  body : Option Text

namespace MethodForm

open Character (isBlank isDottedPart isNamePart)
open Declaration (isDottedName isIdentifier)
open Lexeme (Erased IsKeyword IsList IsPlain IsSound)
open Matcher (Reads Stops)
open Text (Blank)

/-! ## The lexemes of a declaration -/

/-- What stands for the result in front of the name. -/
def resultType (form : MethodForm) : TypeTree :=
  form.result.getD Lexeme.voidType

/-- The last character of the declaration. -/
def last (form : MethodForm) : Char :=
  if form.body.isSome then '\x7b' else ';'

/-- The lexemes between the modifiers and the parameter list. -/
def namedLexemes (form : MethodForm) : List Lexeme :=
  TypeVariable.listLexemes form.typeVariables ++
    (form.resultType.lexemes ++ [behindBlank form.name])

/-- The lexemes of the declaration up to the semicolon or the opening brace. -/
def lexemes (form : MethodForm) : List Lexeme :=
  listedLexemes (freeFirst (led form.modifiers form.namedLexemes))
    (ParameterForm.listLexemes form.parameters) form.thrown form.last

/-- Whether the declaration has at most one keyword of visibility and its names
are names. -/
def isWellFormed (form : MethodForm) : Bool :=
  form.modifiers.all Declaration.modifiers.contains &&
    (form.modifiers.filter Visibility.keywords.contains).length ≤ 1 &&
    form.typeVariables.all TypeVariable.isWellFormed && form.result.all TypeTree.isDeclared &&
    isIdentifier form.name && form.parameters.all ParameterForm.isWellFormed &&
    form.thrown.all isDottedName

/-- The method that a reader of the source in the scope makes of the
declaration. -/
def declared (library : PatternLibrary) (policy : ExtractionPolicy) (scope : NameScope)
    (source : Text) (form : MethodForm) : Method :=
  let parameters := form.parameters.map (ParameterForm.declared policy scope)
  let method : Method := {
    name := form.name
    visibility := Lexeme.visibilityOf policy.implicitVisibility form.modifiers
    isStatic := form.modifiers.contains "static".toList
    returnType := form.result.map (TypeTree.resolved policy scope)
    parameterNames := parameters.map Parameter.name
    parameterTypes := parameters.map Parameter.type
    throws := form.thrown.map ThrownType.named
    isAccessor := false }
  { method with isAccessor := method.isBacked library source }

section

variable {form : MethodForm}

theorem last_eq (form : MethodForm) : form.last = '\x7b' ∨ form.last = ';' := by
  unfold last
  split
  · exact Or.inl rfl
  · exact Or.inr rfl

/-- What a well-formed declaration is made of. -/
structure Parts (form : MethodForm) : Prop where
  modifiers : ∀ w ∈ form.modifiers, w ∈ Declaration.modifiers
  single : (form.modifiers.filter Visibility.keywords.contains).length ≤ 1
  typeVariables : ∀ v ∈ form.typeVariables, v.isWellFormed = true
  result : ∀ type, form.result = some type → type.isDeclared = true
  name : isIdentifier form.name = true
  parameters : ∀ parameter ∈ form.parameters, parameter.isWellFormed = true
  thrown : ∀ name ∈ form.thrown, isDottedName name = true

theorem parts (h : form.isWellFormed = true) : Parts form := by
  simp only [isWellFormed, Bool.and_eq_true, List.all_eq_true, List.contains_iff_mem,
    decide_eq_true_eq, Option.all_eq_true] at h
  obtain ⟨⟨⟨⟨⟨⟨modifiers, single⟩, typeVariables⟩, result⟩, name⟩, parameters⟩, thrown⟩ := h
  exact ⟨modifiers, single, typeVariables, result, name, parameters, thrown⟩

/-! ## The declaration without visibility -/

/-- The lexemes behind the modifiers, with other parameters in the list. -/
def restLexemes (form : MethodForm) (parameters : List ParameterForm) : List Lexeme :=
  TypeVariable.listLexemes form.typeVariables ++ Lexeme.declaratorLexemes form.resultType form.name
    (ParameterForm.listLexemes parameters) form.thrown form.last

theorem isResult (h : form.isWellFormed = true) : Lexeme.IsResult form.resultType := by
  unfold resultType
  cases found : form.result with
  | none => exact Or.inr rfl
  | some type => exact Or.inl ((parts h).result type found)

theorem isKeyword_modifiers {w : Text} (member : w ∈ Declaration.modifiers) : IsKeyword w := by
  have keywords : ∀ w ∈ Declaration.modifiers, IsKeyword w := by decide
  exact keywords w member

theorem isSound_restLexemes (h : form.isWellFormed = true) {parameters : List ParameterForm}
    (wellFormed : ∀ parameter ∈ parameters, parameter.isWellFormed = true) :
    IsSound (form.restLexemes parameters) :=
  Lexeme.isSound_signature (parts h).typeVariables (Lexeme.isSound_declaratorLexemes (isResult h)
    (Declaration.isIdentifier_ne_nil (parts h).name)
    (Declaration.isNamePart_of_isIdentifier (parts h).name)
    (ParameterForm.isList_listLexemes wellFormed) (parts h).thrown form.last_eq)

/-- The lexemes up to the opening parenthesis. -/
def frontLexemes (form : MethodForm) : List Lexeme :=
  form.namedLexemes ++ [near ['(']]

/-- The lexemes from the closing parenthesis on. -/
def backLexemes (form : MethodForm) : List Lexeme :=
  near [')'] :: (Lexeme.throwsLexemes form.thrown ++ [near [form.last]])

theorem restLexemes_eq (form : MethodForm) (parameters : List ParameterForm) :
    form.restLexemes parameters =
      form.frontLexemes ++ (ParameterForm.listLexemes parameters ++ form.backLexemes) := by
  simp [restLexemes, frontLexemes, backLexemes, namedLexemes, Lexeme.declaratorLexemes]

theorem namedLexemes_ne_nil (form : MethodForm) : form.namedLexemes ≠ [] := by
  simp [namedLexemes]

theorem frontLexemes_ne_nil (form : MethodForm) : form.frontLexemes ≠ [] := by
  simp [frontLexemes]

theorem lexemes_eq (form : MethodForm) :
    form.lexemes = freeFirst (led form.modifiers (form.restLexemes form.parameters)) := by
  rw [restLexemes_eq, Lexeme.led_append_right _ (frontLexemes_ne_nil form), frontLexemes,
    Lexeme.led_append_right _ (namedLexemes_ne_nil form), List.append_assoc,
    Lexeme.freeFirst_append (Lexeme.led_ne_nil (namedLexemes_ne_nil form))]
  simp [lexemes, listedLexemes, backLexemes]

theorem plain_result (h : form.isWellFormed = true) : ∀ l ∈ form.resultType.lexemes, IsPlain l := by
  rcases isResult h with declared | void
  · exact (TypeTree.plain_lexemes _ (TypeTree.isSpellable_of_isDeclared declared)).1
  · rw [void]
    intro l member
    rw [List.mem_singleton.mp (show l ∈ [near "void".toList] from member)]
    exact ⟨Or.inl ⟨by decide, by decide⟩, by decide⟩

theorem plain_namedLexemes (h : form.isWellFormed = true) : ∀ l ∈ form.namedLexemes, IsPlain l := by
  simp only [namedLexemes, List.forall_mem_append]
  refine ⟨TypeVariable.plain_listLexemes (parts h).typeVariables, plain_result h,
    fun l member => ?_⟩
  rw [List.mem_singleton.mp member]
  exact Lexeme.isPlain_of_isIdentifier (parts h).name

theorem not_modifier_front (h : form.isWellFormed = true) :
    ∀ l ∈ form.frontLexemes, l.text ∉ Declaration.modifiers := by
  refine List.forall_mem_append.mpr ⟨fun l member => (plain_namedLexemes h l member).2, ?_⟩
  simp only [List.mem_singleton, forall_eq]
  decide

theorem not_modifier_back (h : form.isWellFormed = true) :
    ∀ l ∈ form.backLexemes, l.text ∉ Declaration.modifiers := by
  have final : [form.last] ∉ Declaration.modifiers := by
    rcases form.last_eq with same | same
    · rw [same]
      decide
    · rw [same]
      decide
  simp only [backLexemes, List.forall_mem_cons, List.forall_mem_append, Lexeme.near_text]
  exact ⟨by decide, fun l member => (Lexeme.plain_throwsLexemes (parts h).thrown l member).2, final,
    by simp⟩

theorem mem_qualifiers_of_mem_unseen (h : form.isWellFormed = true) {w : Text}
    (member : w ∈ Lexeme.unseen form.modifiers) : w ∈ Matcher.qualifiers := by
  obtain ⟨inModifiers, unseen⟩ := List.mem_filter.mp member
  refine (List.mem_append.mp ((parts h).modifiers w inModifiers)).resolve_left fun shown => ?_
  simp [shown] at unseen

theorem exists_words_of_erased {w : Text} {words : List Text} {rest : List Lexeme}
    (erased : Erased w (words.map behindBlank) rest) :
    ∃ words' : List Text, rest = words'.map behindBlank ∧ ∀ x ∈ words', x ∈ words := by
  induction words generalizing rest with
  | nil =>
      cases erased
      exact ⟨[], rfl, by simp⟩
  | cons x words ih =>
      cases erased with
      | keep _ h =>
          obtain ⟨words', rfl, subset⟩ := ih h
          exact ⟨x :: words', rfl, by
            simpa using fun y member => Or.inr (subset y member)⟩
      | drop _ h =>
          obtain ⟨words', rfl, subset⟩ := ih h
          exact ⟨words', rfl, fun y member => List.mem_cons_of_mem x (subset y member)⟩

/-- The keywords of visibility and some of the words `final` taken out, an area
is a spelling with fewer words in front. -/
theorem exists_bare (h : form.isWellFormed = true) {area : Text}
    (spelled : Spelled form.lexemes area) :
    ∃ (words : List Text) (parameters : List ParameterForm),
      (∀ w ∈ words, w ∈ Matcher.qualifiers) ∧
      (∀ parameter ∈ parameters, parameter.isWellFormed = true) ∧
      (∀ policy scope, parameters.map (ParameterForm.declared policy scope) =
        form.parameters.map (ParameterForm.declared policy scope)) ∧
      Spelled (led words (form.restLexemes parameters)) (Signature.bareArea area) := by
  have sound := isSound_restLexemes h (parts h).parameters
  have some : form.restLexemes form.parameters ≠ [] := by simp [restLexemes_eq, frontLexemes]
  have keywords : ∀ w ∈ form.modifiers, IsKeyword w := fun w member =>
    isKeyword_modifiers ((parts h).modifiers w member)
  have free : ∀ l ∈ form.restLexemes form.parameters, l.text ∉ Visibility.keywords := by
    have shown : ∀ {w : Text}, w ∉ Declaration.modifiers →
        w ∉ Visibility.keywords := fun other member =>
      other (List.mem_append_left _ member)
    rw [restLexemes_eq]
    refine List.forall_mem_append.mpr ⟨fun l member => shown (not_modifier_front h l member),
      List.forall_mem_append.mpr ⟨fun l member => ?_,
        fun l member => shown (not_modifier_back h l member)⟩⟩
    rcases ParameterForm.plain_or_final_of_mem (parts h).parameters l member with plain | same
    · exact shown plain.2
    · rw [same]
      decide
  rw [lexemes_eq] at spelled
  have unseen :=
    Lexeme.replaceAll_visibilityWord_led keywords sound some free (parts h).single spelled
  have soundLed : IsSound (led (Lexeme.unseen form.modifiers) (form.restLexemes form.parameters)) :=
    Lexeme.isSound_led (fun w member => keywords w (List.mem_of_mem_filter member)) sound
  obtain ⟨rest, erased, inRest, -, -, someRest⟩ := Lexeme.exists_erased soundLed [] unseen
  have inBare := inRest.behind_space (someRest (Lexeme.led_ne_nil some))
  -- Only modifiers and parameters lose words.
  have noFinal : ∀ {w : Text}, w ∉ Declaration.modifiers → w ≠ "final".toList := by
    rintro w other rfl
    exact other (by decide)
  rw [restLexemes_eq, Lexeme.led_append_right _ (frontLexemes_ne_nil form)] at erased
  obtain ⟨_, _, rfl, inLed, inBehind⟩ := erased.append_inv
  obtain ⟨_, front, rfl, inWords, inFront⟩ := Erased.append_inv inLed
  obtain ⟨words, rfl, subset⟩ := exists_words_of_erased inWords
  obtain ⟨list, back, rfl, inList, inBack⟩ := inBehind.append_inv
  have frontFree : ∀ l ∈ Lexeme.partFirst form.frontLexemes, l.text ≠ "final".toList := by
    have texts : ∀ x ∈ (Lexeme.partFirst form.frontLexemes).map Lexeme.text,
        x ≠ "final".toList := by
      rw [Lexeme.map_text_partFirst]
      intro x member
      obtain ⟨l, inFront, rfl⟩ := List.mem_map.mp member
      exact noFinal (not_modifier_front h l inFront)
    exact fun l member => texts l.text (List.mem_map_of_mem member)
  rw [inFront.eq_of_free frontFree,
    inBack.eq_of_free fun l member => noFinal (not_modifier_back h l member)] at inBare
  obtain ⟨parameters, wellFormed, same, -, spells⟩ :=
    ParameterForm.exists_forms_of_erased (parts h).parameters inList
  refine ⟨words, parameters, fun w member => mem_qualifiers_of_mem_unseen h (subset w member),
    wellFormed, same, ?_⟩
  obtain ⟨a, b, shape, inLed', inBehind'⟩ := Lexeme.spelled_append.mp inBare
  rw [restLexemes_eq, Lexeme.led_append_right _ (frontLexemes_ne_nil form)]
  exact Lexeme.spelled_append.mpr ⟨a, b, shape, inLed', spells inBehind'⟩

end

end MethodForm
end Testwright
