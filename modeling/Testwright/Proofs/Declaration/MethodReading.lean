import Testwright.Proofs.Declaration.MethodSpelling

namespace Testwright

/-!
# Methods read from their areas

The area of a declaration gives its signature, and the signature gives the
method that was declared: the result and the parameter types resolved in the
scope, the visibility and `static` as the modifiers show them, the thrown types
in order.  None of this depends on the layout.
-/

open Lexeme (Spelled behindBlank commaLexemes freeFirst led near)

/-! ## Thrown types -/

namespace Lexeme

open Character (isBlank)
open Declaration (isDottedName)
open Matcher (Stops)
open Text (Blank)

theorem trim_of_stops {lexemes : List Lexeme} {t gap : Text} (spelled : Spelled lexemes t)
    (visible : ∀ l ∈ lexemes, l.IsVisible) (stops : Stops isBlank (t ++ gap)) (blank : Blank gap) :
    Text.trim (t ++ gap) = t := by
  cases t with
  | nil => exact Text.trim_of_blank blank
  | cons c t =>
      have trimmed : Text.IsTrimmed (c :: t) := by
        refine ⟨fun d head => ?_, spelled.back visible⟩
        rw [← Option.some.inj head]
        exact stops
      simpa using Text.trim_surround Text.blank_nil blank trimmed

theorem not_mem_comma {name : Text} (h : isDottedName name = true) : ',' ∉ name := fun member =>
  absurd (Declaration.isDottedPart_of_isDottedName h ',' member) (by decide)

/-- The pieces of a list of names, trimmed, are the names. -/
theorem map_trim_of_covers {names pieces : List Text}
    (h : ∀ name ∈ names, isDottedName name = true)
    (covers : List.Forall₂ (fun name piece => Covers [near name] piece) names pieces) :
    pieces.map Text.trim = names ∧ ∀ piece ∈ pieces, ',' ∉ piece := by
  induction covers with
  | nil => exact ⟨rfl, by simp⟩
  | @cons name piece names pieces first _ ih =>
      obtain ⟨trimmed, absent⟩ := ih fun w member => h w (List.mem_cons_of_mem name member)
      have dotted := h name List.mem_cons_self
      obtain ⟨_, gap, rfl, single, blank⟩ := first
      obtain ⟨gap', rfl, blank', -⟩ := spelled_singleton.mp single
      have surround := Text.trim_surround blank' blank
        (Text.isTrimmed_of_visible (Declaration.visible_of_isDottedName dotted))
      constructor
      · rw [List.map_cons, trimmed, List.append_assoc, near_text, surround]
      · refine List.forall_mem_cons.mpr ⟨?_, absent⟩
        simp only [near_text, List.mem_append, not_or]
        exact ⟨⟨fun h => absurd (blank' _ h) (by decide), not_mem_comma dotted⟩,
          fun h => absurd (blank _ h) (by decide)⟩

theorem dropKeyword?_append {w gap t : Text} (blank : Blank gap) (nonempty : gap ≠ [])
    (stops : Stops isBlank t) : Text.dropKeyword? w (w ++ (gap ++ t)) = some t := by
  obtain ⟨c, gap, rfl⟩ := List.exists_cons_of_ne_nil nonempty
  have begins : Text.dropStart? w (w ++ (c :: gap ++ t)) = some (c :: (gap ++ t)) :=
    Text.dropStart?_eq_some_iff.mpr rfl
  have blankGap : Blank gap := fun d member => blank d (List.mem_cons_of_mem c member)
  have front : Text.trimStart t = t := by
    cases t with
    | nil => rfl
    | cons d t => simp [Text.trimStart, Matcher.stops_cons.mp stops]
  rw [Text.dropKeyword?, begins]
  simp only [blank c List.mem_cons_self, if_true]
  rw [Text.trimStart_append blankGap, front]

/-- The names in a `throws` clause are the thrown types. -/
theorem thrownTypes_of_covers {first : Text} {rest : List Text}
    (h : ∀ name ∈ first :: rest, isDottedName name = true) {s : Text}
    (covers : Covers (throwsLexemes (first :: rest)) s) (stops : Stops isBlank s) :
    Method.thrownTypes (Text.trim s) = (first :: rest).map ThrownType.named := by
  obtain ⟨t, gap, rfl, spelled, blank⟩ := covers
  have visible : ∀ l ∈ throwsLexemes (first :: rest), l.IsVisible := fun l member =>
    isVisible_of_kind (plain_throwsLexemes h l member).1.kind
  rw [trim_of_stops spelled visible stops blank]
  obtain ⟨gap₁, r, rfl, blank₁, -, others⟩ := spelled
  have none : gap₁ = [] := by
    cases gap₁ with
    | nil => rfl
    | cons d gap₁ =>
        have seen := Matcher.stops_cons.mp stops
        rw [blank₁ d List.mem_cons_self] at seen
        cases seen
  subst none
  obtain ⟨more, shape⟩ : ∃ more,
      commaLexemes ((first :: rest).map fun name => [near name]) = near first :: more := by
    cases rest with
    | nil => exact ⟨[], rfl⟩
    | cons second rest => exact ⟨_, rfl⟩
  rw [shape] at others
  obtain ⟨gap₂, r, rfl, blank₂, some₂, inNames⟩ := others.exists_behind
  rw [← shape] at inNames
  have visibleFirst : (near first).IsVisible :=
    isVisible_of_kind
      (isPlain_of_isDottedName (l := near first) (h first List.mem_cons_self)).1.kind
  have dropped : Text.dropKeyword? "throws".toList ("throws".toList ++ (gap₂ ++ (first ++ r))) =
      some (first ++ r) :=
    dropKeyword?_append blank₂ some₂ (stops_of_visible visibleFirst r)
  have closed : Spelled (commaLexemes ((first :: rest).map fun name => [near name]) ++ [near [';']])
      (first ++ r ++ [';']) :=
    spelled_append.mpr ⟨_, _, rfl, inNames, [], [], by simp, Text.blank_nil, by simp, rfl⟩
  obtain ⟨pieces, whole, covers⟩ := exists_pieces (by simp) closed
  have same : first ++ r = [','].intercalate pieces := List.append_cancel_right whole
  have each : List.Forall₂ (fun name piece => Covers [near name] piece) (first :: rest) pieces :=
    List.forall₂_map_left_iff.mp covers
  have nonempty : pieces ≠ [] := by
    rintro rfl
    cases each
  obtain ⟨trimmed, absent⟩ := map_trim_of_covers h each
  have kept : (first :: rest).filter (!·.isEmpty) = first :: rest := by
    apply List.filter_eq_self.mpr
    intro name member
    have some := Declaration.isDottedName_ne_nil (h name member)
    simpa using some
  unfold Method.thrownTypes
  rw [List.nil_append, near_text, dropped, Option.getD_some, same]
  dsimp only
  rw [Text.splitOn_intercalate absent nonempty, trimmed, kept]

theorem thrownTypes_of_clause {thrown : List Text}
    (h : ∀ name ∈ thrown, isDottedName name = true) {clause : Option Text}
    (reads : ClauseReads thrown clause) :
    (clause.map fun s => Method.thrownTypes (Text.trim s)).getD [] =
      thrown.map ThrownType.named := by
  rcases reads with ⟨rfl, rfl⟩ | ⟨s, some, rfl, covers, stops⟩
  · rfl
  · obtain ⟨first, rest, rfl⟩ := List.exists_cons_of_ne_nil some
    exact thrownTypes_of_covers h covers stops

/-! ## The result -/

/-- A character that may stand in front of the arguments and the brackets of a
type. -/
def isBaseChar (c : Char) : Bool :=
  !(c == '<' || c == '[')

theorem isBaseChar_of {accept : Char → Bool} (none : ∀ d ∈ ['<', '['], accept d = false) {c : Char}
    (h : accept c = true) : isBaseChar c = true := by
  cases bracket : c == '<' || c == '[' with
  | false => simp [isBaseChar, bracket]
  | true =>
      have member : c ∈ ['<', '['] := by simpa using bracket
      rw [none c member] at h
      cases h

/-- A result is trimmed already, and its base name is the name of the type. -/
theorem baseName_of_spelled {type : TypeTree} (isResult : IsResult type) {t : Text}
    (spelled : Spelled type.lexemes t) (stops : Stops isBlank t) :
    Text.trim t = t ∧ Signature.baseName t = type.name := by
  have visible : ∀ l ∈ type.lexemes, l.IsVisible := (isList_result isResult).sound.visible
  have trimmed : Text.trim t = t := by
    have whole : Text.trim (t ++ []) = t :=
      trim_of_stops spelled visible (by simpa using stops) Text.blank_nil
    simpa using whole
  refine ⟨trimmed, ?_⟩
  obtain ⟨base, arguments, dimensions, token⟩ := type
  obtain ⟨_, a, b, rfl, inName, inBrackets, inArguments⟩ := TypeTree.Spelled.cut spelled
  rw [isResult.nameLexemes] at inName
  obtain ⟨g, rfl, blankG, -⟩ := spelled_singleton.mp inName
  obtain ⟨gap, r, behind, blank, opens⟩ : ∃ gap r, a ++ b = gap ++ r ∧ Blank gap ∧
      r.takeWhile isBaseChar = [] := by
    rcases inArguments with ⟨-, rfl⟩ | ⟨gap, pieces, -, blank, rfl, -⟩
    · cases dimensions with
      | zero =>
          cases inBrackets
          exact ⟨[], [], rfl, Text.blank_nil, rfl⟩
      | succ dimensions =>
          obtain ⟨gap, r, rfl, blank, -, -⟩ := inBrackets
          exact ⟨gap, '[' :: r, rfl, blank, rfl⟩
    · exact ⟨gap, '<' :: ([','].intercalate pieces ++ ['>'] ++ b), by simp, blank, rfl⟩
  have inFront : ∀ c ∈ g ++ base ++ gap, isBaseChar c = true := by
    simp only [List.forall_mem_append]
    exact ⟨⟨fun c member => isBaseChar_of (by decide) (blankG c member),
      fun c member => isBaseChar_of (by decide) (isResult.parts.2 c member)⟩,
      fun c member => isBaseChar_of (by decide) (blank c member)⟩
  have visibleBase : Text.Visible base := fun c member =>
    Character.not_isBlank_of_isDottedPart (isResult.parts.2 c member)
  have front : (g ++ base ++ (a ++ b)).takeWhile isBaseChar = g ++ (base ++ gap) := by
    rw [behind, ← List.append_assoc, List.takeWhile_append_of_pos inFront, opens]
    simp
  have surround := Text.trim_surround blankG blank (Text.isTrimmed_of_visible visibleBase)
  rw [← front] at surround
  exact surround

/-- A result is read as the type that was declared, resolved, and `void` as
none. -/
theorem read?_of_result {policy : ExtractionPolicy} {scope : NameScope} {result : Option TypeTree}
    (declared : ∀ type, result = some type → type.isDeclared = true) {t : Text}
    (spelled : Spelled (result.getD voidType).lexemes t) (stops : Stops isBlank t) :
    TypeTree.read? policy scope t = result.map (TypeTree.resolved policy scope) := by
  cases result with
  | none =>
      obtain ⟨gap, rfl, blank, -⟩ := spelled_singleton.mp
        (show Spelled [near "void".toList] t from spelled)
      obtain rfl := blank.eq_nil_of_front stops.front
      have dropped : Text.dropKeywords "final".toList ("void".toList ++ []) = "void".toList ++ [] :=
        TypeTree.dropKeywords_of_front (by decide) (by decide) (by decide) (by simp)
      have trimmed : Text.trim "void".toList = "void".toList := by decide
      simp only [List.append_nil] at dropped
      rw [List.nil_append, near_text, TypeTree.read?, trimmed, dropped, trimmed]
      rfl
  | some type =>
      exact TypeTree.read?_of_writes (TypeTree.isReadable_of_isDeclared (declared type rfl))
        ⟨t, [], by simp, spelled, Text.blank_nil⟩

end Lexeme
namespace MethodForm

open Declaration (isDottedName)
open Matcher (Reads)

variable {form : MethodForm}

/-! ## The signature of a declaration -/

/-- What a signature says of the declaration. -/
structure SignatureReads (form : MethodForm) (area : Text) (signature : Signature) : Prop where
  area_eq : signature.area = area
  name_eq : signature.name = form.name
  result : ∀ policy scope, TypeTree.read? policy scope signature.returnType =
    form.result.map (TypeTree.resolved policy scope)
  parameters : ∀ policy scope, Parameter.readAll policy scope signature.parameters =
    form.parameters.map (ParameterForm.declared policy scope)
  thrown : (signature.throwsClause.map Method.thrownTypes).getD [] =
    form.thrown.map ThrownType.named

theorem not_reserved (h : form.isWellFormed = true) :
    form.resultType.name ∉ Signature.reserved ∧ form.name ∉ Signature.reserved := by
  have other : ∀ {w : Text}, w ∉ Declaration.keywords → w ∉ Signature.reserved := fun none member =>
    none (List.mem_append_left _ (List.mem_append_left _ member))
  refine ⟨?_, other (Declaration.not_mem_keywords (parts h).name)⟩
  rcases isResult h with declared | void
  · exact other (Declaration.not_mem_keywords_of_isDottedName
      (TypeTree.isDottedName_of_isDeclared declared))
  · rw [void]
    decide

/-- The blanks at the two ends of a parameter list are no part of it. -/
theorem spelled_trim {forms : List ParameterForm}
    (wellFormed : ∀ form ∈ forms, form.isWellFormed = true) {t : Text}
    (spelled : Spelled (ParameterForm.listLexemes forms ++ [near [')']]) (t ++ [')'])) :
    Spelled (ParameterForm.listLexemes forms ++ [near [')']]) (Text.trim t ++ [')']) := by
  obtain ⟨s, _, shape, inList, atEnd⟩ := Lexeme.spelled_append.mp spelled
  obtain ⟨gap, rfl, blank, -⟩ := Lexeme.spelled_singleton.mp atEnd
  have same : t = s ++ gap := by
    rw [Lexeme.near_text, ← List.append_assoc] at shape
    exact List.append_cancel_right shape
  subst same
  have visible := (ParameterForm.isList_listLexemes wellFormed).sound.visible
  have trimmed := inList.trim visible (ParameterForm.head_listLexemes wellFormed) blank
  exact Lexeme.spelled_append.mpr ⟨_, _, rfl, trimmed, [], [], rfl, Text.blank_nil, by simp, rfl⟩

theorem exists_signature (h : form.isWellFormed = true) {area : Text}
    (spelled : Spelled form.lexemes area) :
    ∃ signature, Signature.ofArea? area = some signature ∧ SignatureReads form area signature := by
  obtain ⟨words, parameters, areQualifiers, wellFormed, same, inBare⟩ := exists_bare h spelled
  have noQualifier : form.resultType.name ∉ Matcher.qualifiers := by
    obtain ⟨more, shape⟩ := Lexeme.head_result (isResult h)
    have plain :=
      plain_result h (near form.resultType.name) (by rw [shape]; exact List.mem_cons_self)
    exact fun member => plain.2 (List.mem_append_right _ member)
  obtain ⟨found, later, reads, isSignature⟩ := Lexeme.reads_signatureShape areQualifiers
    (parts h).typeVariables (isResult h) noQualifier
      (Declaration.isIdentifier_ne_nil (parts h).name)
    (Declaration.isNamePart_of_isIdentifier (parts h).name)
    (ParameterForm.isList_listLexemes wellFormed) (parts h).thrown form.last_eq inBare
  obtain ⟨trimmed, base⟩ :=
    Lexeme.baseName_of_spelled (isResult h) isSignature.result isSignature.front
  obtain ⟨notReserved, notReserved'⟩ := not_reserved h
  refine ⟨⟨area, found.returnType.text, form.name, Text.trim found.parameters.text,
    found.throwsClause.map fun clause => Text.trim clause.text⟩, ?_, rfl, rfl, ?_, ?_, ?_⟩
  · simp [Signature.ofArea?, Matcher.read?_of_reads reads, trimmed, base, notReserved, notReserved',
      isSignature.name_eq]
  · exact fun policy scope =>
      Lexeme.read?_of_result (parts h).result isSignature.result isSignature.front
  · intro policy scope
    rw [← same policy scope]
    exact ParameterForm.readAll_of_spelled policy scope wellFormed
      (spelled_trim wellFormed isSignature.inside)
  · have clause := Lexeme.thrownTypes_of_clause (parts h).thrown isSignature.clause
    simpa [Option.map_map, Function.comp_def] using clause

/-! ## What stands in front of the parameter list -/

/-- The lexemes in front of the parameter list. -/
def headingLexemes (form : MethodForm) : List Lexeme :=
  freeFirst (led form.modifiers form.namedLexemes)

theorem inner_headingLexemes (h : form.isWellFormed = true) :
    ∀ l ∈ form.headingLexemes, Lexeme.IsInner l := by
  refine Lexeme.forall_mem_freeFirst_led (P := fun w => Lexeme.IsInner (near w))
    (fun w member => ?_)
    fun l member => ?_
  · exact Or.inl (Lexeme.isWord_of_isKeyword (isKeyword_modifiers ((parts h).modifiers w member)))
  · exact (plain_namedLexemes h l member).1

/-- The heading of an area spells the modifiers and the named lexemes. -/
theorem exists_heading (h : form.isWellFormed = true) {area : Text}
    (spelled : Spelled form.lexemes area) :
    ∃ s gap rest, area = s ++ (gap ++ '(' :: rest) ∧ Text.before '(' area = s ++ gap ∧
      Spelled form.headingLexemes s ∧ Text.Blank gap ∧ '(' ∉ s ∧ '(' ∉ rest :=
  Lexeme.exists_heading (inner_headingLexemes h)
    (ParameterForm.isList_listLexemes (parts h).parameters).inner
      (parts h).thrown form.last_eq spelled

theorem isSound_namedLexemes (h : form.isWellFormed = true) : Lexeme.IsSound form.namedLexemes := by
  have name : Lexeme.IsSound [behindBlank form.name] :=
    Lexeme.isSound_singleton (Lexeme.isPlain_of_isIdentifier (parts h).name).1.kind
  have named := (Lexeme.isList_result (isResult h)).sound.append name fun _ _ b head =>
    Or.inl (by cases head; rfl)
  exact Lexeme.isSound_signature (parts h).typeVariables named

/-- A modifier shows in the heading of an area. -/
theorem occursIn_heading (h : form.isWellFormed = true) {area : Text}
    (spelled : Spelled form.lexemes area) {w : Text} (isModifier : w ∈ Declaration.modifiers) :
    (Matcher.blankDelimited w).occursIn (Text.before '(' area) = form.modifiers.contains w := by
  obtain ⟨s, gap, rest, -, same, inHeading, blank, -, -⟩ := exists_heading h spelled
  rw [same]
  refine Lexeme.occursIn_blankDelimited
    (fun w' member => isKeyword_modifiers ((parts h).modifiers w' member))
    (isKeyword_modifiers isModifier) (isSound_namedLexemes h) ?_ inHeading blank
    fun _ => Or.inl (namedLexemes_ne_nil form)
  rintro l member rfl
  exact (plain_namedLexemes h l member).2 isModifier

/-- The area of a declaration gives the method that was declared. -/
theorem ofSignature_of_spelled (h : form.isWellFormed = true) {area : Text}
    (spelled : Spelled form.lexemes area) (library : PatternLibrary) (policy : ExtractionPolicy)
    (scope : NameScope) (source : Text) :
    (Signature.ofArea? area).map (Method.ofSignature library policy scope source) =
      some (form.declared library policy scope source) := by
  obtain ⟨signature, found, reads⟩ := exists_signature h spelled
  have static : (Matcher.blankDelimited "static".toList).occursIn (Text.before '(' area) =
      form.modifiers.contains "static".toList := occursIn_heading h spelled (by decide)
  have visibility : Visibility.ofSignature policy.implicitVisibility (Text.before '(' area) = _ :=
    Lexeme.ofSignature_eq fun w isVisibility =>
      occursIn_heading h spelled (List.mem_append_left _ isVisibility)
  rw [found, Option.map_some]
  unfold Method.ofSignature declared Signature.heading
  rw [reads.area_eq, reads.name_eq, reads.result, reads.parameters, reads.thrown,
    static, visibility]

end MethodForm
end Testwright
