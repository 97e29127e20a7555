import Testwright.Proofs.Declaration.TypeSpelling
import Testwright.Source.Parameter

namespace Testwright

/-!
# Reading spelled parameters back

A parameter may be final, may take a variable number of values, and may carry
bracket pairs behind its name.  The dots and those pairs are dimensions of its
type (`ParameterForm.declared`).  The reader takes off any number of words `final`,
so a list of parameters is read the same with some of these words taken out, which
is what happens to them on the way.
-/

/-- A parameter as it is written. -/
structure ParameterForm where
  isFinal : Bool
  type : TypeTree
  /-- Whether three dots stand behind the type. -/
  isVariadic : Bool
  name : Text
  /-- The number of bracket pairs behind the name. -/
  marks : Nat

namespace ParameterForm

open Character (isBlank isDottedPart isNamePart)
open Declaration (isIdentifier isDottedName DotsInside)
open Lexeme (Spelled Covers near behindBlank partFirst commaLexemes)
open Text (Blank Visible Closed)
open TypeTree (bracketLexemes)

/-- The lexemes without the word `final` and the pairs behind the name. -/
def bareLexemes (form : ParameterForm) : List Lexeme :=
  form.type.lexemes ++
    if form.isVariadic then [near "...".toList, near form.name] else [behindBlank form.name]

def lexemes (form : ParameterForm) : List Lexeme :=
  if form.isFinal then
    near "final".toList :: partFirst (form.bareLexemes ++ bracketLexemes form.marks)
  else
    form.bareLexemes ++ bracketLexemes form.marks

def isWellFormed (form : ParameterForm) : Bool :=
  form.type.isDeclared && isIdentifier form.name

theorem isDeclared_type {form : ParameterForm} (h : form.isWellFormed = true) :
    form.type.isDeclared = true := by
  simp only [isWellFormed, Bool.and_eq_true] at h
  exact h.1

/-- Whether the parameter can be read, whatever words of name characters are in it. -/
def isReadable (form : ParameterForm) : Bool :=
  form.type.isReadable && Parameter.isName form.name

theorem isReadable_of_isWellFormed {form : ParameterForm} (h : form.isWellFormed = true) :
    form.isReadable = true := by
  simp only [isWellFormed, Bool.and_eq_true] at h
  simp only [isReadable, Parameter.isName, Bool.and_eq_true, Bool.not_eq_true',
    List.isEmpty_eq_false_iff, List.all_eq_true]
  exact ⟨TypeTree.isReadable_of_isDeclared h.1, Declaration.isIdentifier_ne_nil h.2,
    Declaration.isNamePart_of_isIdentifier h.2⟩

/-- The parameter as a reader in the scope understands it. -/
def declared (policy : ExtractionPolicy) (scope : NameScope) (form : ParameterForm) :
    Parameter where
  name := form.name
  type := (form.type.resolved policy scope).withDimensions
    (form.type.dimensions + (if form.isVariadic then 1 else 0) + form.marks)

theorem dotsInside_of_spelled {lexemes : List Lexeme} (each : ∀ l ∈ lexemes, DotsInside l.text)
    {t : Text} (spelled : Spelled lexemes t) : DotsInside t := by
  induction lexemes generalizing t with
  | nil =>
      cases spelled
      exact Declaration.dotsInside_of_not_mem (by simp)
  | cons l lexemes ih =>
      obtain ⟨gap, rest, rfl, blank, -, spelled⟩ := spelled
      have noDot : '.' ∉ gap := fun member => absurd (blank '.' member) (by decide)
      exact (Declaration.dotsInside_of_not_mem noDot).append
        ((each l List.mem_cons_self).append
          (ih (fun l' member => each l' (List.mem_cons_of_mem l member)) spelled))

/-- Three dots stand nowhere in a text with a name character behind each dot. -/
theorem not_dots_prefix {s t x y : Text} (dots : DotsInside s) (cut : s = x ++ y)
    (nonempty : y ≠ []) :
    ¬ "...".toList <+: y ++ t := by
  rintro ⟨rest, begins⟩
  have dotted : "...".toList ++ rest = '.' :: '.' :: '.' :: rest := rfl
  rw [dotted] at begins
  obtain ⟨c, y, rfl⟩ := List.exists_cons_of_ne_nil nonempty
  obtain ⟨rfl, later⟩ := List.cons.inj begins
  obtain ⟨d, y', rfl, part⟩ := dots x y cut
  obtain ⟨rfl, -⟩ := List.cons.inj later
  exact absurd part (by decide)

/-! ## From the outside in -/

section

variable {policy : ExtractionPolicy} {scope : NameScope} {form : ParameterForm}

theorem isReadable_type (h : form.isReadable = true) : form.type.isReadable = true :=
  (Bool.and_eq_true_iff.mp h).1

theorem isName_name (h : form.isReadable = true) : Parameter.isName form.name = true :=
  (Bool.and_eq_true_iff.mp h).2

theorem name_ne_nil (h : form.isReadable = true) : form.name ≠ [] := by
  have isName := isName_name h
  simp only [Parameter.isName, Bool.and_eq_true, Bool.not_eq_true',
    List.isEmpty_eq_false_iff] at isName
  exact isName.1

theorem isNamePart_name (h : form.isReadable = true) : ∀ c ∈ form.name, isNamePart c = true := by
  have isName := isName_name h
  simp only [Parameter.isName, Bool.and_eq_true, List.all_eq_true] at isName
  exact isName.2

theorem visible_name (h : form.isReadable = true) : Visible form.name :=
  fun c member => Character.not_isBlank_of_isNamePart (isNamePart_name h c member)

/-- The type and the name of a parameter without brackets behind the name. -/
theorem cut?_of_spelled (policy : ExtractionPolicy) (scope : NameScope)
    (h : form.isReadable = true) {core : Text} (spelled : Spelled form.bareLexemes core) :
    ∃ typeText, Parameter.cut? core = some (typeText, form.name) ∧
      TypeTree.read? policy scope typeText = some ((form.type.resolved policy scope).withDimensions
        (form.type.dimensions + if form.isVariadic then 1 else 0)) := by
  have writable := TypeTree.isWritable_of_isReadable (isReadable_type h)
  obtain ⟨s, n, rfl, inType, inName⟩ := Lexeme.spelled_append.mp spelled
  have dots : DotsInside s := dotsInside_of_spelled
    (fun l member => (TypeTree.isTypeLexeme_lexemes _ writable l member).dots) inType
  have nameDots : DotsInside form.name := Declaration.dotsInside_of_not_mem fun member =>
    absurd (isNamePart_name h '.' member) (by decide)
  have gapDots : ∀ {gap : Text}, Blank gap → DotsInside gap := fun blank =>
    Declaration.dotsInside_of_not_mem fun member => absurd (blank '.' member) (by decide)
  have trimName : ∀ {gap : Text}, Blank gap → Text.trim (gap ++ form.name) = form.name := by
    intro gap blank
    simpa using Text.trim_surround blank Text.blank_nil (Text.isTrimmed_of_visible (visible_name h))
  cases variadic : form.isVariadic with
  | true =>
      rw [variadic, if_pos rfl] at inName
      obtain ⟨g, _, rfl, blank, -, g', _, rfl, blank', -, rfl⟩ := inName
      have shape : s ++ (g ++ ((near "...".toList).text ++ (g' ++ ((near form.name).text ++ [])))) =
          (s ++ g) ++ ("...".toList ++ (g' ++ form.name)) := by simp
      have found : Text.cutBefore? "...".toList ((s ++ g) ++ ("...".toList ++ (g' ++ form.name))) =
          some (s ++ g, "...".toList ++ (g' ++ form.name)) :=
        Text.cutBefore?_append (by decide) fun x y cut nonempty =>
          not_dots_prefix (dots.append (gapDots blank)) cut nonempty
      refine ⟨s ++ (g ++ "...".toList), ?_, ?_⟩
      · unfold Parameter.cut?
        rw [shape, found]
        have behind : ("...".toList ++ (g' ++ form.name)).drop 3 = g' ++ form.name := rfl
        have taken : ("...".toList ++ (g' ++ form.name)).take 3 = "...".toList := rfl
        simp only [behind, taken, trimName blank', List.append_assoc]
      · rw [if_pos rfl]
        have dotted : Spelled (form.type.lexemes ++ [near "...".toList])
            (s ++ (g ++ "...".toList)) :=
          Lexeme.spelled_append.mpr ⟨s, _, rfl, inType,
            Lexeme.spelled_singleton.mpr ⟨g, rfl, blank, by simp⟩⟩
        have covers : Covers (Lexeme.behindFinals (form.type.lexemes ++ [near "...".toList]) 0)
            (s ++ (g ++ "...".toList)) := ⟨_, [], by simp, dotted, Text.blank_nil⟩
        exact TypeTree.read?_of_dots (isReadable_type h) covers
  | false =>
      rw [variadic, if_neg (by simp)] at inName
      obtain ⟨gap, rfl, blank, apart⟩ := Lexeme.spelled_singleton.mp inName
      have none : Text.cutBefore? "...".toList (s ++ (gap ++ form.name)) = none := by
        apply Text.cutBefore?_eq_none (by decide)
        intro x y cut begins
        have nonempty : y ≠ [] := by
          rintro rfl
          exact absurd (List.prefix_nil.mp begins) (by decide)
        exact not_dots_prefix (t := []) (dots.append ((gapDots blank).append nameDots)) cut nonempty
          (by rwa [List.append_nil])
      obtain ⟨gap', c, rfl, last⟩ := Text.lastTopLevelBlank?_of_closed
        (TypeTree.closed_of_spelled _ writable inType) blank (apart rfl) (visible_name h)
      have blankC : isBlank c = true := blank c (by simp)
      have blankGap : Blank gap' := fun d member => blank d (by simp [member])
      have start : Text.trimStart (c :: form.name) = form.name := by
        have := Text.trimStart_append (Text.blank_singleton blankC) form.name
        rw [List.singleton_append] at this
        rw [this, (Text.isTrimmed_of_visible (visible_name h)).trimStart_eq]
      have notBracket : form.name.head? ≠ some '[' := by
        intro head
        exact absurd (isNamePart_name h '[' (List.mem_of_mem_head? head)) (by decide)
      refine ⟨s ++ gap', ?_, ?_⟩
      · unfold Parameter.cut?
        have trimmed := trimName (Text.blank_singleton blankC)
        rw [List.singleton_append] at trimmed
        simp only [Lexeme.behindBlank_text, none, last, start, notBracket, if_false, trimmed]
      · rw [if_neg (by simp), Nat.add_zero, TypeTree.resolved_withDimensions]
        exact TypeTree.read?_of_writes (isReadable_type h) ⟨s, gap', rfl, inType, blankGap⟩

theorem isVisible_bareLexemes (h : form.isReadable = true) :
    ∀ l ∈ form.bareLexemes, l.IsVisible := by
  have writable := TypeTree.isWritable_of_isReadable (isReadable_type h)
  have name : ∀ apart, Lexeme.IsVisible ⟨form.name, apart⟩ :=
    fun _ => ⟨name_ne_nil h, visible_name h⟩
  have dots : (near "...".toList).IsVisible := Lexeme.isVisible_near (by decide) (by decide)
  unfold bareLexemes
  rw [List.forall_mem_append]
  refine ⟨fun l member => (TypeTree.isTypeLexeme_lexemes _ writable l member).isVisible, ?_⟩
  split
  · exact List.forall_mem_cons.mpr ⟨dots, List.forall_mem_singleton.mpr (name false)⟩
  · exact List.forall_mem_singleton.mpr (name true)

/-- The brackets behind the name come off one by one. -/
theorem exists_core (h : form.isReadable = true) {u : Text}
    (spelled : Spelled (form.bareLexemes ++ bracketLexemes form.marks) u) :
    ∃ core, Text.peel TypeTree.bracketLayer? u = (core, form.marks) ∧
      Spelled form.bareLexemes core := by
  obtain ⟨core, b, rfl, inCore, inBrackets⟩ := Lexeme.spelled_append.mp spelled
  have back := inCore.back (isVisible_bareLexemes h)
  have endsWithName : ∃ front, core = front ++ form.name := by
    obtain ⟨s, n, rfl, -, inName⟩ := Lexeme.spelled_append.mp inCore
    split at inName
    · obtain ⟨g, _, rfl, -, -, g', _, rfl, -, -, rfl⟩ := inName
      exact ⟨s ++ (g ++ ("...".toList ++ g')), by simp⟩
    · obtain ⟨gap, rfl, -, -⟩ := Lexeme.spelled_singleton.mp inName
      exact ⟨s ++ gap, by simp⟩
  have noLayer : TypeTree.bracketLayer? core = none := by
    have noBracket : Text.dropFinal? [']'] core = none := by
      apply Option.eq_none_iff_forall_ne_some.mpr
      intro rest found
      rw [Text.dropFinal?_eq_some_iff] at found
      obtain ⟨front, whole⟩ := endsWithName
      have last := congrArg List.getLast? (whole.symm.trans found)
      rw [List.getLast?_append_of_ne_nil _ (name_ne_nil h), List.getLast?_concat] at last
      exact absurd (isNamePart_name h ']' (List.mem_of_getLast? last)) (by decide)
    unfold TypeTree.bracketLayer?
    simp [noBracket]
  refine ⟨core, ?_, inCore⟩
  rw [TypeTree.peel_brackets TypeTree.bracketLayer?_append (Text.trimEnd_of_back back) inBrackets,
    Text.peel_of_none noLayer]
  simp

/-- What stands behind the type begins with no name character. -/
theorem head_behind_type {t : Text}
    (spelled : Spelled
      ((if form.isVariadic then [near "...".toList, near form.name] else [behindBlank form.name]) ++
        bracketLexemes form.marks) t) :
    ∀ c, t.head? = some c → isNamePart c = false := by
  intro c head
  obtain ⟨n, b, rfl, inName, -⟩ := Lexeme.spelled_append.mp spelled
  split at inName
  · obtain ⟨gap, _, rfl, blankGap, -, -⟩ := inName
    cases gap with
    | nil =>
        rw [← Option.some.inj head]
        decide
    | cons d gap =>
        rw [← Option.some.inj head]
        exact Character.not_isNamePart_of_isBlank (blankGap d List.mem_cons_self)
  · obtain ⟨gap, rfl, blankGap, apart⟩ := Lexeme.spelled_singleton.mp inName
    obtain ⟨d, gap, rfl⟩ := List.exists_cons_of_ne_nil (apart rfl)
    rw [← Option.some.inj head]
    exact Character.not_isNamePart_of_isBlank (blankGap d List.mem_cons_self)

theorem isUnled_bare (h : form.isReadable = true) :
    Lexeme.IsUnled (form.bareLexemes ++ bracketLexemes form.marks) := by
  have visible := isVisible_bareLexemes h
  unfold bareLexemes at visible ⊢
  rw [List.append_assoc]
  refine TypeTree.isUnled_append (isReadable_type h) ?_ head_behind_type
  exact List.forall_mem_append.mpr ⟨(List.forall_mem_append.mp visible).2,
    fun l member => (TypeTree.isTypeLexeme_bracketLexemes l member).isVisible⟩

/-- The text is the parameter, with any number of words `final` in front of it and blanks
behind it. -/
def Writes (form : ParameterForm) (piece : Text) : Prop :=
  ∃ finals, Covers (Lexeme.behindFinals (form.bareLexemes ++ bracketLexemes form.marks) finals)
    piece

theorem Writes.of_covers {piece : Text} (covers : Covers form.lexemes piece) :
    form.Writes piece := by
  unfold lexemes at covers
  split at covers
  · exact ⟨1, covers⟩
  · exact ⟨0, covers⟩

/-- A written parameter is read as the parameter. -/
theorem read?_of_writes (policy : ExtractionPolicy) (scope : NameScope)
    (h : form.isReadable = true) {piece : Text} (writes : form.Writes piece) :
    Parameter.read? policy scope piece = some (form.declared policy scope) := by
  obtain ⟨finals, covers⟩ := writes
  have spelled := (isUnled_bare h).spelled_bare covers
  have trimmed := Text.isTrimmed_trim (Text.dropKeywords "final".toList (Text.trim piece))
  obtain ⟨core, peeled, inCore⟩ := exists_core h spelled
  obtain ⟨typeText, cut, type⟩ := cut?_of_spelled policy scope h inCore
  unfold Parameter.read?
  simp only [trimmed.trimEnd_eq, peeled, cut, type, isName_name h, if_true, Option.bind_eq_bind,
    Option.bind_some]
  rfl

theorem closed_of_spelled_bare (h : form.isReadable = true) {t : Text}
    (spelled : Spelled (form.bareLexemes ++ bracketLexemes form.marks) t) : Closed t := by
  obtain ⟨_, b, rfl, inBare, inBrackets⟩ := Lexeme.spelled_append.mp spelled
  obtain ⟨s, n, rfl, inType, inName⟩ := Lexeme.spelled_append.mp inBare
  have closedType := TypeTree.closed_of_spelled _
    (TypeTree.isWritable_of_isReadable (isReadable_type h)) inType
  have plain : ∀ c ∈ n, isBlank c = true ∨ isDottedPart c = true := by
    refine inName.forall_mem (fun c blank => Or.inl blank) ?_
    have name : ∀ c ∈ form.name, isDottedPart c = true := fun c member =>
      Character.isDottedPart_of_isNamePart (isNamePart_name h c member)
    have dots : ∀ c ∈ "...".toList, isDottedPart c = true := by decide
    split
    · exact List.forall_mem_cons.mpr ⟨fun c member => Or.inr (dots c member),
        List.forall_mem_singleton.mpr fun c member => Or.inr (name c member)⟩
    · exact List.forall_mem_singleton.mpr fun c member => Or.inr (name c member)
  have closedName : Closed n := by
    apply Text.closed_of_forall
    intro c member
    rcases plain c member with blank | dotted
    · refine ⟨?_, ?_, ?_⟩
      all_goals
        rintro rfl
        exact absurd blank (by decide)
    · refine ⟨?_, ?_, ?_⟩
      all_goals
        rintro rfl
        exact absurd dotted (by decide)
  exact (closedType.append closedName).append (TypeTree.closed_of_spelled_brackets inBrackets)

theorem closed_of_writes (h : form.isReadable = true) {piece : Text} (writes : form.Writes piece) :
    Closed piece := by
  obtain ⟨finals, covers⟩ := writes
  exact Lexeme.closed_behindFinals (closed_of_spelled_bare h) covers

/-! ## Lists of parameters -/

def listLexemes (forms : List ParameterForm) : List Lexeme :=
  commaLexemes (forms.map lexemes)

theorem read?_trim (policy : ExtractionPolicy) (scope : NameScope) (t : Text) :
    Parameter.read? policy scope (Text.trim t) = Parameter.read? policy scope t := by
  simp only [Parameter.read?, Text.trim_trim]

theorem read?_nil (policy : ExtractionPolicy) (scope : NameScope) :
    Parameter.read? policy scope [] = none := by
  have trimmed : Text.trim [] = [] := Text.trim_of_blank Text.blank_nil
  have dropped : Text.dropKeywords "final".toList [] = [] := by
    rw [Text.dropKeywords, Text.peel_of_none rfl]
  have peeled : Text.peel TypeTree.bracketLayer? [] = ([], 0) := Text.peel_of_none rfl
  have trimmedEnd : Text.trimEnd [] = [] := rfl
  have uncut : Parameter.cut? [] = none := rfl
  simp only [Parameter.read?, trimmed, dropped, trimmedEnd, peeled, uncut, Option.bind_eq_bind,
    Option.bind_none]

theorem readAll_of_blank (policy : ExtractionPolicy) (scope : NameScope) {t : Text}
    (blank : Blank t) : Parameter.readAll policy scope t = [] := by
  have pieces : Text.topLevelPieces t = [[]] := by
    rw [Text.topLevelPieces, Text.commaPieces_of_commaFree (Text.closed_of_blank blank 0).2,
      List.map_singleton, Text.trim_of_blank blank]
  rw [Parameter.readAll, pieces, List.filterMap_cons, read?_nil]
  rfl

/-- Texts that write parameters are read one by one. -/
theorem filterMap_read?_of_writes (policy : ExtractionPolicy) (scope : NameScope)
    {forms : List ParameterForm} {pieces : List Text}
    (readable : ∀ form ∈ forms, form.isReadable = true)
    (written : List.Forall₂ Writes forms pieces) :
    (∀ piece ∈ pieces, Closed piece) ∧
      (pieces.map Text.trim).filterMap (Parameter.read? policy scope) =
        forms.map (declared policy scope) := by
  induction written with
  | nil => exact ⟨by simp, rfl⟩
  | cons here _ ih =>
      rw [List.forall_mem_cons] at readable ⊢
      obtain ⟨closed, read⟩ := ih readable.2
      refine ⟨⟨closed_of_writes readable.1 here, closed⟩, ?_⟩
      rw [List.map_cons, List.filterMap_cons, read?_trim,
        read?_of_writes policy scope readable.1 here, read]
      rfl

/-- A list of parameters with commas between them, in any layout; without parameters
there are blanks at most. -/
def ListWrites (forms : List ParameterForm) (t : Text) : Prop :=
  (forms = [] ∧ Blank t) ∨
    ∃ pieces, pieces ≠ [] ∧ t = [','].intercalate pieces ∧ List.Forall₂ Writes forms pieces

/-- A written list of parameters is read as the parameters. -/
theorem readAll_of_listWrites (policy : ExtractionPolicy) (scope : NameScope)
    {forms : List ParameterForm} (readable : ∀ form ∈ forms, form.isReadable = true) {t : Text}
    (writes : ListWrites forms t) :
    Parameter.readAll policy scope t = forms.map (declared policy scope) := by
  rcases writes with ⟨rfl, blank⟩ | ⟨pieces, nonempty, rfl, written⟩
  · exact readAll_of_blank policy scope blank
  · obtain ⟨closed, read⟩ := filterMap_read?_of_writes policy scope readable written
    rw [Parameter.readAll, Text.topLevelPieces_intercalate closed nonempty, read]

theorem ListWrites.of_spelled {forms : List ParameterForm} {t : Text}
    (spelled : Spelled (listLexemes forms ++ [near [')']]) (t ++ [')'])) : ListWrites forms t := by
  cases forms with
  | nil =>
      obtain ⟨gap, whole, blank, -⟩ := Lexeme.spelled_singleton.mp spelled
      obtain rfl := List.append_cancel_right whole
      exact Or.inl ⟨rfl, blank⟩
  | cons first rest =>
      obtain ⟨pieces, whole, covers⟩ := Lexeme.exists_pieces (by simp) spelled
      obtain rfl := List.append_cancel_right whole
      have each : List.Forall₂ (fun form piece => Covers (lexemes form) piece)
          (first :: rest) pieces :=
        List.forall₂_map_left_iff.mp covers
      have nonempty : pieces ≠ [] := by
        rintro rfl
        cases each
      exact Or.inr ⟨pieces, nonempty, rfl, each.imp fun _ _ => Writes.of_covers⟩

/-- A spelled list of parameters is read as the parameters. -/
theorem readAll_of_spelled (policy : ExtractionPolicy) (scope : NameScope)
    {forms : List ParameterForm} (wellFormed : ∀ form ∈ forms, form.isWellFormed = true) {t : Text}
    (spelled : Spelled (listLexemes forms ++ [near [')']]) (t ++ [')'])) :
    Parameter.readAll policy scope t = forms.map (declared policy scope) :=
  readAll_of_listWrites policy scope (fun form member =>
    isReadable_of_isWellFormed (wellFormed form member))
    (ListWrites.of_spelled spelled)

end

end ParameterForm
end Testwright
