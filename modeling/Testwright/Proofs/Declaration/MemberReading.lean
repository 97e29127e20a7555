import Testwright.Proofs.Declaration.ClassSpelling
import Testwright.Proofs.Declaration.SignatureOrder

namespace Testwright

/-!
# Members read from their areas

Cutting a source into areas goes along with its members: each spelling up to a
body has the one area of the member, or none for a field, and the body has its
own areas.  So the constructors and the methods of a source come member by
member, in order.
-/

open Lexeme (Spelled behindBlank freeFirst led listedLexemes near partFirst)

namespace Member

open Text (Terminated)

theorem terminated_of_last {lexemes : List Lexeme} {c : Char}
    (terminator : Text.isTerminator c = true) {t : Text}
    (spelled : Spelled (lexemes ++ [near [c]]) t) : Terminated t := by
  obtain ⟨s, _, rfl, -, atEnd⟩ := Lexeme.spelled_append.mp spelled
  obtain ⟨gap, rfl, -, -⟩ := Lexeme.spelled_singleton.mp atEnd
  exact Or.inr ⟨s ++ gap, c, by simp, terminator⟩

theorem terminated_of_listed {heading parameters : List Lexeme} {thrown : List Text} {last : Char}
    (isLast : last = '\x7b' ∨ last = ';') {t : Text}
    (spelled : Spelled (listedLexemes heading parameters thrown last) t) : Terminated t := by
  have shape : listedLexemes heading parameters thrown last =
      (heading ++ near ['('] :: (parameters ++ near [')'] :: Lexeme.throwsLexemes thrown)) ++
        [near [last]] := by
    simp [listedLexemes]
  rw [shape] at spelled
  refine terminated_of_last ?_ spelled
  rcases isLast with rfl | rfl <;> decide

theorem terminated_lexemes {className : Text} {member : Member} {t : Text}
    (spelled : Spelled (member.lexemes className) t) : Terminated t := by
  cases member with
  | field type name =>
      have shape : (field type name).lexemes className =
          (near "private".toList :: (partFirst type.lexemes ++ [behindBlank name])) ++
            [near [';']] := by
        simp [lexemes]
      rw [shape] at spelled
      exact terminated_of_last (by decide) spelled
  | constructor form => exact terminated_of_listed (Or.inl rfl) spelled
  | method form => exact terminated_of_listed form.last_eq spelled

theorem terminated_closing (member : Member) : Terminated member.closing := by
  unfold closing
  split
  · next body _ => exact Or.inr ⟨body, '}', rfl, by decide⟩
  · exact Or.inl rfl

end Member

namespace MethodForm

variable {form : MethodForm} (h : form.isWellFormed = true) {s : Text} (noReturn : '\r' ∉ s)
  (spelled : Spelled form.lexemes s)

include h noReturn spelled

theorem exists_area : ∃ area, Text.areas s = [area] ∧ Spelled form.lexemes area := by
  have some : led form.modifiers form.namedLexemes ≠ [] :=
    Lexeme.led_ne_nil form.namedLexemes_ne_nil
  obtain ⟨first, more, shape, free⟩ := Lexeme.exists_freeFirst some
  obtain ⟨area, areas, inArea, -⟩ := Lexeme.exists_area shape free (inner_headingLexemes h)
    (ParameterForm.isList_listLexemes (parts h).parameters).inner
      (parts h).thrown form.last_eq spelled
    noReturn
  exact ⟨area, areas, inArea⟩

/-- The spelling of a method up to its body shows that method. -/
theorem findAll_of_spelled {className : Text} (isClass : Lexeme.IsKeyword className)
    (other : form.name ≠ className) (library : PatternLibrary) (policy : ExtractionPolicy)
    (scope : NameScope) (source : Text) :
    (Signature.findAll s className).map (Method.ofSignature library policy scope source) =
      [form.declared library policy scope source] := by
  obtain ⟨area, areas, inArea⟩ := exists_area h noReturn spelled
  obtain ⟨noShape, -⟩ := not_constructor h isClass other inArea
  have reads := ofSignature_of_spelled h inArea library policy scope source
  obtain ⟨signature, isSignature, method⟩ := Option.map_eq_some_iff.mp reads
  rw [Signature.findAll, areas, List.filter_cons_of_pos (by simp [noShape]), List.filter_nil,
    List.filterMap_cons_some isSignature, List.filterMap_nil, List.map_singleton, method]

end MethodForm

namespace Member

open Declaration (isIdentifier)

/-- What the spelling of a member up to its body gives. -/
structure Shows (className : Text) (member : Member) (s : Text) : Prop where
  constructors : ∀ policy scope,
    (Text.areas s).filterMap (Constructor.ofArea? policy scope className) =
    member.ownConstructors policy scope
  methods : ∀ library policy scope source,
    (Signature.findAll s className).map (Method.ofSignature library policy scope source) =
      member.ownMethods library policy scope source

section

variable {className : Text} (isClass : isIdentifier className = true) {s : Text}
  (noReturn : '\r' ∉ s)

theorem shows_field {type : TypeTree} {name : Text} (h : type.isDeclared = true)
    (isName : isIdentifier name = true)
    (spelled : Spelled ((field type name).lexemes className) s) :
    Shows className (field type name) s := by
  have inner : ∀ l ∈ (field type name).lexemes className, '(' ∉ l.text := by
    have absent : ∀ {l : Lexeme}, Lexeme.IsInner l → '(' ∉ l.text := fun isInner member =>
      absurd (isInner.undivided _ member) (by decide)
    have inType := Lexeme.plain_partFirst (TypeTree.plain_lexemes type
      (TypeTree.isSpellable_of_isDeclared h)).1
    have isName' := (Lexeme.isPlain_of_isIdentifier (l := behindBlank name) isName).1
    simp only [lexemes, List.forall_mem_cons, List.forall_mem_append, List.not_mem_nil,
      false_imp_iff, implies_true, and_true]
    exact ⟨by decide, fun l member => absent (inType l member).1, absent isName', by decide⟩
  have none : '(' ∉ s := fun member => spelled.forall_mem (P := (· ≠ '('))
    (fun c blank same => by subst same; cases blank)
    (fun l inLexemes c inText same => inner l inLexemes (same ▸ inText)) _ member rfl
  have noAreas := Text.areas_eq_nil_of_not_mem none
  refine ⟨fun policy scope => by rw [noAreas]; rfl, fun library policy scope source => ?_⟩
  rw [Signature.findAll, noAreas]
  rfl

include isClass noReturn

theorem shows_constructor {form : ConstructorForm} (h : form.isWellFormed = true)
    (spelled : Spelled (form.lexemes className) s) : Shows className (constructor form) s := by
  have parts := ConstructorForm.parts h
  have some : led form.access [near className] ≠ [] := Lexeme.led_ne_nil (List.cons_ne_nil _ [])
  obtain ⟨first, more, shape, free⟩ := Lexeme.exists_freeFirst some
  obtain ⟨area, areas, inArea, stops⟩ := Lexeme.exists_area shape free
    (ConstructorForm.inner_headingLexemes h isClass)
    (ParameterForm.isList_listLexemes parts.parameters).inner parts.thrown
      (Or.inl rfl) spelled noReturn
  refine ⟨fun policy scope => ?_, fun library policy scope source => ?_⟩
  · rw [areas, List.filterMap_cons_some
      (ConstructorForm.ofArea?_of_spelled h isClass inArea stops policy scope)]
    rfl
  · rw [Signature.findAll, areas, List.filter_cons_of_neg, List.filter_nil]
    · rfl
    · simp [ConstructorForm.isConstructorArea_of_spelled h isClass inArea]

theorem shows_method {form : MethodForm} (h : form.isWellFormed = true)
    (other : form.name ≠ className) (spelled : Spelled form.lexemes s) :
    Shows className (method form) s := by
  have isClass := ConstructorForm.isKeyword_of_isIdentifier isClass
  obtain ⟨area, areas, inArea⟩ := MethodForm.exists_area h noReturn spelled
  obtain ⟨-, noConstructor⟩ := MethodForm.not_constructor h isClass other inArea
  refine ⟨fun policy scope => ?_, MethodForm.findAll_of_spelled h noReturn spelled isClass other⟩
  rw [areas, List.filterMap_cons_none (noConstructor policy scope)]
  rfl

theorem shows {member : Member} (h : member.isWellFormed className = true)
    (spelled : Spelled (member.lexemes className) s) : Shows className member s := by
  cases member with
  | field type name =>
      simp only [isWellFormed, Bool.and_eq_true] at h
      exact shows_field h.1.1 h.1.2 spelled
  | constructor form =>
      simp only [isWellFormed, Bool.and_eq_true] at h
      exact shows_constructor isClass noReturn h.1 spelled
  | method form =>
      simp only [isWellFormed, Bool.and_eq_true, bne_iff_ne] at h
      exact shows_method isClass noReturn h.1.1 h.1.2 spelled

end

/-- The members of a class are read in order, each in front of its body. -/
theorem reads_of_written {className : Text} (isClass : isIdentifier className = true)
    {members : List Member} (h : ∀ member ∈ members, member.isWellFormed className = true)
    {t : Text} (written : Written className members t) (noReturn : '\r' ∉ t) (rest : Text)
    (policy : ExtractionPolicy) (scope : NameScope) :
    (Text.areas (t ++ rest)).filterMap (Constructor.ofArea? policy scope className) =
        members.flatMap (constructors policy scope className) ++
          (Text.areas rest).filterMap (Constructor.ofArea? policy scope className) ∧
      ∀ library source,
        (Signature.findAll (t ++ rest) className).map
          (Method.ofSignature library policy scope source) =
          members.flatMap (methods library policy scope className source) ++
            (Signature.findAll rest className).map
              (Method.ofSignature library policy scope source) := by
  induction members generalizing t with
  | nil =>
      cases written
      exact ⟨rfl, fun library source => rfl⟩
  | cons member members ih =>
      obtain ⟨s, later, rfl, spelled, others⟩ := written
      simp only [List.mem_append, not_or] at noReturn
      have here := shows isClass noReturn.1 (h member List.mem_cons_self) spelled
      obtain ⟨constructorsRest, methodsRest⟩ := ih
        (fun other inRest => h other (List.mem_cons_of_mem member inRest)) others noReturn.2.2
      have shape : s ++ (member.closing ++ later) ++ rest =
          s ++ (member.closing ++ (later ++ rest)) := by
        simp
      refine ⟨?_, fun library source => ?_⟩
      · rw [shape, Text.areas_terminated_append (terminated_lexemes spelled),
          Text.areas_terminated_append member.terminated_closing, List.filterMap_append,
          List.filterMap_append, here.constructors, constructorsRest]
        simp [constructors]
      · rw [shape, Signature.findAll_terminated_append (terminated_lexemes spelled),
          Signature.findAll_terminated_append member.terminated_closing, List.map_append,
          List.map_append, here.methods, methodsRest]
        simp [methods]

end Member

namespace ClassForm

open Text (Blank)

theorem terminated_statements {form : ClassForm} {t : Text}
    (spelled : Spelled form.statementLexemes t) :
    Text.Terminated t := by
  obtain ⟨a, b, rfl, inPackage, inImports⟩ := Lexeme.spelled_append.mp spelled
  have package : Text.Terminated a := by
    cases name : form.package with
    | none =>
        rw [name] at inPackage
        exact Or.inl inPackage
    | some name' =>
        rw [name] at inPackage
        have inPackage' : Spelled ([near "package".toList, behindBlank name'] ++ [near [';']]) a :=
          inPackage
        exact Member.terminated_of_last (by decide) inPackage'
  have imports : ∀ (statements : List ImportForm) (t : Text),
      Spelled (statements.flatMap ImportForm.lexemes) t → Text.Terminated t := by
    intro statements
    induction statements with
    | nil => exact fun t spelled => Or.inl spelled
    | cons statement statements ih =>
        intro t spelled
        obtain ⟨s, u, rfl, first, others⟩ := Lexeme.spelled_append.mp spelled
        have shape : statement.lexemes = near "import".toList ::
            ((if statement.isStatic then [behindBlank "static".toList] else []) ++
              behindBlank statement.path :: if statement.isWildcard then [near ".*".toList]
                else []) ++
            [near [';']] := by
          simp [ImportForm.lexemes]
        rw [shape] at first
        exact (Member.terminated_of_last (by decide) first).append (ih u others)
  exact package.append (imports form.imports b inImports)

/-- Nothing in front of the members of a class looks like a member. -/
theorem areas_front {form : ClassForm} (h : form.isWellFormed = true) {a b : Text}
    (inStatements : Spelled form.statementLexemes a) (inHeader : Spelled form.headerLexemes b) :
    Text.Terminated (a ++ b) ∧ Text.areas (a ++ b) = [] := by
  have noStatement : ∀ l ∈ form.statementLexemes, '(' ∉ l.text := by
    intro l member inText
    rcases inner_statementLexemes h l member with inner | isMark
    · exact absurd (inner.undivided _ inText) (by decide)
    · exact (by decide : ∀ t ∈ [[';'], ".*".toList], '(' ∉ t) l.text isMark inText
  have absent : ∀ {lexemes : List Lexeme} {s : Text}, (∀ l ∈ lexemes, '(' ∉ l.text) →
      Spelled lexemes s → '(' ∉ s := fun none spelled member =>
    spelled.forall_mem (P := (· ≠ '(')) (fun c blank same => by subst same; cases blank)
      (fun l inLexemes c inText same => none l inLexemes (same ▸ inText)) _ member rfl
  have noHeader : ∀ l ∈ form.headerLexemes, '(' ∉ l.text := by
    refine List.forall_mem_append.mpr ⟨fun l member inText => ?_, by decide⟩
    exact absurd ((inner_headerLexemes h l member).undivided _ inText) (by decide)
  have inFront : '(' ∉ a ++ b := by
    simp only [List.mem_append, not_or]
    exact ⟨absent noStatement inStatements, absent noHeader inHeader⟩
  refine ⟨?_, Text.areas_eq_nil_of_not_mem inFront⟩
  obtain ⟨s, _, rfl, -, atEnd⟩ := Lexeme.spelled_append.mp inHeader
  obtain ⟨gap, rfl, -, -⟩ := Lexeme.spelled_singleton.mp atEnd
  exact Or.inr ⟨a ++ (s ++ gap), '\x7b', by simp, by decide⟩

/-- Constructors and methods of a written class come from its members alone. -/
theorem reads_of_written {form : ClassForm} (h : form.isWellFormed = true) {t : Text}
    (written : form.Written t) (noReturn : '\r' ∉ t) (policy : ExtractionPolicy)
    (scope : NameScope) :
    (Text.areas t).filterMap (Constructor.ofArea? policy scope form.name) =
        form.members.flatMap (Member.constructors policy scope form.name) ∧
      ∀ library source,
        (Signature.findAll t form.name).map (Method.ofSignature library policy scope source) =
          form.members.flatMap (Member.methods library policy scope form.name source) := by
  obtain ⟨a, b, c, gap, gap', rfl, inStatements, inHeader, inMembers, blank, blank'⟩ := written
  simp only [List.mem_append, not_or] at noReturn
  have inBack : '(' ∉ gap ++ '}' :: gap' := by
    simp only [List.mem_append, List.mem_cons, not_or]
    exact ⟨fun member => absurd (blank _ member) (by decide), by decide,
      fun member => absurd (blank' _ member) (by decide)⟩
  obtain ⟨terminated, noFront⟩ := areas_front h inStatements inHeader
  obtain ⟨constructors, methods⟩ :=
    Member.reads_of_written (parts h).name (parts h).members inMembers
    noReturn.2.2.1 (gap ++ '}' :: gap') policy scope
  rw [← List.append_assoc, Text.areas_terminated_append terminated, noFront, List.nil_append,
    constructors, Text.areas_eq_nil_of_not_mem inBack, List.filterMap_nil, List.append_nil]
  refine ⟨rfl, fun library source => ?_⟩
  have noSignature : Signature.findAll (a ++ b) form.name = [] := by
    rw [Signature.findAll, noFront]
    rfl
  have noBack : Signature.findAll (gap ++ '}' :: gap') form.name = [] := by
    rw [Signature.findAll, Text.areas_eq_nil_of_not_mem inBack]
    rfl
  rw [Signature.findAll_terminated_append terminated, noSignature, List.nil_append, methods, noBack,
    List.map_nil, List.append_nil]

end ClassForm
end Testwright
