import Testwright.Proofs.Testing.Statement
import Testwright.Proofs.Text.BreakStyle

namespace Testwright

/-!
# Generated lines without line breaks

Where no string of a style and of a class breaks a line, neither does a line of a
generated test (`TestPlan.unbroken_of_mem_testLines`): a test is written with the names
of the class, the marks of the style, placeholders and fixed words, and the only line
breaks in it are the ones between its lines.
-/

open Text (Unbroken)

/-! ## Strings without line breaks -/

namespace TypeTree

mutual

/-- Whether no node of the type has a line break in its name. -/
def isUnbroken : TypeTree → Bool
  | ⟨name, arguments, _, _⟩ => decide (Unbroken name) && areUnbroken arguments

def areUnbroken : List TypeTree → Bool
  | [] => true
  | type :: types => isUnbroken type && areUnbroken types

end

theorem unbroken_brackets (dimensions : Nat) : Unbroken (brackets dimensions) := by
  intro c member
  rcases List.mem_flatten.mp member with ⟨pair, isPair, inside⟩
  rw [List.eq_of_mem_replicate isPair] at inside
  exact (by decide : Unbroken "[]".toList) c inside

mutual

theorem unbroken_render {type : TypeTree} (unbroken : type.isUnbroken = true) :
    Unbroken type.render := by
  rcases type with ⟨name, arguments, dimensions, token⟩
  rw [isUnbroken, Bool.and_eq_true, decide_eq_true_iff] at unbroken
  cases arguments with
  | nil =>
      rw [render]
      exact unbroken.1.append (unbroken_brackets dimensions)
  | cons first rest =>
      rw [areUnbroken, Bool.and_eq_true] at unbroken
      simp only [render, Unbroken, List.forall_mem_append, List.forall_mem_cons]
      exact ⟨⟨unbroken.1, by decide, unbroken_render unbroken.2.1,
        unbroken_renderRest unbroken.2.2⟩, by decide, unbroken_brackets dimensions⟩

theorem unbroken_renderRest {types : List TypeTree} (unbroken : areUnbroken types = true) :
    Unbroken (renderRest types) := by
  cases types with
  | nil => exact fun _ member => absurd member List.not_mem_nil
  | cons type types =>
      rw [areUnbroken, Bool.and_eq_true] at unbroken
      simp only [renderRest, Unbroken, List.forall_mem_append, List.forall_mem_cons]
      exact ⟨by decide, by decide, unbroken_render unbroken.1, unbroken_renderRest unbroken.2⟩

end

/-- A token that names the packages has no line break, whatever the name of its type. -/
theorem unbroken_qualifiedToken (type : TypeTree) : Unbroken type.qualifiedToken := by
  have sanitized (t : Text) : Unbroken (Token.sanitize t) := by
    intro c member
    rcases List.mem_map.mp member with ⟨d, -, rfl⟩
    split
    · rename_i kept
      exact ⟨fun same => absurd (same ▸ kept) (by decide),
        fun same => absurd (same ▸ kept) (by decide)⟩
    · decide
  have marks (dimensions : Nat) : Unbroken (Token.arrayMarks dimensions) := fun c member =>
    (by decide : Unbroken "Array".toList) c (Token.mem_arrayMarks member)
  exact ((sanitized _).append (marks _)).append (marks type.dimensions)

end TypeTree

/-- No string of the method that its test shows breaks a line. -/
structure Method.IsUnbroken (method : Method) : Prop where
  name : Unbroken method.name
  parameterNames : ∀ name ∈ method.parameterNames, Unbroken name
  parameterTypes : ∀ type ∈ method.parameterTypes, type.isUnbroken = true ∧ Unbroken type.token
  returnType : ∀ type, method.returnType = some type → type.isUnbroken = true

def Subject.IsUnbroken : Subject → Prop
  | .method _ exercised => exercised.IsUnbroken
  | _ => True

/-- No string of the class that its tests show breaks a line. -/
structure ClassSurface.IsUnbroken (target : ClassSurface) : Prop where
  name : Unbroken target.name
  imports : ∀ imported ∈ target.imports, Unbroken imported
  methods : ∀ method ∈ target.methods, method.IsUnbroken

theorem ClassSurface.isUnbroken_named {name : Text} (unbroken : Unbroken name) :
    (ClassSurface.named name).IsUnbroken where
  name := unbroken
  imports := by simp [ClassSurface.named]
  methods := by simp [ClassSurface.named]

/-- No string of the style breaks a line, its line separator aside. -/
structure TestStyle.IsUnbroken (style : TestStyle) : Prop where
  indent : Unbroken style.indent
  legacyPrefix : Unbroken style.legacyPrefix
  parametersMark : Unbroken style.parametersMark
  tokenMark : Unbroken style.tokenMark
  todoComment : ∀ line, style.todoComment = some line → Unbroken line

theorem TestStyle.isUnbroken_modern : TestStyle.modern.IsUnbroken where
  indent := by decide
  legacyPrefix := by decide
  parametersMark := by decide
  tokenMark := by decide
  todoComment := by
    rintro line same
    rcases Option.some.inj same with rfl
    decide

namespace TestPlan

/-! ## Names of tests -/

section Names

variable {style : TestStyle} (marks : style.IsUnbroken) {target : ClassSurface}
  (unbroken : target.IsUnbroken)
include marks

theorem unbroken_nameWith {token : TypeTree → Text} {method : Method} (name : Unbroken method.name)
    (tokens : ∀ type ∈ method.parameterTypes, Unbroken (token type)) :
    Unbroken (nameWith style token method) := by
  rw [nameWith]
  split
  · exact name
  · refine (name.append marks.parametersMark).append fun c member => ?_
    rcases List.mem_flatMap.mp member with ⟨type, inTypes, inside⟩
    exact (marks.tokenMark.append (tokens type inTypes)) c inside

include unbroken

theorem unbroken_of_mem_tests {test : PlannedTest}
    (member : test ∈ (ofSurface style target).tests) :
    Unbroken test.name := by
  rcases name_of_mem_tests member with name | name | ⟨method, inside, name | name⟩ <;> rw [name]
  · decide
  · decide
  · exact unbroken_nameWith marks (unbroken.methods method inside).name fun type inTypes =>
      ((unbroken.methods method inside).parameterTypes type inTypes).2
  · exact unbroken_nameWith marks (unbroken.methods method inside).name fun type _ =>
      type.unbroken_qualifiedToken

omit marks in
theorem subject_isUnbroken {test : PlannedTest} (member : test ∈ (ofSurface style target).tests) :
    test.subject.IsUnbroken := by
  rcases subject_of_mem_tests member with subject | subject | ⟨place, method, inside, subject⟩ <;>
    rw [subject]
  · trivial
  · trivial
  · exact unbroken.methods method inside

end Names

/-! ## Bodies -/

theorem Composed.unbroken {t : Text} (h : Composed t) : Unbroken t :=
  fun c member => (h.plain c member).2

/-- Texts with commas between them. -/
theorem unbroken_commas {texts : List Text} (each : ∀ t ∈ texts, Unbroken t) :
    Unbroken (", ".toList.intercalate texts) := by
  intro c member
  rcases Text.mem_intercalate member with between | ⟨t, inTexts, inside⟩
  · exact (by decide : Unbroken ", ".toList) c between
  · exact each t inTexts c inside

theorem unbroken_variableLine {type : TypeTree} (type_ : type.isUnbroken = true) {name : Text}
    (name_ : Unbroken name) : Unbroken (variableLine type name) := by
  have placeholder := (Composed.placeholder type).unbroken
  simp only [variableLine, Unbroken, List.forall_mem_append, List.forall_mem_cons, and_assoc]
  exact ⟨TypeTree.unbroken_render type_, by decide, by decide, name_, by decide,
    placeholder, by decide⟩

section Body

variable {target : ClassSurface} (name : Unbroken target.name)
include name

theorem unbroken_instantiationLine : Unbroken (instantiationLine target) := by
  have arguments (types : List TypeTree) : Unbroken (placeholders types) :=
    (composed_placeholders types).unbroken
  simp only [instantiationLine, Unbroken, List.forall_mem_append, List.forall_mem_cons, and_assoc]
  exact ⟨name, by decide, name, by decide, by decide, arguments _, by decide⟩

theorem unbroken_callOf {method : Method} (unbroken : method.IsUnbroken) :
    Unbroken (callOf target method) := by
  have receiver : Unbroken (receiverOf target method) := by
    rw [receiverOf]
    split
    · exact name
    · decide
  have arguments : Unbroken (", ".toList.intercalate method.parameterNames) :=
    unbroken_commas unbroken.parameterNames
  simp only [callOf, Unbroken, List.forall_mem_append, List.forall_mem_cons, and_assoc]
  exact ⟨receiver, by decide, by decide, unbroken.name, by decide, by decide, arguments, by decide⟩

theorem unbroken_of_mem_bodyLines {subject : Subject} (unbroken : subject.IsUnbroken) :
    ∀ line ∈ bodyLines target subject, Unbroken line := by
  intro line member
  cases subject with
  | type =>
      rw [bodyLines, List.mem_singleton] at member
      rw [member]
      exact (Unbroken.append (by decide) name).append (by decide)
  | instantiation =>
      rcases List.mem_cons.mp member with rfl | member
      · exact unbroken_instantiationLine name
      · rw [List.mem_singleton.mp member]
        decide
  | method place method =>
      have call := unbroken_callOf name unbroken
      rcases mem_methodLines member with
        rfl | ⟨parameter, inside, rfl⟩ | ⟨-, rfl⟩ | ⟨type, returned, rfl | rfl | rfl⟩
      · exact unbroken_instantiationLine name
      · exact unbroken_variableLine (unbroken.parameterTypes _ (List.of_mem_zip inside).2).1
          (unbroken.parameterNames _ (List.of_mem_zip inside).1)
      · exact call.append (by decide)
      · exact (((TypeTree.unbroken_render (unbroken.returnType type returned)).append
          (by decide)).append call).append
          (by decide)
      · exact unbroken_variableLine (unbroken.returnType type returned) (by decide)
      · exact (composed_comparisonLine type).unbroken

end Body

/-! ## Tests -/

section Lines

variable {style : TestStyle} (marks : style.IsUnbroken) {target : ClassSurface}
  (unbroken : target.IsUnbroken) (convention : Convention)
include marks unbroken

theorem unbroken_of_mem_testLines {test : PlannedTest}
    (member : test ∈ (ofSurface style target).tests) :
    ∀ line ∈ testLines style target convention test, Unbroken line := by
  have name : Unbroken (methodName style convention test) := by
    cases convention with
    | modern => exact unbroken_of_mem_tests marks unbroken member
    | legacy => exact marks.legacyPrefix.append (unbroken_of_mem_tests marks unbroken member)
  have heading :
      Unbroken (style.indent ++ "public void ".toList ++ methodName style convention test ++
      "() throws Exception \x7b".toList) :=
    ((marks.indent.append (by decide)).append name).append (by decide)
  have body : ∀ line ∈ style.todoComment.toList ++ bodyLines target test.subject, Unbroken line :=
    List.forall_mem_append.mpr ⟨fun line inside =>
      marks.todoComment line (Option.mem_toList.mp inside),
      unbroken_of_mem_bodyLines unbroken.name (subject_isUnbroken unbroken member)⟩
  intro line inside
  simp only [testLines, List.mem_append, List.mem_singleton] at inside
  rcases inside with ((inMark | rfl) | inBody) | rfl
  · cases convention with
    | modern =>
        rw [List.mem_singleton.mp inMark]
        exact marks.indent.append (by decide)
    | legacy => cases inMark
  · exact heading
  · rcases List.mem_map.mp inBody with ⟨inner, isInner, rfl⟩
    exact (marks.indent.append marks.indent).append (body inner isInner)
  · exact marks.indent.append (by decide)

/-- Rendered tests break their lines as they are told to. -/
theorem holds_renderTests {breaks : BreakStyle} {tests : List PlannedTest}
    (planned : ∀ test ∈ tests, test ∈ (ofSurface style target).tests) :
    breaks.Holds (renderTests style target convention breaks.separator tests) :=
  BreakStyle.holds_flatMap fun test member =>
    (BreakStyle.holds_joinLines
      (unbroken_of_mem_testLines marks unbroken convention (planned test member))).append
      BreakStyle.holds_separator

end Lines

end TestPlan
end Testwright
