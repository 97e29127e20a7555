import Testwright.Proofs.Declaration.Name
import Testwright.Proofs.Testing.Statement

namespace Testwright
namespace TestPlan

/-!
# Local variables of generated bodies

A line of a body declares a variable if something is assigned in it, and then
the word in front of the equals sign is the name.  Read in this way, the body
of a test declares the object under test, the parameters in order, and the two
results that are compared.

The names of the parameters come from the class and those of the others are
fixed, so a parameter may have the name of another variable of its body.  That
is the one way in which a body declares a name twice (`nodup_locals_iff`).
-/

open Character (isBlank isNamePart)
open Declaration (isIdentifier)

/-- A local variable with its type and its first value, as they are written. -/
structure LocalVariable where
  type : Text
  name : Text
  value : Text

namespace LocalVariable

/-- The statement that declares the variable. -/
def line (declared : LocalVariable) : Text :=
  declared.type ++ ' ' :: declared.name ++ " = ".toList ++ declared.value ++ ";".toList

/-- The variable that a line declares: its name is the last word in front of the
first equals sign. -/
def ofLine? (line : Text) : Option LocalVariable := do
  let assigned ← Text.cutAt? '=' line
  let declared ← Text.cutAtLast? ' ' (Text.trimEnd assigned.1)
  return ⟨declared.1, declared.2, assigned.2.tail.dropLast⟩

theorem ofLine?_eq_none {line : Text} (absent : '=' ∉ line) : ofLine? line = none := by
  rw [ofLine?, Text.cutAt?_eq_none absent]
  rfl

theorem ofLine?_line (declared : LocalVariable) (absent : '=' ∉ declared.type)
    (identifier : isIdentifier declared.name = true) : ofLine? declared.line = some declared := by
  obtain ⟨type, name, value⟩ := declared
  have parts := Declaration.isNamePart_of_isIdentifier identifier
  have noSpace : ' ' ∉ name := fun member => absurd (parts ' ' member) (by decide)
  have noEquals : '=' ∉ type ++ ' ' :: name ++ [' '] := by
    simp only [List.mem_append, List.mem_cons, List.not_mem_nil, not_or, or_false]
    exact ⟨⟨absent, by decide, fun member => absurd (parts '=' member) (by decide)⟩, by decide⟩
  have shape : line ⟨type, name, value⟩ =
      (type ++ ' ' :: name ++ [' ']) ++ '=' :: (' ' :: (value ++ [';'])) := by
    simp [line]
  have front : Text.trimEnd (type ++ ' ' :: name ++ [' ']) = type ++ ' ' :: name := by
    rw [Text.trimEnd_append (Text.blank_singleton (by decide))]
    apply Text.trimEnd_of_back
    intro c last
    rw [List.getLast?_append_of_ne_nil _ (by simp),
      List.getLast?_cons_of_ne_nil (Declaration.isIdentifier_ne_nil identifier)] at last
    exact Character.not_isBlank_of_isNamePart (parts c (List.mem_of_getLast? last))
  rw [ofLine?, shape, Text.cutAt?_append noEquals]
  simp only [Option.bind_eq_bind, Option.bind_some, front, Text.cutAtLast?_append noSpace]
  simp

end LocalVariable

/-- The variables that lines declare, in order. -/
def localsOf (lines : List Text) : List LocalVariable :=
  lines.filterMap LocalVariable.ofLine?

/-! ## The variables of a body -/

/-- The object under test. -/
def objectOf (target : ClassSurface) : LocalVariable where
  type := target.name
  name := "target".toList
  value := "new ".toList ++ target.name ++ '(' ::
    placeholders ((target.preferredConstructor?.map Constructor.parameterTypes).getD []) ++
      ")".toList

/-- A variable of the type with its placeholder. -/
def placeholderOf (type : TypeTree) (name : Text) : LocalVariable where
  type := type.render
  name := name
  value := type.placeholder

/-- The result of the call, and the one that it is compared with. -/
def resultsOf (target : ClassSurface) (method : Method) : List LocalVariable :=
  match method.returnType with
  | none => []
  | some type =>
      [⟨type.render, "actual".toList, callOf target method⟩, placeholderOf type "expected".toList]

/-- The variables of the body of a test. -/
def bodyLocals (target : ClassSurface) : Subject → List LocalVariable
  | .type => []
  | .instantiation => [objectOf target]
  | .method _ method =>
      (if method.isStatic then [] else [objectOf target]) ++
        (method.parameters.map fun parameter => placeholderOf parameter.2 parameter.1) ++
        resultsOf target method

/-- No name that the tests of the class write has an equals sign in it. -/
structure IsLegible (target : ClassSurface) : Prop where
  name : '=' ∉ target.name
  methodNames : ∀ method ∈ target.methods, '=' ∉ method.name
  parameterTypes : ∀ method ∈ target.methods, ∀ type ∈ method.parameterTypes, '=' ∉ type.render
  returnType : ∀ method ∈ target.methods, ∀ type, method.returnType = some type → '=' ∉ type.render

/-- The parameters of the method have distinct names, and each has a type. -/
structure HasDistinctParameters (method : Method) : Prop where
  identifiers : ∀ name ∈ method.parameterNames, isIdentifier name = true
  distinct : method.parameterNames.Nodup
  typed : method.parameterNames.length = method.parameterTypes.length

section

variable {target : ClassSurface} (legible : IsLegible target)
include legible

theorem ofLine?_instantiationLine :
    LocalVariable.ofLine? (instantiationLine target) = some (objectOf target) := by
  have same : instantiationLine target = (objectOf target).line := by
    simp [instantiationLine, LocalVariable.line, objectOf]
  have identifier : isIdentifier "target".toList = true := by decide
  rw [same]
  exact LocalVariable.ofLine?_line (objectOf target) legible.name identifier

omit legible in
theorem ofLine?_variableLine {type : TypeTree} (absent : '=' ∉ type.render) {name : Text}
    (identifier : isIdentifier name = true) :
    LocalVariable.ofLine? (variableLine type name) = some (placeholderOf type name) :=
  LocalVariable.ofLine?_line (placeholderOf type name) absent identifier

omit legible in
theorem ofLine?_comparisonLine (type : TypeTree) :
    LocalVariable.ofLine? (comparisonLine type) = none := by
  have either : ∀ inexact : Bool, '=' ∉ "assertEquals(expected, actual".toList ++
      (if inexact then ", 0.0".toList else []) ++ ");".toList := by decide
  exact LocalVariable.ofLine?_eq_none (either _)

variable {method : Method} (inClass : method ∈ target.methods)
  (parameters : HasDistinctParameters method)
include inClass parameters

theorem equals_not_mem_callOf : '=' ∉ callOf target method := by
  have receiver : '=' ∉ receiverOf target method := by
    unfold receiverOf
    split
    · exact legible.name
    · decide
  have arguments : '=' ∉ ", ".toList.intercalate method.parameterNames := by
    intro member
    rcases Text.mem_intercalate member with between | ⟨name, isName, inside⟩
    · exact absurd between (by decide)
    · exact absurd
        (Declaration.isNamePart_of_isIdentifier (parameters.identifiers name isName) '=' inside)
        (by decide)
  simp only [callOf, List.mem_append, List.mem_cons, not_or]
  exact ⟨⟨⟨receiver, by decide, legible.methodNames method inClass⟩, by decide, arguments⟩,
    by decide⟩

/-- What the lines in front of the call declare. -/
theorem localsOf_front :
    localsOf ((if method.isStatic then [] else [instantiationLine target]) ++
        method.parameters.map fun parameter => variableLine parameter.2 parameter.1) =
      (if method.isStatic then [] else [objectOf target]) ++
        method.parameters.map fun parameter => placeholderOf parameter.2 parameter.1 := by
  have object : localsOf (if method.isStatic then [] else [instantiationLine target]) =
      if method.isStatic then [] else [objectOf target] := by
    split
    · rfl
    · simp [localsOf, ofLine?_instantiationLine legible]
  have each : ∀ parameter ∈ method.parameters,
      LocalVariable.ofLine? (variableLine parameter.2 parameter.1) =
        some (placeholderOf parameter.2 parameter.1) := by
    intro parameter member
    have inside := List.of_mem_zip member
    exact ofLine?_variableLine (legible.parameterTypes method inClass parameter.2 inside.2)
      (parameters.identifiers parameter.1 inside.1)
  have declared :
      localsOf (method.parameters.map fun parameter => variableLine parameter.2 parameter.1) =
      method.parameters.map fun parameter => placeholderOf parameter.2 parameter.1 := by
    rw [localsOf, List.filterMap_map]
    exact (List.filterMap_congr each).trans (congrFun List.filterMap_eq_map' _)
  rw [localsOf, List.filterMap_append, ← localsOf, ← localsOf, object, declared]

/-- The lines from the call on. -/
def callLines (target : ClassSurface) (method : Method) : List Text :=
  match method.returnType with
  | none => [callOf target method ++ ";".toList]
  | some type =>
      [type.render ++ " actual = ".toList ++ callOf target method ++ ";".toList,
        variableLine type "expected".toList, comparisonLine type]

omit legible inClass parameters in
theorem methodLines_eq (target : ClassSurface) (method : Method) :
    methodLines target method =
      ((if method.isStatic then [] else [instantiationLine target]) ++
        method.parameters.map fun parameter => variableLine parameter.2 parameter.1) ++
        callLines target method := by
  unfold methodLines callLines
  cases method.returnType <;> rfl

theorem localsOf_callLines : localsOf (callLines target method) = resultsOf target method := by
  have noEquals := equals_not_mem_callOf legible inClass parameters
  cases returned : method.returnType with
  | none =>
      have silent : LocalVariable.ofLine? (callOf target method ++ ";".toList) = none :=
        LocalVariable.ofLine?_eq_none (by
          simp only [List.mem_append, not_or]
          exact ⟨noEquals, by decide⟩)
      simp only [localsOf, callLines, resultsOf, returned, List.filterMap_cons,
        List.filterMap_nil, silent]
  | some type =>
      have absent := legible.returnType method inClass type returned
      have identifier : isIdentifier "actual".toList = true := by decide
      have shape : type.render ++ " actual = ".toList ++ callOf target method ++ ";".toList =
          (LocalVariable.mk type.render "actual".toList (callOf target method)).line := by
        simp [LocalVariable.line]
      have actual := LocalVariable.ofLine?_line ⟨type.render, "actual".toList, callOf target method⟩
        absent identifier
      rw [← shape] at actual
      have identifier' : isIdentifier "expected".toList = true := by decide
      have expected := ofLine?_variableLine absent identifier'
      simp only [localsOf, callLines, resultsOf, returned, List.filterMap_cons, List.filterMap_nil,
        actual, expected, ofLine?_comparisonLine]

theorem localsOf_methodLines (place : Nat) :
    localsOf (bodyLines target (.method place method)) =
      bodyLocals target (.method place method) := by
  rw [bodyLines, methodLines_eq, localsOf, List.filterMap_append, ← localsOf, ← localsOf,
    localsOf_front legible inClass parameters, localsOf_callLines legible inClass parameters]
  rfl

end

/-! ## Names that are declared twice -/

/-- The names of the parameters of a test. -/
def parameterNamesOf : Subject → List Text
  | .method _ method => method.parameterNames
  | _ => []

/-- The names that the body of a test declares on its own. -/
def ownNamesOf : Subject → List Text
  | .type => []
  | .instantiation => ["target".toList]
  | .method _ method =>
      (if method.isStatic then [] else ["target".toList]) ++
        (if method.isVoid then [] else ["actual".toList, "expected".toList])

theorem nodup_ownNamesOf (subject : Subject) : (ownNamesOf subject).Nodup := by
  cases subject with
  | type => decide
  | instantiation => decide
  | method place method =>
      have each : ∀ isStatic isVoid : Bool, ((if isStatic then [] else ["target".toList]) ++
          (if isVoid then [] else ["actual".toList, "expected".toList])).Nodup := by decide
      exact each _ _

/-- The body of a test declares the names of the parameters and its own ones. -/
theorem map_name_bodyLocals_perm (target : ClassSurface) {subject : Subject}
    (typed : ∀ place method, subject = .method place method →
      method.parameterNames.length = method.parameterTypes.length) :
    ((bodyLocals target subject).map LocalVariable.name).Perm
      (parameterNamesOf subject ++ ownNamesOf subject) := by
  cases subject with
  | type => exact .refl _
  | instantiation => exact .refl _
  | method place method =>
      have names : (method.parameters.map fun parameter =>
          (placeholderOf parameter.2 parameter.1).name) = method.parameterNames :=
        List.map_fst_zip (typed place method rfl).le
      have results : (resultsOf target method).map LocalVariable.name =
          if method.isVoid then [] else ["actual".toList, "expected".toList] := by
        unfold resultsOf Method.isVoid
        cases method.returnType <;> rfl
      have object : ((if method.isStatic then [] else [objectOf target]).map LocalVariable.name) =
          if method.isStatic then [] else ["target".toList] := by
        split <;> rfl
      simp only [bodyLocals, List.map_append, List.map_map, Function.comp_def, names, results,
        object, parameterNamesOf, ownNamesOf]
      rw [← List.append_assoc]
      exact (List.perm_append_comm).append_right _

theorem nodup_bodyLocals_iff (target : ClassSurface) {subject : Subject}
    (typed : ∀ place method, subject = .method place method →
      method.parameterNames.length = method.parameterTypes.length)
    (distinct : (parameterNamesOf subject).Nodup) :
    ((bodyLocals target subject).map LocalVariable.name).Nodup ↔
      ∀ name ∈ parameterNamesOf subject, name ∉ ownNamesOf subject := by
  rw [(map_name_bodyLocals_perm target typed).nodup_iff, List.nodup_append]
  constructor
  · rintro ⟨-, -, apart⟩ name isParameter isOwn
    exact apart name isParameter name isOwn rfl
  · intro apart
    refine ⟨distinct, nodup_ownNamesOf subject, ?_⟩
    rintro name isParameter _ isOwn rfl
    exact apart name isParameter isOwn

/-- In front of the call of a method stands a variable for each argument, with
the type of the parameter and its placeholder. -/
theorem exists_methodLines {target : ClassSurface} (legible : IsLegible target) {method : Method}
    (inClass : method ∈ target.methods) (parameters : HasDistinctParameters method) :
    ∃ before start after,
      methodLines target method = before ++ (start ++ callOf target method ++ ";".toList) :: after ∧
      List.Forall₂ (fun name type => placeholderOf type name ∈ localsOf before)
        method.parameterNames method.parameterTypes := by
  have front := localsOf_front legible inClass parameters
  have declared : List.Forall₂ (fun name type => placeholderOf type name ∈
      localsOf ((if method.isStatic then [] else [instantiationLine target]) ++
        method.parameters.map fun parameter => variableLine parameter.2 parameter.1))
      method.parameterNames method.parameterTypes := by
    rw [front, List.forall₂_iff_zip]
    refine ⟨parameters.typed, ?_⟩
    intro name type member
    exact List.mem_append_right _ (List.mem_map.mpr ⟨(name, type), member, rfl⟩)
  rw [methodLines_eq]
  unfold callLines
  cases method.returnType with
  | none => exact ⟨_, [], [], by simp, declared⟩
  | some type =>
      exact ⟨_, type.render ++ " actual = ".toList,
        [variableLine type "expected".toList, comparisonLine type], by simp, declared⟩

/-- The lines of a test method hold its body between a front that does not
depend on the body and the closing brace. -/
theorem exists_testLines (style : TestStyle) (target : ClassSurface) (convention : Convention)
    (name : Text) :
    ∃ opening, ∀ subject, testLines style target convention ⟨subject, name⟩ =
      opening ++ (bodyLines target subject).map
        (fun line => style.indent ++ style.indent ++ line) ++
        [style.indent ++ ['}']] := by
  cases convention with
  | modern =>
      refine ⟨[style.indent ++ "@Test".toList,
        style.indent ++ "public void ".toList ++ name ++ "() throws Exception \x7b".toList] ++
        style.todoComment.toList.map (fun line => style.indent ++ style.indent ++ line),
        fun subject => ?_⟩
      simp [testLines, methodName]
  | legacy =>
      refine ⟨[style.indent ++ "public void ".toList ++ (style.legacyPrefix ++ name) ++
        "() throws Exception \x7b".toList] ++
        style.todoComment.toList.map (fun line => style.indent ++ style.indent ++ line),
        fun subject => ?_⟩
      simp [testLines, methodName]

theorem localsOf_bodyLines {target : ClassSurface} (legible : IsLegible target)
    (parameters : ∀ method ∈ target.methods, HasDistinctParameters method) {subject : Subject}
    (inClass : ∀ place method, subject = .method place method → method ∈ target.methods) :
    localsOf (bodyLines target subject) = bodyLocals target subject := by
  cases subject with
  | type =>
      have silent :
          LocalVariable.ofLine? ("assertNotNull(".toList ++ target.name ++ ".class);".toList) =
            none := by
        apply LocalVariable.ofLine?_eq_none
        simp only [List.mem_append, not_or]
        exact ⟨⟨by decide, legible.name⟩, by decide⟩
      simp only [localsOf, bodyLines, bodyLocals, List.filterMap_cons, List.filterMap_nil, silent]
  | instantiation =>
      have silent : LocalVariable.ofLine? "assertNotNull(target);".toList = none :=
        LocalVariable.ofLine?_eq_none (by decide)
      simp only [localsOf, bodyLines, bodyLocals, List.filterMap_cons, List.filterMap_nil,
        ofLine?_instantiationLine legible, silent]
  | method place method =>
      have inside := inClass place method rfl
      exact localsOf_methodLines legible inside (parameters method inside) place

/-- The method that a planned test is about is a method of the class. -/
theorem mem_of_planned {style : TestStyle} {target : ClassSurface} {test : PlannedTest}
    (planned : test ∈ (ofSurface style target).tests) {place : Nat} {method : Method}
    (about : test.subject = .method place method) : method ∈ target.methods := by
  simp only [ofSurface, List.mem_cons, List.mem_map] at planned
  rcases planned with rfl | rfl | ⟨entry, member, rfl⟩
  · cases about
  · cases about
  · cases about
    exact List.fst_mem_of_mem_zipIdx (List.of_mem_zip member).1

/-- The body of a planned test stands in what is written for the test, whatever
the convention, and declares the object under test, the parameters and the
results.  The call of a method takes variables that are declared in front of
it.  A name is declared twice just if a parameter has the name of one of the
other variables. -/
theorem nodup_locals_iff {style : TestStyle} {target : ClassSurface} (legible : IsLegible target)
    (parameters : ∀ method ∈ target.methods, HasDistinctParameters method) {test : PlannedTest}
    (planned : test ∈ (ofSurface style target).tests) :
    (∀ convention separator, ∃ opening, ∀ subject,
      renderTest style target convention separator ⟨subject, test.name⟩ =
        joinLines separator (opening ++
          (bodyLines target subject).map (fun line => style.indent ++ style.indent ++ line) ++
          [style.indent ++ ['}']])) ∧
    localsOf (bodyLines target test.subject) = bodyLocals target test.subject ∧
    (∀ place method, test.subject = .method place method →
      ∃ before start after,
        bodyLines target test.subject =
          before ++ (start ++ callOf target method ++ ";".toList) :: after ∧
        List.Forall₂ (fun name type => placeholderOf type name ∈ localsOf before)
          method.parameterNames method.parameterTypes) ∧
    (((localsOf (bodyLines target test.subject)).map LocalVariable.name).Nodup ↔
      ∀ name ∈ parameterNamesOf test.subject, name ∉ ownNamesOf test.subject) := by
  have inClass : ∀ place method, test.subject = .method place method → method ∈ target.methods :=
    fun place method about => mem_of_planned planned about
  have locals := localsOf_bodyLines legible parameters inClass
  refine ⟨?_, locals, ?_, ?_⟩
  · intro convention separator
    obtain ⟨opening, lines⟩ := exists_testLines style target convention test.name
    exact ⟨opening, fun subject => congrArg (joinLines separator) (lines subject)⟩
  · intro place method about
    have inside := inClass place method about
    rw [about]
    exact exists_methodLines legible inside (parameters method inside)
  · rw [locals]
    apply nodup_bodyLocals_iff
    · exact fun place method about => (parameters method (inClass place method about)).typed
    · cases about : test.subject with
      | type => exact List.nodup_nil
      | instantiation => exact List.nodup_nil
      | method place method => exact (parameters method (inClass place method about)).distinct

/-- The method of this name with parameters of type `int` and this return type. -/
def countingMethod (name : Text) (returnType : Option TypeTree) (parameterNames : List Text) :
    Method :=
  { (Method.named name).withParameters (parameterNames.map fun parameter =>
      (parameter, TypeTree.named "int".toList)) with returnType := returnType }

/-- A test with two parameters and a result declares five variables. -/
theorem nodup_locals_add :
    let method :=
      countingMethod "add".toList (some (TypeTree.named "int".toList)) ["a".toList, "b".toList]
    let target := { ClassSurface.named "S".toList with methods := [method] }
    let test : PlannedTest := ⟨.method 0 method, "add_A$int$int".toList⟩
    IsLegible target ∧ (∀ method ∈ target.methods, HasDistinctParameters method) ∧
      test ∈ (ofSurface TestStyle.modern target).tests ∧
      ((localsOf (bodyLines target test.subject)).map LocalVariable.name).Nodup := by
  intro method target test
  have legible : IsLegible target :=
    ⟨by decide +kernel, by decide +kernel, by decide +kernel, by
      intro method member type returned
      obtain rfl := List.mem_singleton.mp member
      obtain rfl : TypeTree.named "int".toList = type := Option.some.inj returned
      decide +kernel⟩
  have parameters : ∀ method ∈ target.methods, HasDistinctParameters method := by
    intro method member
    obtain rfl := List.mem_singleton.mp member
    exact ⟨by decide +kernel, by decide +kernel, rfl⟩
  have planned : test ∈ (ofSurface TestStyle.modern target).tests := .tail _ (.tail _ (.head _))
  have apart : ∀ name ∈ parameterNamesOf test.subject, name ∉ ownNamesOf test.subject := by
    decide +kernel
  exact ⟨legible, parameters, planned,
    (nodup_locals_iff legible parameters planned).2.2.2.mpr apart⟩

/-- Parameters with the names of the object under test and of the results are
declared a second time. -/
theorem not_nodup_locals :
    let aim := countingMethod "aim".toList none ["target".toList]
    let add := countingMethod "add".toList (some (TypeTree.named "int".toList))
      ["actual".toList, "expected".toList]
    let target := { ClassSurface.named "S".toList with methods := [aim, add] }
    ∀ method ∈ [aim, add], method.parameterNames.Nodup ∧
      ¬ ((localsOf (bodyLines target (.method 0 method))).map LocalVariable.name).Nodup := by
  decide +kernel

end TestPlan
end Testwright
