import Testwright.Proofs.Stored.Field
import Testwright.Stored.Settings

namespace Testwright

/-!
# Surfaces, reports and settings are stored without loss

Each stored type is written and read field by field, so it is shown of each that what
is written of its fields is read back, and that its reader looks at no other fields.
The exception is the type tree, whose arguments are type trees again: there the
recursion of the reader is followed.

A count is read back if it is below `2 ^ 64`, and nothing else in a value can
stand in the way.  In particular tokens come back as they are, and two lists of
parameters may differ in length.
-/

open Json

/-! ## Words for a choice -/

theorem Visibility.isLossless : IsLossless Visibility.toJson Visibility.ofJson? fun _ => True where
  recovers := by
    intro visibility _
    cases visibility <;> decide
  fits _ := trivial

theorem Convention.isLossless : IsLossless Convention.toJson Convention.ofJson? fun _ => True where
  recovers := by
    intro convention _
    cases convention <;> decide
  fits _ := trivial

/-! ## Type trees -/

namespace TypeTree

mutual

/-- Whether every number of dimensions in the type is below `2 ^ 64`. -/
def isStorable : TypeTree → Bool
  | ⟨_, arguments, dimensions, _⟩ => decide (dimensions < UInt64.size) && areStorable arguments

def areStorable : List TypeTree → Bool
  | [] => true
  | type :: types => isStorable type && areStorable types

end

/-- The arguments are looked up like any other field. -/
theorem argumentsOf?_eq (fields : List (Text × Json)) :
    argumentsOf? fields = required ofArray? "generics" fields := by
  induction fields with
  | nil => rfl
  | cons field fields ih =>
      rcases field with ⟨name, json⟩
      by_cases same : name = "generics".toList
      · subst same
        rw [argumentsOf?, if_pos rfl, required_cons, if_pos rfl]
      · have apart : argumentsOf? ((name, json) :: fields) = argumentsOf? fields := if_neg same
        rw [apart, ih]
        exact (required_insert ofArray? same [] json fields).symm

theorem ofJson?_ofFields (fields : List (String × Json)) :
    ofJson? (Json.ofFields fields) =
      (required ofArray? "generics" (Json.named fields)).bind (ofFields? (Json.named fields)) := by
  rw [← argumentsOf?_eq]
  rfl

mutual

theorem ofJson?_toJson :
    (type : TypeTree) → type.isStorable = true → ofJson? type.toJson = some type
  | ⟨name, arguments, dimensions, token⟩, storable => by
      simp only [isStorable, Bool.and_eq_true, decide_eq_true_eq] at storable
      have inner := ofItems?_toJsonAll arguments storable.2
      have count : count? (.natural dimensions) = some dimensions :=
        isLossless_natural.recovers storable.1
      simp [toJson, ofJson?_ofFields, ofFields?, ofArray?, inner, count]

theorem ofItems?_toJsonAll : (types : List TypeTree) → areStorable types = true →
    ofItems? (toJsonAll types) = some types
  | [], _ => rfl
  | type :: types, storable => by
      simp only [areStorable, Bool.and_eq_true] at storable
      simp [toJsonAll, ofItems?, ofJson?_toJson type storable.1,
        ofItems?_toJsonAll types storable.2]

end

mutual

theorem isStorable_of_ofJson? :
    (json : Json) → {type : TypeTree} → ofJson? json = some type → type.isStorable = true
  | .object fields, type, read => by
      rw [ofJson?] at read
      rcases Option.bind_eq_some_iff.mp read with ⟨arguments, inner, outer⟩
      have storable := areStorable_of_argumentsOf? fields inner
      simp only [ofFields?, Option.bind_eq_bind, Option.bind_eq_some_iff, Option.pure_def,
        Option.some.injEq] at outer
      rcases outer with ⟨name, -, dimensions, count, token, -, rfl⟩
      rw [isStorable, storable, decide_eq_true (isLossless_natural.fits_required count)]
      rfl
  | .null, _, read => by cases read
  | .bool _, _, read => by cases read
  | .natural _, _, read => by cases read
  | .numeral _, _, read => by cases read
  | .string _, _, read => by cases read
  | .array _, _, read => by cases read
termination_by structural json => json

theorem areStorable_of_argumentsOf? : (fields : List (Text × Json)) → {types : List TypeTree} →
    argumentsOf? fields = some types → areStorable types = true
  | [], _, read => by cases read
  | (name, json) :: fields, types, read => by
      rw [argumentsOf?] at read
      split at read
      · exact areStorable_of_ofArray? json read
      · exact areStorable_of_argumentsOf? fields read

theorem areStorable_of_ofArray? : (json : Json) → {types : List TypeTree} →
    ofArray? json = some types → areStorable types = true
  | .array items, _, read => areStorable_of_ofItems? items read
  | .null, _, read => by cases read
  | .bool _, _, read => by cases read
  | .natural _, _, read => by cases read
  | .numeral _, _, read => by cases read
  | .string _, _, read => by cases read
  | .object _, _, read => by cases read

theorem areStorable_of_ofItems? : (items : List Json) → {types : List TypeTree} →
    ofItems? items = some types → areStorable types = true
  | [], _, read => by
      rcases Option.some.inj read with rfl
      rfl
  | json :: items, types, read => by
      rw [ofItems?] at read
      split at read
      · next type others first rest =>
          rcases Option.some.inj read with rfl
          rw [areStorable, isStorable_of_ofJson? json first, areStorable_of_ofItems? items rest]
          rfl
      · cases read

end

theorem isLossless : IsLossless toJson ofJson? fun type => type.isStorable = true :=
  ⟨fun storable => ofJson?_toJson _ storable, fun read => isStorable_of_ofJson? _ read⟩

theorem toJson_ne_null (type : TypeTree) : type.toJson ≠ .null := by
  intro isNull
  cases type
  rw [toJson] at isNull
  cases isNull

theorem isStoredForm : IsStoredForm toJson ofJson? (fun type => type.isStorable = true)
    ["name", "generics", "array_dimensions", "name_in_method_name"] [] :=
  isLossless.isStoredForm fun {fields fields'} alike => by
    have others : ofFields? fields = ofFields? fields' := by
      funext arguments
      simp (disch := simp) only [ofFields?, alike.required_eq]
    simp (disch := simp) only [ofJson?, argumentsOf?_eq, others, alike.required_eq]

end TypeTree

/-! ## Members -/

theorem ThrownType.isLossless : IsLossless ThrownType.toJson ThrownType.ofJson? fun _ => True where
  recovers := by
    intro thrown _
    simp [toJson, ofJson?]
  fits _ := trivial

theorem ThrownType.isStoredForm : IsStoredForm ThrownType.toJson ThrownType.ofJson? (fun _ => True)
    ["name", "name_in_method_name"] [] :=
  isLossless.isStoredForm fun alike => by
    simp (disch := simp) only [ofJson?, fields?, Option.bind_eq_bind, Option.bind_some,
      alike.required_eq]

namespace Constructor

def isStorable (constructor : Constructor) : Bool :=
  constructor.parameterTypes.all TypeTree.isStorable

theorem isLossless :
    IsLossless toJson ofJson? fun constructor => constructor.isStorable = true where
  recovers := by
    intro constructor storable
    have visibility : Visibility.ofJson? constructor.visibility.toJson = some _ :=
      Visibility.isLossless.recovers trivial
    have names : list? text? (ofList string constructor.parameterNames) = some _ :=
      isLossless_string.list.recovers fun _ _ => trivial
    have types := TypeTree.isLossless.list.recovers (List.all_eq_true.mp storable)
    simp [toJson, ofJson?, visibility, ofTexts, names, types]
  fits := by
    intro json constructor read
    simp only [ofJson?, Option.bind_eq_bind, Option.bind_eq_some_iff, Option.pure_def,
      Option.some.injEq] at read
    rcases read with ⟨fields, -, visibility, -, names, -, types, areTypes, rfl⟩
    exact List.all_eq_true.mpr (TypeTree.isLossless.list.fits_required areTypes)

theorem isStoredForm :
    IsStoredForm toJson ofJson? (fun constructor => constructor.isStorable = true)
    ["access_modifier", "arg_names", "arg_types"] [] :=
  isLossless.isStoredForm fun alike => by
    simp (disch := simp) only [ofJson?, fields?, Option.bind_eq_bind, Option.bind_some,
      alike.required_eq]

end Constructor

namespace Method

def isStorable (method : Method) : Bool :=
  method.returnType.all TypeTree.isStorable && method.parameterTypes.all TypeTree.isStorable

theorem isLossless : IsLossless toJson ofJson? fun method => method.isStorable = true where
  recovers := by
    intro method storable
    rw [isStorable, Bool.and_eq_true, Option.all_eq_true, List.all_eq_true] at storable
    have visibility : Visibility.ofJson? method.visibility.toJson = some _ :=
      Visibility.isLossless.recovers trivial
    have result := (TypeTree.isLossless.option TypeTree.toJson_ne_null).recovers storable.1
    have names : list? text? (ofList string method.parameterNames) = some _ :=
      isLossless_string.list.recovers fun _ _ => trivial
    have types := TypeTree.isLossless.list.recovers storable.2
    have throws : list? ThrownType.ofJson? (ofList ThrownType.toJson method.throws) = some _ :=
      ThrownType.isLossless.list.recovers fun _ _ => trivial
    simp [toJson, ofJson?, visibility, result, ofTexts, names, types, throws]
  fits := by
    intro json method read
    simp only [ofJson?, Option.bind_eq_bind, Option.bind_eq_some_iff, Option.pure_def,
      Option.some.injEq] at read
    rcases read with
      ⟨fields, -, name, -, visibility, -, isStatic, -, result, isResult, names, -, types, areTypes,
        throws, -, isAccessor, -, rfl⟩
    rw [isStorable, Bool.and_eq_true, Option.all_eq_true, List.all_eq_true]
    exact ⟨TypeTree.isLossless.fits_optional isResult,
      TypeTree.isLossless.list.fits_required areTypes⟩

theorem isStoredForm : IsStoredForm toJson ofJson? (fun method => method.isStorable = true)
    ["name", "access_modifier", "is_static", "return_type", "arg_names", "arg_types",
      "throws_exceptions", "is_accessor"] ["return_type"] :=
  isLossless.isStoredForm fun alike => by
    simp (disch := simp) only [ofJson?, fields?, Option.bind_eq_bind, Option.bind_some,
      alike.required_eq, alike.optional_eq]

end Method

/-! ## Classes and reports -/

namespace ClassSurface

def isStorable (surface : ClassSurface) : Bool :=
  surface.constructors.all Constructor.isStorable && surface.methods.all Method.isStorable

theorem isLossless : IsLossless toJson ofJson? fun surface => surface.isStorable = true where
  recovers := by
    intro surface storable
    rw [isStorable, Bool.and_eq_true, List.all_eq_true, List.all_eq_true] at storable
    have package : nullable? text? (ofOption string surface.package) = some _ :=
      (isLossless_string.option (by simp)).recovers fun _ _ => trivial
    have imports : list? text? (ofList string surface.imports) = some _ :=
      isLossless_string.list.recovers fun _ _ => trivial
    have constructors := Constructor.isLossless.list.recovers storable.1
    have methods := Method.isLossless.list.recovers storable.2
    simp [toJson, ofJson?, package, ofTexts, imports, constructors, methods]
  fits := by
    intro json surface read
    simp only [ofJson?, Option.bind_eq_bind, Option.bind_eq_some_iff, Option.pure_def,
      Option.some.injEq] at read
    rcases read with
      ⟨fields, -, name, -, package, -, imports, -, constructors, areConstructors, methods,
        areMethods, rfl⟩
    rw [isStorable, Bool.and_eq_true, List.all_eq_true, List.all_eq_true]
    exact ⟨Constructor.isLossless.list.fits_required areConstructors,
      Method.isLossless.list.fits_required areMethods⟩

theorem isStoredForm : IsStoredForm toJson ofJson? (fun surface => surface.isStorable = true)
    ["name", "package_name", "imported_list", "constructors", "methods"] ["package_name"] :=
  isLossless.isStoredForm fun alike => by
    simp (disch := simp) only [ofJson?, fields?, Option.bind_eq_bind, Option.bind_some,
      alike.required_eq, alike.optional_eq]

end ClassSurface

namespace BatchReport

def isStorable (report : BatchReport) : Bool :=
  report.classes.all ClassSurface.isStorable && report.failures.all fun failure =>
    decide (failure.1 < UInt64.size)

theorem isLossless_failure :
    IsLossless failureToJson failureOfJson? fun failure => failure.1 < UInt64.size where
  recovers := by
    intro failure small
    have place := isLossless_natural.recovers small
    simp only [failureToJson, failureOfJson?, place, text?, Option.bind_some, Option.bind_eq_bind,
      Option.pure_def]
  fits := by
    intro json failure read
    unfold failureOfJson? at read
    split at read
    · simp only [Option.bind_eq_bind, Option.bind_eq_some_iff, Option.pure_def,
        Option.some.injEq] at read
      rcases read with ⟨place, isPlace, reason, -, rfl⟩
      exact isLossless_natural.fits isPlace
    · cases read

theorem isStorable_iff {report : BatchReport} : report.isStorable = true ↔
    (∀ surface ∈ report.classes, surface.isStorable = true) ∧
    ∀ failure ∈ report.failures, failure.1 < UInt64.size := by
  simp only [isStorable, Bool.and_eq_true, List.all_eq_true, decide_eq_true_eq]

theorem isLossless : IsLossless toJson ofJson? fun report => report.isStorable = true where
  recovers := by
    intro report storable
    rw [isStorable_iff] at storable
    have classes := ClassSurface.isLossless.list.recovers storable.1
    have failures := isLossless_failure.list.recovers storable.2
    simp [toJson, ofJson?, classes, failures]
  fits := by
    intro json report read
    simp only [ofJson?, Option.bind_eq_bind, Option.bind_eq_some_iff, Option.pure_def,
      Option.some.injEq] at read
    rcases read with ⟨fields, -, classes, areClasses, failures, areFailures, rfl⟩
    exact isStorable_iff.mpr
      ⟨ClassSurface.isLossless.list.fits_required areClasses,
        isLossless_failure.list.fits_required areFailures⟩

theorem isStoredForm : IsStoredForm toJson ofJson? (fun report => report.isStorable = true)
    ["classes", "failures"] [] :=
  isLossless.isStoredForm fun alike => by
    simp (disch := simp) only [ofJson?, fields?, Option.bind_eq_bind, Option.bind_some,
      alike.required_eq]

end BatchReport

/-! ## Settings -/

namespace ExtractionPolicy

def isStorable (policy : ExtractionPolicy) : Bool :=
  decide (policy.maxSourceSize < UInt64.size) && policy.workers.all fun workers =>
    decide (workers < UInt64.size)

theorem isStorable_iff {policy : ExtractionPolicy} : policy.isStorable = true ↔
    policy.maxSourceSize < UInt64.size ∧ ∀ workers ∈ policy.workers, workers < UInt64.size := by
  simp only [isStorable, Bool.and_eq_true, Option.all_eq_true, decide_eq_true_eq, Option.mem_def]

theorem isLossless : IsLossless toJson ofJson? fun policy => policy.isStorable = true where
  recovers := by
    intro policy storable
    rw [isStorable_iff] at storable
    have implicit : Visibility.ofJson? policy.implicitVisibility.toJson = some _ :=
      Visibility.isLossless.recovers trivial
    have size := isLossless_natural.recovers storable.1
    have workers := (isLossless_natural.option (by simp)).recovers storable.2
    simp [toJson, ofJson?, implicit, size, workers]
  fits := by
    intro json policy read
    simp only [ofJson?, Option.bind_eq_bind, Option.bind_eq_some_iff, Option.pure_def,
      Option.some.injEq] at read
    rcases read with
      ⟨fields, -, implicit, -, imported, -, package, -, erased, -, size, isSize, parallel, -,
        workers, areWorkers, rfl⟩
    exact isStorable_iff.mpr
      ⟨isLossless_natural.fits_required isSize, isLossless_natural.fits_optional areWorkers⟩

theorem isStoredForm : IsStoredForm toJson ofJson? (fun policy => policy.isStorable = true)
    ["implicit_visibility", "qualify_imported_types", "qualify_package_types",
      "erase_type_variables",
      "max_source_size", "parallel", "parallel_workers"] ["parallel_workers"] :=
  isLossless.isStoredForm fun alike => by
    simp (disch := simp) only [ofJson?, fields?, Option.bind_eq_bind, Option.bind_some,
      alike.required_eq, alike.optional_eq]

end ExtractionPolicy

namespace TestStyle

theorem isLossless : IsLossless toJson ofJson? fun _ => True where
  recovers := by
    intro style _
    have convention : Convention.ofJson? style.convention.toJson = some _ :=
      Convention.isLossless.recovers trivial
    have comment : nullable? text? (ofOption string style.todoComment) = some _ :=
      (isLossless_string.option (by simp)).recovers fun _ _ => trivial
    simp [toJson, ofJson?, convention, comment]
  fits _ := trivial

theorem isStoredForm : IsStoredForm toJson ofJson? (fun _ => True)
    ["convention", "line_separator", "indent", "legacy_method_prefix", "args_delimiter",
      "type_delimiter", "todo_comment"] ["todo_comment"] :=
  isLossless.isStoredForm fun alike => by
    simp (disch := simp) only [ofJson?, fields?, Option.bind_eq_bind, Option.bind_some,
      alike.required_eq, alike.optional_eq]

end TestStyle

/-! ## All stored types -/

/-- Surfaces, reports and settings are read back from what is written of them, if
their counts are below `2 ^ 64`.  And they are read back whatever they were read from:
with fields of unknown names, which are ignored, or without those that may be missing,
which are null then. -/
theorem stored_without_loss :
    IsStoredForm TypeTree.toJson TypeTree.ofJson? (fun type => type.isStorable = true)
      ["name", "generics", "array_dimensions", "name_in_method_name"] [] ∧
    IsStoredForm ThrownType.toJson ThrownType.ofJson? (fun _ => True)
      ["name", "name_in_method_name"] [] ∧
    IsStoredForm Constructor.toJson Constructor.ofJson?
      (fun constructor => constructor.isStorable = true)
      ["access_modifier", "arg_names", "arg_types"] [] ∧
    IsStoredForm Method.toJson Method.ofJson? (fun method => method.isStorable = true)
      ["name", "access_modifier", "is_static", "return_type", "arg_names", "arg_types",
        "throws_exceptions", "is_accessor"] ["return_type"] ∧
    IsStoredForm ClassSurface.toJson ClassSurface.ofJson? (fun surface => surface.isStorable = true)
      ["name", "package_name", "imported_list", "constructors", "methods"] ["package_name"] ∧
    IsStoredForm BatchReport.toJson BatchReport.ofJson? (fun report => report.isStorable = true)
      ["classes", "failures"] [] ∧
    IsStoredForm ExtractionPolicy.toJson ExtractionPolicy.ofJson?
      (fun policy => policy.isStorable = true)
      ["implicit_visibility", "qualify_imported_types", "qualify_package_types",
        "erase_type_variables",
        "max_source_size", "parallel", "parallel_workers"] ["parallel_workers"] ∧
    IsStoredForm TestStyle.toJson TestStyle.ofJson? (fun _ => True)
      ["convention", "line_separator", "indent", "legacy_method_prefix", "args_delimiter",
        "type_delimiter", "todo_comment"] ["todo_comment"] :=
  ⟨TypeTree.isStoredForm, ThrownType.isStoredForm, Constructor.isStoredForm, Method.isStoredForm,
    ClassSurface.isStoredForm, BatchReport.isStoredForm, ExtractionPolicy.isStoredForm,
    TestStyle.isStoredForm⟩

/-- A constructor with more names than types, and a token that is not the one of its
type. -/
def unevenConstructor : Constructor where
  visibility := .packageAccess
  parameterNames := ["rows".toList, "more".toList]
  parameterTypes := [⟨"Map".toList, [⟨"int".toList, [], 1, "other".toList⟩], 0, "Map".toList⟩]

/-- What is stored of a class without a package, with a field that no class has. -/
def oddlyStored : List (Text × Json) :=
  [("colour".toList, .bool true), ("name".toList, .string "Sheet".toList),
    ("methods".toList, .array []),
    ("constructors".toList, .array [unevenConstructor.toJson]), ("imported_list".toList, .array [])]

/-- The class is read, and what is written of it is read as the same class. -/
theorem stored_without_loss_sheet :
    let sheet : ClassSurface :=
      { ClassSurface.named "Sheet".toList with constructors := [unevenConstructor] }
    unevenConstructor.isStorable = true ∧ ClassSurface.ofJson? (.object oddlyStored) = some sheet ∧
      ClassSurface.ofJson? sheet.toJson = some sheet ∧
      Constructor.ofJson? unevenConstructor.toJson = some unevenConstructor := by
  intro sheet
  have storable : unevenConstructor.isStorable = true := by decide
  have read : ClassSurface.ofJson? (.object oddlyStored) = some sheet := by rfl
  have ⟨_, _, ofConstructor, _, ofSurface, _⟩ := stored_without_loss
  exact ⟨storable, read, ofSurface.settles _ _ read, ofConstructor.recovers _ storable⟩

end Testwright
