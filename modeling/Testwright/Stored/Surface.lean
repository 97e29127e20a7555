import Testwright.Source.Batch
import Testwright.Stored.Json

namespace Testwright

/-!
The stored form of surfaces.

Each structure is an object with one field for each of its own, and what is read
is stored as given: tokens are not computed anew, and the two lists of
parameters may differ in length.
-/

open Json

namespace Visibility

/-- The name of a visibility in a stored surface. -/
def storedName : Visibility → Text
  | publicAccess => "Public".toList
  | protectedAccess => "Protected".toList
  | packageAccess => "PackageLocal".toList
  | privateAccess => "Private".toList

def toJson (visibility : Visibility) : Json :=
  .string visibility.storedName

def ofJson? (json : Json) : Option Visibility := do
  let name ← json.text?
  [publicAccess, protectedAccess, packageAccess, privateAccess].find? fun visibility =>
    visibility.storedName == name

end Visibility

namespace TypeTree

mutual

def toJson : TypeTree → Json
  | ⟨name, arguments, dimensions, token⟩ =>
      ofFields
        [("name", .string name), ("generics", .array (toJsonAll arguments)),
          ("array_dimensions", .natural dimensions), ("name_in_method_name", .string token)]

def toJsonAll : List TypeTree → List Json
  | [] => []
  | type :: types => toJson type :: toJsonAll types

end

/-- The type whose fields these are, given its arguments. -/
def ofFields? (fields : List (Text × Json)) (arguments : List TypeTree) : Option TypeTree := do
  return {
    name := ← required text? "name" fields
    arguments
    dimensions := ← required count? "array_dimensions" fields
    token := ← required text? "name_in_method_name" fields }

mutual

def ofJson? : Json → Option TypeTree
  | .object fields => (argumentsOf? fields).bind (ofFields? fields)
  | _ => none
termination_by structural json => json

/-- The types in the field that holds the arguments. -/
def argumentsOf? : List (Text × Json) → Option (List TypeTree)
  | [] => none
  | (key, json) :: fields =>
      if key = "generics".toList then ofArray? json else argumentsOf? fields

def ofArray? : Json → Option (List TypeTree)
  | .array items => ofItems? items
  | _ => none

def ofItems? : List Json → Option (List TypeTree)
  | [] => some []
  | json :: items =>
      match ofJson? json, ofItems? items with
      | some type, some types => some (type :: types)
      | _, _ => none

end

end TypeTree

namespace ThrownType

def toJson (thrown : ThrownType) : Json :=
  ofFields [("name", .string thrown.name), ("name_in_method_name", .string thrown.token)]

def ofJson? (json : Json) : Option ThrownType := do
  let fields ← json.fields?
  return {
    name := ← required text? "name" fields
    token := ← required text? "name_in_method_name" fields }

end ThrownType

namespace Constructor

def toJson (constructor : Constructor) : Json :=
  ofFields
    [("access_modifier", constructor.visibility.toJson),
      ("arg_names", ofTexts constructor.parameterNames),
      ("arg_types", ofList TypeTree.toJson constructor.parameterTypes)]

def ofJson? (json : Json) : Option Constructor := do
  let fields ← json.fields?
  return {
    visibility := ← required Visibility.ofJson? "access_modifier" fields
    parameterNames := ← required (list? text?) "arg_names" fields
    parameterTypes := ← required (list? TypeTree.ofJson?) "arg_types" fields }

end Constructor

namespace Method

def toJson (method : Method) : Json :=
  ofFields
    [("name", .string method.name), ("access_modifier", method.visibility.toJson),
      ("is_static", .bool method.isStatic),
      ("return_type", ofOption TypeTree.toJson method.returnType),
      ("arg_names", ofTexts method.parameterNames),
      ("arg_types", ofList TypeTree.toJson method.parameterTypes),
      ("throws_exceptions", ofList ThrownType.toJson method.throws),
      ("is_accessor", .bool method.isAccessor)]

def ofJson? (json : Json) : Option Method := do
  let fields ← json.fields?
  return {
    name := ← required text? "name" fields
    visibility := ← required Visibility.ofJson? "access_modifier" fields
    isStatic := ← required bool? "is_static" fields
    returnType := ← optional TypeTree.ofJson? "return_type" fields
    parameterNames := ← required (list? text?) "arg_names" fields
    parameterTypes := ← required (list? TypeTree.ofJson?) "arg_types" fields
    throws := ← required (list? ThrownType.ofJson?) "throws_exceptions" fields
    isAccessor := ← required bool? "is_accessor" fields }

end Method

namespace ClassSurface

def toJson (surface : ClassSurface) : Json :=
  ofFields
    [("name", .string surface.name), ("package_name", ofOption .string surface.package),
      ("imported_list", ofTexts surface.imports),
      ("constructors", ofList Constructor.toJson surface.constructors),
      ("methods", ofList Method.toJson surface.methods)]

def ofJson? (json : Json) : Option ClassSurface := do
  let fields ← json.fields?
  return {
    name := ← required text? "name" fields
    package := ← optional text? "package_name" fields
    imports := ← required (list? text?) "imported_list" fields
    constructors := ← required (list? Constructor.ofJson?) "constructors" fields
    methods := ← required (list? Method.ofJson?) "methods" fields }

end ClassSurface

namespace BatchReport

def failureToJson (failure : Nat × Text) : Json :=
  .array [.natural failure.1, .string failure.2]

/-- A failure is stored as a pair of the place and the reason. -/
def failureOfJson? : Json → Option (Nat × Text)
  | .array [place, reason] => do return (← place.count?, ← reason.text?)
  | _ => none

def toJson (report : BatchReport) : Json :=
  ofFields
    [("classes", ofList ClassSurface.toJson report.classes),
      ("failures", ofList failureToJson report.failures)]

def ofJson? (json : Json) : Option BatchReport := do
  let fields ← json.fields?
  return {
    classes := ← required (list? ClassSurface.ofJson?) "classes" fields
    failures := ← required (list? failureOfJson?) "failures" fields }

end BatchReport
end Testwright
