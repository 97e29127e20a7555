import Testwright.Settings.TestStyle
import Testwright.Stored.Surface

namespace Testwright

/-!
The stored form of settings.
-/

open Json

namespace Convention

/-- The name of a convention in stored settings. -/
def storedName : Convention → Text
  | legacy => "Legacy".toList
  | modern => "Modern".toList

def toJson (convention : Convention) : Json :=
  .string convention.storedName

def ofJson? (json : Json) : Option Convention := do
  let name ← json.text?
  [legacy, modern].find? fun convention => convention.storedName == name

end Convention

namespace ExtractionPolicy

def toJson (policy : ExtractionPolicy) : Json :=
  ofFields
    [("implicit_visibility", policy.implicitVisibility.toJson),
      ("qualify_imported_types", .bool policy.qualifyImported),
      ("qualify_package_types", .bool policy.qualifyPackage),
      ("erase_type_variables", .bool policy.eraseVariables),
      ("max_source_size", .natural policy.maxSourceSize), ("parallel", .bool policy.parallel),
      ("parallel_workers", ofOption .natural policy.workers)]

def ofJson? (json : Json) : Option ExtractionPolicy := do
  let fields ← json.fields?
  return {
    implicitVisibility := ← required Visibility.ofJson? "implicit_visibility" fields
    qualifyImported := ← required bool? "qualify_imported_types" fields
    qualifyPackage := ← required bool? "qualify_package_types" fields
    eraseVariables := ← required bool? "erase_type_variables" fields
    maxSourceSize := ← required count? "max_source_size" fields
    parallel := ← required bool? "parallel" fields
    workers := ← optional count? "parallel_workers" fields }

end ExtractionPolicy

namespace TestStyle

def toJson (style : TestStyle) : Json :=
  ofFields
    [("convention", style.convention.toJson), ("line_separator", .string style.lineSeparator),
      ("indent", .string style.indent), ("legacy_method_prefix", .string style.legacyPrefix),
      ("args_delimiter", .string style.parametersMark),
      ("type_delimiter", .string style.tokenMark),
      ("todo_comment", ofOption .string style.todoComment)]

def ofJson? (json : Json) : Option TestStyle := do
  let fields ← json.fields?
  return {
    convention := ← required Convention.ofJson? "convention" fields
    lineSeparator := ← required text? "line_separator" fields
    indent := ← required text? "indent" fields
    legacyPrefix := ← required text? "legacy_method_prefix" fields
    parametersMark := ← required text? "args_delimiter" fields
    tokenMark := ← required text? "type_delimiter" fields
    todoComment := ← optional text? "todo_comment" fields }

end TestStyle
end Testwright
