import Testwright.Text.Basic

namespace Testwright

/-!
JSON values, the form in which surfaces and settings are stored.

A number is a `natural` if it is written as digits only; every other number
keeps its spelling and is never read as a count.  The fields of an object are
looked up by name, the first of a name counts, and the others are ignored.
-/

inductive Json where
  | null
  | bool (value : Bool)
  | natural (value : Nat)
  /-- A number with a sign, a fraction or an exponent, as it is written. -/
  | numeral (written : Text)
  | string (value : Text)
  | array (items : List Json)
  | object (fields : List (Text × Json))

namespace Json

/-- The field of this name. -/
def field? (key : String) (fields : List (Text × Json)) : Option Json :=
  fields.lookup key.toList

/-! ### Reading plain values -/

def fields? : Json → Option (List (Text × Json))
  | object fields => some fields
  | _ => none

def text? : Json → Option Text
  | string value => some value
  | _ => none

def bool? : Json → Option Bool
  | bool value => some value
  | _ => none

/-- A count is a natural number below `2 ^ 64`. -/
def count? : Json → Option Nat
  | natural value => if value < UInt64.size then some value else none
  | _ => none

/-- The items of an array, each read by the same reader. -/
def list? {α : Type} (item? : Json → Option α) : Json → Option (List α)
  | array items => items.mapM item?
  | _ => none

/-- Nothing, or what the reader reads. -/
def nullable? {α : Type} (value? : Json → Option α) : Json → Option (Option α)
  | null => some none
  | json => (value? json).map some

/-! ### Reading fields -/

/-- A field that has to be there. -/
def required {α : Type} (value? : Json → Option α) (key : String)
    (fields : List (Text × Json)) : Option α :=
  (field? key fields).bind value?

/-- A field that may be missing, which is the same as null. -/
def optional {α : Type} (value? : Json → Option α) (key : String)
    (fields : List (Text × Json)) : Option (Option α) :=
  match field? key fields with
  | none => some none
  | some json => nullable? value? json

/-! ### Writing -/

/-- The object with these fields. -/
def ofFields (fields : List (String × Json)) : Json :=
  object (fields.map fun field => (field.1.toList, field.2))

def ofList {α : Type} (item : α → Json) (items : List α) : Json :=
  array (items.map item)

def ofTexts (texts : List Text) : Json :=
  ofList string texts

def ofOption {α : Type} (value : α → Json) : Option α → Json
  | none => null
  | some inner => value inner

end Json
end Testwright
