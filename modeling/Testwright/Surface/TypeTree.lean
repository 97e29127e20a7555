import Testwright.Surface.Token

namespace Testwright

/-!
Types as trees.

A type is a name, type arguments that are types again, and a number of array
dimensions.  The identifier token of the type is stored with it: a stored class
surface keeps the token it came with, and only `named` and `withDimensions`
compute one.
-/

structure TypeTree where
  name : Text
  arguments : List TypeTree
  dimensions : Nat
  token : Text

namespace TypeTree

/-- The type of this name, without arguments and dimensions. -/
def named (name : Text) : TypeTree where
  name := name
  arguments := []
  dimensions := 0
  token := Token.simple name

/-- The same type with other arguments.  The token does not show arguments and
stays. -/
def withArguments (type : TypeTree) (arguments : List TypeTree) : TypeTree :=
  { type with arguments := arguments }

/-- The same type with another number of dimensions, and the token that goes
with it. -/
def withDimensions (type : TypeTree) (dimensions : Nat) : TypeTree :=
  { type with
    dimensions := dimensions
    token := Token.simple type.name ++ Token.arrayMarks dimensions }

/-- The token that names the packages as well. -/
def qualifiedToken (type : TypeTree) : Text :=
  Token.qualified type.name ++ Token.arrayMarks type.dimensions

def isArray (type : TypeTree) : Bool :=
  0 < type.dimensions

/-- The names of the primitive types. -/
def primitives : List Text :=
  ["boolean".toList, "byte".toList, "char".toList, "short".toList, "int".toList, "long".toList,
    "float".toList, "double".toList]

/-- An array of primitives is no primitive. -/
def isPrimitive (type : TypeTree) : Bool :=
  !type.isArray && primitives.contains type.name

/-- The placeholder of each primitive type. -/
def primitivePlaceholders : List (Text × Text) :=
  [("boolean".toList, "false".toList), ("byte".toList, "(byte) 0".toList),
    ("char".toList, "'\\u0000'".toList), ("short".toList, "(short) 0".toList),
    ("int".toList, "0".toList), ("long".toList, "0L".toList), ("float".toList, "0.0F".toList),
    ("double".toList, "0.0".toList)]

/-- The literal that a generated test assigns to a value of the type: that of
the primitive, or `null`. -/
def placeholder (type : TypeTree) : Text :=
  if type.isArray then "null".toList
  else (primitivePlaceholders.lookup type.name).getD "null".toList

/-! ### Leaves and text -/

mutual

/-- The names of the nodes without arguments, from left to right. -/
def leafNames : TypeTree → List Text
  | ⟨name, [], _, _⟩ => [name]
  | ⟨_, first :: rest, _, _⟩ => leafNames first ++ leafNamesAll rest

def leafNamesAll : List TypeTree → List Text
  | [] => []
  | type :: types => leafNames type ++ leafNamesAll types

end

/-- One bracket pair for each dimension. -/
def brackets (dimensions : Nat) : Text :=
  (List.replicate dimensions "[]".toList).flatten

mutual

/-- The type as written in a source: the name, the arguments in angle brackets
with a comma and a space between each two, and the brackets. -/
def render : TypeTree → Text
  | ⟨name, [], dimensions, _⟩ => name ++ brackets dimensions
  | ⟨name, first :: rest, dimensions, _⟩ =>
      name ++ '<' :: (render first ++ renderRest rest) ++ '>' :: brackets dimensions

/-- The arguments behind the first one, each after its comma. -/
def renderRest : List TypeTree → Text
  | [] => []
  | type :: types => ',' :: ' ' :: (render type ++ renderRest types)

end

end TypeTree
end Testwright
