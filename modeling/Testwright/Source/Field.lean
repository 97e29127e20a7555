import Testwright.Character.Lowercase
import Testwright.Matcher.Library
import Testwright.Surface.Member

namespace Testwright

/-!
Fields that accessors stand for.

A method named like a getter, a setter or a question implies a field, and the
method is an accessor if the source declares a private field of that name and
type.  The search is textual.  It reads through qualification, blanks around
brackets and commas, and type arguments behind a type that has none; another
word between `private` and the type hides the field from it.

The pattern of the search is given twice: as the text that a library compiles,
and as the matcher that the compiled pattern is.
-/

namespace Text

/-- The text with its first character in lower case. -/
def lowerFirst : Text → Text
  | [] => []
  | c :: rest => Character.lowercase c ++ rest

end Text

namespace Method

/-- The field that the name of a method implies, with its type: behind `set`
that of the first parameter, behind `get` or `is` that of the result. -/
def impliedField? (method : Method) : Option (Text × TypeTree) :=
  match Text.dropStart? "set".toList method.name with
  | some (c :: rest) =>
      method.parameterTypes.head?.map fun type => (Text.lowerFirst (c :: rest), type)
  | _ =>
      match (Text.dropStart? "get".toList method.name).or
          (Text.dropStart? "is".toList method.name) with
      | some (c :: rest) =>
          method.returnType.map fun type => (Text.lowerFirst (c :: rest), type)
      | _ => none

end Method

namespace Matcher

open Character (isBlank isNamePart isDottedPart)

/-- A word in which each space stands for any blanks. -/
def spacedWord : Text → Matcher Unit
  | [] => pure ()
  | c :: rest => do
      if c = ' ' then runs1 isBlank else char c
      spacedWord rest

/-- The last part of a dotted name behind any qualification. -/
def nameLayout (name : Text) : Matcher Unit := do
  many do
    run1 isNamePart
    char '.'
  spacedWord (Text.afterLast '.' name)

/-- This many bracket pairs, with blanks before and inside each. -/
def bracketsLayout : Nat → Matcher Unit
  | 0 => pure ()
  | dimensions + 1 => do
      runs isBlank
      char '['
      runs isBlank
      char ']'
      bracketsLayout dimensions

mutual

/-- A type in any layout. -/
def typeLayout : TypeTree → Matcher Unit
  | ⟨name, [], dimensions, _⟩ => do
      nameLayout name
      bracketsLayout dimensions
  | ⟨name, first :: rest, dimensions, _⟩ => do
      nameLayout name
      runs isBlank
      char '<'
      runs isBlank
      typeLayout first
      typeLayoutRest rest
      runs isBlank
      char '>'
      bracketsLayout dimensions

/-- The arguments behind the first one, each after its comma. -/
def typeLayoutRest : List TypeTree → Matcher Unit
  | [] => pure ()
  | type :: types => do
      runs isBlank
      char ','
      runs isBlank
      typeLayout type
      typeLayoutRest types

end

def isFieldArgumentPart (c : Char) : Bool :=
  isDottedPart c || isBlank c || [',', '<', '>', '?', '[', ']'].contains c

/-- A private field of the type and name.  Type arguments may stand behind the
type, whatever they are. -/
def privateField (type : TypeTree) (name : Text) : Matcher Unit := do
  word "private".toList
  runs1 isBlank
  typeLayout type
  maybe do
    runs isBlank
    char '<'
    runs isFieldArgumentPart
    char '>'
  runs1 isBlank
  word name
  wordEdge

end Matcher

namespace TypeTree

/-- The pattern for the last part of a dotted name behind any qualification. -/
def namePattern (name : Text) : Text :=
  "(?:[\\w$]+\\.)*".toList ++
    (Text.escaped (Text.afterLast '.' name)).flatMap fun c =>
      if c = ' ' then "\\s+".toList else [c]

/-- The pattern for this many bracket pairs. -/
def bracketsPattern (dimensions : Nat) : Text :=
  (List.replicate dimensions "\\s*\\[\\s*\\]".toList).flatten

mutual

/-- The pattern for a type in any layout. -/
def pattern : TypeTree → Text
  | ⟨name, [], dimensions, _⟩ => namePattern name ++ bracketsPattern dimensions
  | ⟨name, first :: rest, dimensions, _⟩ =>
      namePattern name ++ "\\s*<\\s*".toList ++ pattern first ++ patternRest rest ++
        "\\s*>".toList ++ bracketsPattern dimensions

/-- The pattern for the arguments behind the first one. -/
def patternRest : List TypeTree → Text
  | [] => []
  | type :: types => "\\s*,\\s*".toList ++ pattern type ++ patternRest types

end

/-- The pattern for a private field of the type and name. -/
def fieldPattern (type : TypeTree) (name : Text) : Text :=
  "private\\s+".toList ++ type.pattern ++
    "(?:\\s*<[\\w$.,\\s<>?\\[\\]]*>)?\\s+".toList ++ Text.escaped name ++ "\\b".toList

end TypeTree

namespace PatternLibrary

/-- Whether the search for a private field of the type and name finds one.  It
finds none if the library refuses the pattern. -/
def findsField (library : PatternLibrary) (type : TypeTree) (name source : Text) : Bool :=
  library.compiles (type.fieldPattern name) && (Matcher.privateField type name).occursIn source

end PatternLibrary

namespace Method

/-- Whether the search in the normalized source finds the field that the method
implies. -/
def isBacked (library : PatternLibrary) (source : Text) (method : Method) : Bool :=
  match method.impliedField? with
  | some field => library.findsField field.2 field.1 source
  | none => false

end Method
end Testwright
