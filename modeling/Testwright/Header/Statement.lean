import Testwright.Convention.Basic
import Testwright.Matcher.Search
import Testwright.Text.Line

namespace Testwright

/-!
Header statements.

The header of a source is everything in front of its first opening brace.  Its
package and import statements are found by what they look like, wherever they
stand, so a source on a single line is read like any other.  Two statements are
the same if their canonical texts are: one space behind each keyword and none
anywhere else.
-/

/-- A package or import statement of a header. -/
structure HeaderStatement where
  isImport : Bool
  /-- The statement in its canonical spacing. -/
  text : Text
  /-- How many characters of the source stand before the statement. -/
  start : Nat
  /-- How many characters of the source stand before the place behind it. -/
  stop : Nat

namespace Matcher

open Character (isBlank isNamePart)

/-- A package or import statement: whether it is an import, and its path with
the word `static`, if that is there. -/
def headerStatement : Matcher (Bool × Stretch) := do
  wordEdge
  let isImport ← orElse (do word "package".toList; return false)
    (do word "import".toList; return true)
  run1 isBlank
  let path ← stretch do
    maybe do
      word "static".toList
      run1 isBlank
    run1 isNamePart
    many do
      run isBlank
      char '.'
      run isBlank
      orElse (run1 isNamePart) (char '*')
  run isBlank
  char ';'
  return (isImport, path)

end Matcher

namespace HeaderStatement

/-- The path with single spaces, and none at the dots. -/
def canonicalPath (path : Text) : Text :=
  Text.replaceAll ". ".toList ['.']
    (Text.replaceAll " .".toList ['.'] (Text.singleSpaced path))

def canonicalText (isImport : Bool) (path : Text) : Text :=
  (if isImport then "import ".toList else "package ".toList) ++ canonicalPath path ++ [';']

/-- The header of a source. -/
def header (source : Text) : Text :=
  Text.before '\x7b' source

/-- The package and import statements of a source, in order. -/
def ofSource (source : Text) : List HeaderStatement :=
  (Matcher.headerStatement.stretchOf.findAll (header source)).map fun found =>
    { isImport := found.2.1
      text := canonicalText found.2.1 found.2.2.text
      start := found.1.first.behind.length
      stop := found.1.last.behind.length }

/-- The canonical text of a line that is a statement and nothing besides,
blanks at its ends aside. -/
def ofLine? (line : Text) : Option Text :=
  match Matcher.headerStatement.stretchOf.find? (Text.trim line) with
  | none => none
  | some found =>
      if found.1.text = Text.trim line then some (canonicalText found.2.1 found.2.2.text)
      else none

end HeaderStatement
end Testwright
