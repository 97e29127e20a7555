import Testwright.Header.Import

namespace Testwright
namespace Header

/-!
Taking imports out of a source.

An import on a line of its own goes with the line (`dropLine`).  One that shares
its line goes with the spaces and tabs behind it.
-/

/-- The worker of `dropLine`.  The flags say whether the last line kept is blank,
and whether a blank line that comes next is to go. -/
def dropLines (wanted : Text) : Bool → Bool → List Line → List Line
  | _, _, [] => []
  | keptBlank, dropsBlank, line :: lines =>
      if dropsBlank && line.isBlankLine then
        dropLines wanted keptBlank false lines
      else if Text.trim line.content ≠ wanted then
        line :: dropLines wanted line.isBlankLine false lines
      else
        dropLines wanted keptBlank (keptBlank && lines.head?.any Line.isBlankLine) lines

/-- The source without the lines that are equal to this one, blanks at the ends
aside.  Such a line between two blank lines takes the second one along. -/
def dropLine (source line : Text) : Text :=
  Line.texts (dropLines (Text.trim line) false false (Line.ofText source))

/-- The source without the first statement of this canonical text, if it has
one. -/
def cutStatement? (wanted source : Text) : Option Text :=
  match (HeaderStatement.ofSource source).find? fun statement => statement.text == wanted with
  | none => none
  | some statement =>
      some (source.take statement.start ++ (source.drop statement.stop).dropWhile isSpaceOrTab)

/-- The source without an import. -/
def removeImport (source line : Text) : Text :=
  let text := dropLine source line
  match Matcher.headerStatement.find? (Text.trim line) with
  | none => text
  | some found =>
      (Text.peel (cutStatement? (HeaderStatement.canonicalText found.1 found.2.text)) text).1

/-- What is left of a text that begins at a place, the stretches between two
places each taken out.  The stretches are in order. -/
def cutStretches : Nat → List (Nat × Nat) → Text → Text
  | _, [], t => t
  | place, stretch :: stretches, t =>
      t.take (stretch.1 - place) ++ cutStretches stretch.2 stretches (t.drop (stretch.2 - place))

/-- The source without its import statements. -/
def withoutImports (source : Text) : Text :=
  cutStretches 0
    (((HeaderStatement.ofSource source).filter HeaderStatement.isImport).map fun statement =>
      (statement.start, statement.stop)) source

end Header

namespace Matcher

/-- The word between two word edges. -/
def wholeWord (name : Text) : Matcher Unit := do
  wordEdge
  word name
  wordEdge

end Matcher

namespace Header

/-- Whether the name stands as a whole word outside the import statements. -/
def isReferenced (source name : Text) : Bool :=
  (Matcher.wholeWord name).occursIn (withoutImports source)

end Header
end Testwright
