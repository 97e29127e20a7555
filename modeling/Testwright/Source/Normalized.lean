import Testwright.Matcher.Search
import Testwright.Text.Line

namespace Testwright

/-!
Normalized sources.

The readers of this folder expect a text without comments, without the contents
of literals and without annotations.  `normalize` leaves the quotes of a
literal, so that an expression stays recognizable, and every line break, so
that nothing on different lines is joined.

The scan goes region by region.  `Region.step` decides on one character by the
region it stands in and the characters ahead, and says how many of those go
with it.
-/

/-- What kind of text a character of a source belongs to. -/
inductive Region where
  | code
  | lineComment
  | blockComment
  | string
  | character
  | textBlock
deriving DecidableEq

/-- What becomes of one character: the text written for it, the region behind
it, and how many of the characters ahead are passed over with it. -/
structure RegionStep where
  written : Text
  region : Region
  passed : Nat

namespace Region

/-- The three quotes around a text block. -/
def textBlockQuotes : Text :=
  ['"', '"', '"']

/-- A line break is written and anything else is left out. -/
def onlyBreak (c : Char) : Text :=
  if c = '\n' then ['\n'] else []

def stepInCode (c : Char) (ahead : Text) : RegionStep :=
  if c = '/' ∧ ahead.head? = some '/' then
    ⟨[' '], lineComment, 1⟩
  else if c = '/' ∧ ahead.head? = some '*' then
    ⟨[' '], blockComment, 1⟩
  else if c = '"' ∧ ['"', '"'].isPrefixOf ahead then
    ⟨textBlockQuotes, textBlock, 2⟩
  else if c = '"' then
    ⟨['"'], string, 0⟩
  else if c = '\x27' then
    ⟨['\x27'], character, 0⟩
  else
    ⟨[c], code, 0⟩

def stepInLineComment (c : Char) : RegionStep :=
  ⟨onlyBreak c, if c = '\n' then code else lineComment, 0⟩

def stepInBlockComment (c : Char) (ahead : Text) : RegionStep :=
  if c = '*' ∧ ahead.head? = some '/' then
    ⟨[], code, 1⟩
  else
    ⟨onlyBreak c, blockComment, 0⟩

/-- A backslash takes the next character with it; a line break that it takes
still ends a line. -/
def stepInTextBlock (c : Char) (ahead : Text) : RegionStep :=
  if c = '\\' then
    ⟨(ahead.head?.map onlyBreak).getD [], textBlock, 1⟩
  else if c = '"' ∧ ['"', '"'].isPrefixOf ahead then
    ⟨textBlockQuotes, code, 2⟩
  else
    ⟨onlyBreak c, textBlock, 0⟩

/-- A literal ends at its quote, or unfinished at the end of its line.  A
backslash takes the next character with it, whatever that is. -/
def stepInLiteral (region : Region) (quote c : Char) : RegionStep :=
  if c = '\\' then
    ⟨[], region, 1⟩
  else if c = '\n' then
    ⟨['\n'], code, 0⟩
  else if c = quote then
    ⟨[quote], code, 0⟩
  else
    ⟨[], region, 0⟩

def step (region : Region) (c : Char) (ahead : Text) : RegionStep :=
  match region with
  | code => stepInCode c ahead
  | lineComment => stepInLineComment c
  | blockComment => stepInBlockComment c ahead
  | string => stepInLiteral string '"' c
  | character => stepInLiteral character '\x27' c
  | textBlock => stepInTextBlock c ahead

/-- The text without comments and without the contents of literals, read from a
region on.  The number counts the characters still to be passed over. -/
def blankOut : Region → Nat → Text → Text
  | _, _, [] => []
  | region, pending + 1, _ :: t => blankOut region pending t
  | region, 0, c :: t =>
      (region.step c t).written ++ blankOut (region.step c t).region (region.step c t).passed t

end Region

namespace Matcher

open Character (isBlank isDottedPart)

/-- An annotation: the sign, a dotted name, and a list of arguments without
parentheses inside, if one follows. -/
def annotationMark : Matcher Unit := do
  char '@'
  run isBlank
  run1 isDottedPart
  maybe do
    run isBlank
    char '('
    run fun c => !(c == '(' || c == ')')
    char ')'

end Matcher

namespace Text

/-- Every annotation gives way to a space. -/
def dropAnnotations (t : Text) : Text :=
  Matcher.annotationMark.replaceAll [' '] t

/-- The line with its tabs turned into spaces and without blanks at its end. -/
def tidyLine (line : Text) : Text :=
  trimEnd (line.map fun c => if c = '\t' then ' ' else c)

/-- Every line of the text tidied. -/
def tidyLines (t : Text) : Text :=
  ['\n'].intercalate ((splitOn (· == '\n') t).map tidyLine)

/-- The source without comments, contents of literals, annotations and blanks
at the ends of lines, with line feeds for line breaks and spaces for tabs. -/
def normalize (source : Text) : Text :=
  tidyLines (dropAnnotations (Region.blankOut Region.code 0 (unifyLineBreaks source)))

end Text
end Testwright
