import Testwright.Matcher.Search

namespace Testwright

/-!
Declaration areas.

A normalized source is cut behind each semicolon and brace.  A piece may
declare a method or a constructor only if it has one pair of parentheses and
does not end with a closing brace; such a piece, written on one line, is an
area.  Areas still hold much that declares nothing, calls and control headers
above all.  Telling those apart is left to the readers of areas.
-/

namespace Text

/-- A semicolon or a brace ends a piece of a source. -/
def isTerminator (c : Char) : Bool :=
  c == ';' || c == '{' || c == '}'

/-- The pieces of a text, each with its terminator.  What follows the last
terminator is no piece. -/
def segments : Text → List Text
  | [] => []
  | c :: t =>
      if isTerminator c then
        [c] :: segments t
      else
        match segments t with
        | [] => []
        | piece :: pieces => (c :: piece) :: pieces

/-- The text on one line, each line feed turned into a space. -/
def onOneLine (t : Text) : Text :=
  (t.filter fun c => !(c == '\r')).map fun c => if c = '\n' then ' ' else c

end Text

namespace Matcher

open Character (isBlank isDottedPart)

def isParenthesis (c : Char) : Bool :=
  c == '(' || c == ')'

/-- A list between parentheses, with no parenthesis inside. -/
def parenthesized : Matcher Stretch := do
  char '('
  let inner ← stretch (run fun c => !isParenthesis c)
  char ')'
  return inner

/-- One pair of parentheses, and behind it an opening brace or a semicolon that
ends the text. -/
def areaShape : Matcher Unit := do
  run fun c => !(Text.isTerminator c || isParenthesis c)
  let _ ← parenthesized
  run fun c => !(Text.isTerminator c || isParenthesis c)
  one fun c => c == '{' || c == ';'
  textEnd

def isThrowsPart (c : Char) : Bool :=
  isDottedPart c || c == ',' || isBlank c

/-- A `throws` clause, up to what cannot belong to it.  The keyword needs a blank
behind it and then something more, which may be a second blank. -/
def throwsClause : Matcher Stretch :=
  stretch do
    word "throws".toList
    one isBlank
    run1 isThrowsPart

end Matcher

namespace Text

/-- The areas of a normalized source, in order. -/
def areas (source : Text) : List Text :=
  ((segments source).map trim).filterMap fun piece =>
    if Matcher.areaShape.reads piece then some (onOneLine piece) else none

end Text
end Testwright
