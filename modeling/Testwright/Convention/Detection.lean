import Testwright.Header.Import

namespace Testwright

/-!
Telling the convention of a test source.

A source whose first class header extends the base class is legacy, whatever
else it holds.  Otherwise a line that begins with the mark, or the import of the
mark, makes it modern.  A source with none of these shows no convention.
-/

/-- The first class header of a source, up to its opening brace. -/
structure ClassHeader where
  /-- The modifiers, the name and the type parameters. -/
  declaration : Stretch
  /-- What follows them in front of the brace. -/
  clauses : Stretch

/-- A line that begins with the mark of a test. -/
structure MarkedLine where
  indent : Text
  /-- What follows the mark, its arguments and the spaces behind them. -/
  rest : Text

/-- A line that declares a void method. -/
structure VoidLine where
  indent : Text
  /-- The modifiers and the word `void`, with the blanks behind it. -/
  lead : Text
  name : Text
  /-- The parenthesis, blanks before it included, and the rest of the line. -/
  rest : Text

namespace Matcher

open Character (isBlank isNamePart isDottedPart)
open Header (isSpaceOrTab)

def isNotBrace (c : Char) : Bool :=
  !(c == '\x7b')

def isNotBreak (c : Char) : Bool :=
  !(c == '\n')

/-- Arguments in angle brackets, up to the first closing one that can be used. -/
def angleArguments : Matcher Unit := do
  run isBlank
  char '<'
  lazyRuns isNotBrace
  char '>'

def classModifiers : List Text :=
  ["public".toList, "protected".toList, "private".toList, "abstract".toList, "final".toList,
    "static".toList, "strictfp".toList]

def methodModifiers : List Text :=
  ["public".toList, "protected".toList, "private".toList, "static".toList, "final".toList,
    "synchronized".toList]

/-- Any number of the words, each with blanks behind it. -/
def spacedWords (words : List Text) : Matcher Unit :=
  many do
    anyOf words
    run1 isBlank

/-- A class header at the start of a line, or behind a semicolon or a closing
brace. -/
def classHeader : Matcher ClassHeader := do
  orElse lineStart (one fun c => c == ';' || c == '}')
  run isSpaceOrTab
  let declaration ← stretch do
    spacedWords classModifiers
    word "class".toList
    run1 isBlank
    run1 isNamePart
    maybe angleArguments
  let clauses ← stretch (run isNotBrace)
  char '\x7b'
  return { declaration, clauses }

/-- The word `extends` and the class behind it. -/
def extendsBase : Matcher Stretch := do
  wordEdge
  word "extends".toList
  run1 isBlank
  stretch do
    run1 isDottedPart
    maybe angleArguments

/-- The clause that extends the base class of the legacy convention, with the
blanks in front of it. -/
def extendsTestCase : Matcher Stretch :=
  stretch do
    run isBlank
    wordEdge
    word "extends".toList
    run1 isBlank
    maybe (word "junit.framework.".toList)
    word "TestCase".toList
    wordEdge

def markedLine : Matcher MarkedLine := do
  textStart
  let indent ← stretch (run isSpaceOrTab)
  word "@Test".toList
  wordEdge
  maybe do
    run isBlank
    char '('
    run fun c => !(c == ')')
    char ')'
  run isSpaceOrTab
  let rest ← stretch (run isNotBreak)
  textEnd
  return { indent := indent.text, rest := rest.text }

def voidLine : Matcher VoidLine := do
  textStart
  let indent ← stretch (run isSpaceOrTab)
  let lead ← stretch do
    spacedWords methodModifiers
    word "void".toList
    run1 isBlank
  let name ← stretch (run1 isNamePart)
  let rest ← stretch do
    run isBlank
    char '('
    run isNotBreak
  textEnd
  return { indent := indent.text, lead := lead.text, name := name.text, rest := rest.text }

end Matcher

namespace Convention

/-- Whether the first class header extends the base class of the legacy
convention. -/
def extendsBaseClass (source : Text) : Bool :=
  (Matcher.classHeader.find? source).any fun header =>
    Matcher.extendsTestCase.occursIn header.clauses.text

/-- Whether some line begins with the mark of the modern convention. -/
def hasMarkedLine (source : Text) : Bool :=
  (Line.ofText source).any fun line => Matcher.markedLine.reads (Text.trimEnd line.content)

/-- The convention that a test source shows. -/
def ofSource? (source : Text) : Option Convention :=
  if extendsBaseClass source then
    some legacy
  else if hasMarkedLine source || Header.containsImport source markImport then
    some modern
  else
    none

end Convention
end Testwright
