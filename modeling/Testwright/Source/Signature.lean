import Testwright.Source.Area
import Testwright.Surface.Visibility

namespace Testwright

/-!
Method signatures.

An area is a signature if, the keywords of visibility and `final` taken out, it
reads as qualifiers, type parameters, a return type, a name, a parameter list
and a `throws` clause (`Matcher.signatureShape`), and neither the return type
nor the name is a word that can be neither.  That last condition is what keeps
statements such as `return compute(x);` out.
-/

structure Signature where
  /-- The whole area on one line, with its qualifiers. -/
  area : Text
  /-- The return type as written, `void` for none. -/
  returnType : Text
  name : Text
  /-- What stands between the parentheses. -/
  parameters : Text
  /-- The `throws` clause with its keyword, if there is one. -/
  throwsClause : Option Text

/-- The parts that a signature shape reads, where they stand. -/
structure SignatureParts where
  returnType : Stretch
  name : Stretch
  parameters : Stretch
  throwsClause : Option Stretch

namespace Matcher

open Character (isBlank isNamePart isDottedPart)

/-- The qualifiers besides visibility. -/
def qualifiers : List Text :=
  ["static".toList, "abstract".toList, "synchronized".toList, "native".toList,
    "strictfp".toList, "default".toList, "final".toList]

def isTypeArgumentPart (c : Char) : Bool :=
  isDottedPart c || isBlank c || [',', '<', '>', '?', '[', ']', '&'].contains c

/-- A keyword of visibility with the blanks behind it, and the blank before it
unless it starts the text. -/
def visibilityWord : Matcher Unit := do
  orElse textStart (one isBlank)
  anyOf Visibility.keywords
  run1 isBlank

/-- The word `final` between two blanks. -/
def finalWord : Matcher Unit := do
  one isBlank
  word "final".toList
  one isBlank

/-- A return type: a dotted name, arguments in angle brackets, bracket pairs. -/
def returnType : Matcher Stretch :=
  stretch do
    run1 isDottedPart
    maybe do
      run isBlank
      char '<'
      runs isTypeArgumentPart
      char '>'
    many do
      run isBlank
      char '['
      run isBlank
      char ']'

def signatureShape : Matcher SignatureParts := do
  textStart
  run isBlank
  many do
    anyOf qualifiers
    run1 isBlank
  maybe do
    char '<'
    lazyRuns fun c => !isParenthesis c
    char '>'
    run isBlank
  let returnType ← returnType
  run1 isBlank
  let name ← stretch (run1 isNamePart)
  run isBlank
  let parameters ← parenthesized
  run isBlank
  many do
    char '['
    run isBlank
    char ']'
    run isBlank
  let throwsClause ← optional throwsClause
  run isBlank
  one fun c => c == '{' || c == ';'
  textEnd
  return { returnType, name, parameters, throwsClause }

/-- The name with a parenthesis behind it and a blank or the start of the text
before it, the way a constructor shows. -/
def constructorCall (className : Text) : Matcher Unit := do
  orElse textStart (one isBlank)
  word className
  run isBlank
  char '('

end Matcher

namespace Signature

/-- The words that are no return type and no name of a method. -/
def reserved : List Text :=
  ["assert".toList, "break".toList, "case".toList, "catch".toList, "class".toList,
    "continue".toList, "default".toList, "do".toList, "else".toList, "enum".toList,
    "extends".toList, "finally".toList, "for".toList, "goto".toList, "if".toList,
    "implements".toList, "import".toList, "instanceof".toList, "interface".toList,
    "new".toList, "package".toList, "return".toList, "super".toList, "switch".toList,
    "synchronized".toList, "this".toList, "throw".toList, "throws".toList, "try".toList,
    "while".toList]

/-- The area with a space in place of each keyword of visibility and each
`final`, and one more in front. -/
def bareArea (area : Text) : Text :=
  ' ' :: Matcher.finalWord.replaceAll [' '] (Matcher.visibilityWord.replaceAll [' '] area)

/-- The name of a type text in front of its arguments and brackets. -/
def baseName (typeText : Text) : Text :=
  Text.trim (typeText.takeWhile fun c => !(c == '<' || c == '['))

/-- The signature that an area declares, if it declares one. -/
def ofArea? (area : Text) : Option Signature := do
  let parts ← Matcher.signatureShape.read? (bareArea area)
  let returnType := Text.trim parts.returnType.text
  let name := parts.name.text
  if reserved.contains (baseName returnType) || reserved.contains name then
    none
  else
    return {
      area
      returnType
      name
      parameters := Text.trim parts.parameters.text
      throwsClause := parts.throwsClause.map fun clause => Text.trim clause.text }

/-- Everything in front of the parameter list. -/
def heading (signature : Signature) : Text :=
  Text.before '(' signature.area

/-- Whether an area shows a constructor of the class.  A class without a name
has none. -/
def isConstructorArea (className area : Text) : Bool :=
  !className.isEmpty && (Matcher.constructorCall className).occursIn area

/-- The method signatures of a normalized source in order, the constructors of
the class left out. -/
def findAll (source className : Text) : List Signature :=
  ((Text.areas source).filter fun area => !isConstructorArea className area).filterMap ofArea?

end Signature
end Testwright
