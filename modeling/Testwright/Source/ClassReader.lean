import Testwright.Refusal
import Testwright.Source.MethodReader

namespace Testwright

/-!
The surface of a class, read from its source.

Name, package, imports and constructors come from the normalized source by
patterns of their own; the methods come from `Method.readAll`.  The source need
not compile.  It is refused only if it is too large or declares no class.
-/

namespace Matcher

open Character (isBlank isNamePart isDottedPart)

/-- The words that begin the declaration of a class. -/
def classWords : List Text :=
  ["class".toList, "interface".toList, "enum".toList, "record".toList]

/-- The name behind a word that begins a class. -/
def className : Matcher Stretch := do
  wordEdge
  anyOf classWords
  run1 isBlank
  stretch (run1 isNamePart)

/-- The name in a package statement, with no blanks inside. -/
def packageName : Matcher Stretch := do
  wordEdge
  word "package".toList
  run1 isBlank
  let name ← stretch (run1 isDottedPart)
  run isBlank
  char ';'
  return name

/-- A dot with any blanks around it. -/
def spacedDot : Matcher Unit := do
  run isBlank
  char '.'
  run isBlank

/-- The path in an import statement, and whether the import is static. -/
def importPath : Matcher (Bool × Stretch) := do
  wordEdge
  word "import".toList
  run1 isBlank
  let isStatic ← optional do
    word "static".toList
    run1 isBlank
  let path ← stretch do
    run1 isNamePart
    many do
      spacedDot
      run1 isNamePart
    maybe do
      spacedDot
      char '*'
  run isBlank
  char ';'
  return (isStatic.isSome, path)

/-- The keywords and the parameters of a constructor with a body. -/
def constructorShape (className : Text) : Matcher (Stretch × Stretch) := do
  textStart
  let keywords ← stretch do
    many do
      anyOf Visibility.keywords
      run1 isBlank
  word className
  run isBlank
  let parameters ← parenthesized
  run isBlank
  let _ ← optional throwsClause
  run isBlank
  char '{'
  textEnd
  return (keywords, parameters)

end Matcher

namespace Constructor

/-- The constructor of the class that an area declares, if it declares one. -/
def ofArea? (policy : ExtractionPolicy) (scope : NameScope) (className area : Text) :
    Option Constructor := do
  let parts ← (Matcher.constructorShape className).read? area
  let parameters := Parameter.readAll policy scope parts.2.text
  return {
    visibility := Visibility.ofSignature policy.implicitVisibility parts.1.text
    parameterNames := parameters.map Parameter.name
    parameterTypes := parameters.map Parameter.type }

/-- The constructors of the class in a normalized source, in order. -/
def readAll (policy : ExtractionPolicy) (surface : ClassSurface) (source : Text) :
    List Constructor :=
  (Text.areas source).filterMap (ofArea? policy (NameScope.ofSurface surface) surface.name)

end Constructor

namespace ClassSurface

/-- An imported name as a surface lists it. -/
def importedName (isStatic : Bool) (path : Text) : Text :=
  (if isStatic then "static ".toList else []) ++ (Text.words path).flatten

/-- The imported names of a normalized source, in order. -/
def importsOf (source : Text) : List Text :=
  (Matcher.importPath.findAll source).map fun found => importedName found.1 found.2.text

/-- The surface of the class that a source declares. -/
def read (library : PatternLibrary) (policy : ExtractionPolicy) (source : Text) :
    Except Refusal ClassSurface :=
  if policy.maxSourceSize < Text.utf8Size source then
    .error (.sourceTooLarge (Text.utf8Size source) policy.maxSourceSize)
  else
    let normalized := Text.normalize source
    match Matcher.className.find? normalized with
    | none => .error .missingClassDeclaration
    | some name =>
        let header : ClassSurface := {
          name := name.text
          package := (Matcher.packageName.find? normalized).map Stretch.text
          imports := importsOf normalized
          constructors := []
          methods := [] }
        .ok { header with
          constructors := Constructor.readAll policy header normalized
          methods := Method.readAll library policy header normalized }

end ClassSurface
end Testwright
