import Testwright.Convention.Detection
import Testwright.Header.Removal
import Testwright.Refusal
import Testwright.Settings.TestStyle

namespace Testwright
namespace Convention

/-!
Conversion of a test source between the conventions.

Four things change: the header of the first class, the lines that mark a test,
the names of the test methods, and the imports.  Every other line stays as it
is, byte for byte.
-/

/-! ### From legacy to modern -/

/-- Whether the line lets a mark before it reach the declaration after it: a
blank line and a line of other annotations do. -/
def carriesMark (content : Text) : Bool :=
  match Text.trimStart content with
  | [] => true
  | c :: _ => c == '@'

/-- The declaration of a test method without its prefix, with a mark on a line
of its own unless there is one. -/
def unprefixed? (legacyPrefix separator : Text) (marked : Bool) (line : Line) : Option Text :=
  match Matcher.voidLine.read? line.content with
  | none => none
  | some declared =>
      match Text.dropStart? legacyPrefix declared.name with
      | none => none
      | some bare =>
          if bare.isEmpty then
            none
          else
            some ((if marked then [] else declared.indent ++ "@Test".toList ++ separator) ++
              declared.indent ++ declared.lead ++ bare ++ declared.rest ++ line.ending)

/-- The lines of a legacy source with its tests marked and their prefix taken
off.  The flag says whether a mark reaches the first line. -/
def markLines (legacyPrefix separator : Text) : Bool → List Line → Text
  | _, [] => []
  | marked, line :: lines =>
      if Matcher.markedLine.reads line.content then
        line.text ++ markLines legacyPrefix separator true lines
      else
        (unprefixed? legacyPrefix separator marked line).getD line.text ++
          markLines legacyPrefix separator (marked && carriesMark line.content) lines

/-- The header without its first clause that extends the base class. -/
def dropBaseClass (header : ClassHeader) : Text :=
  match Matcher.extendsTestCase.find? header.clauses.text with
  | none => header.clauses.before ++ header.clauses.text ++ header.clauses.after
  | some clause => header.clauses.before ++ clause.before ++ clause.after ++ header.clauses.after

/-! ### From modern to legacy -/

/-- The declaration of a test method with the prefix, unless it has it. -/
def prefixedLine (legacyPrefix : Text) (declared : VoidLine) : Text :=
  declared.indent ++ declared.lead ++
    (if (Text.dropStart? legacyPrefix declared.name).isSome then [] else legacyPrefix) ++
    declared.name ++ declared.rest

/-- The lines of a modern source with its marks taken out and the methods behind
them given the prefix.  The flag says whether a mark waits for its method. -/
def unmarkLines (legacyPrefix : Text) : Bool → List Line → Text
  | _, [] => []
  | waiting, line :: lines =>
      match Matcher.markedLine.read? line.content with
      | some marked =>
          if Text.allBlank marked.rest then
            unmarkLines legacyPrefix true lines
          else
            match Matcher.voidLine.read? (marked.indent ++ marked.rest) with
            | some declared =>
                prefixedLine legacyPrefix declared ++ line.ending ++
                  unmarkLines legacyPrefix false lines
            | none =>
                marked.indent ++ marked.rest ++ line.ending ++
                  unmarkLines legacyPrefix true lines
      | none =>
          if waiting then
            match Matcher.voidLine.read? line.content with
            | some declared =>
                prefixedLine legacyPrefix declared ++ line.ending ++
                  unmarkLines legacyPrefix false lines
            | none => line.text ++ unmarkLines legacyPrefix true lines
          else
            line.text ++ unmarkLines legacyPrefix false lines

/-- The header with a clause that extends the base class, behind the name and
the type parameters. -/
def addBaseClass (header : ClassHeader) : Text :=
  header.declaration.before ++ header.declaration.text ++ " extends TestCase".toList ++
    header.declaration.after

/-! ### Both ways -/

/-- The source with the imports added that the convention and the target, if
there is one, call for. -/
def withImports (target : Option ClassSurface) (convention : Convention) (separator : Text)
    (source : Text) : Text :=
  Header.insertBlock source (Header.missingImports source separator target convention) separator

/-- The source without the import, if the name is not used. -/
def dropUnused (line name source : Text) : Text :=
  if Header.isReferenced source name then source else Header.removeImport source line

def toModern (style : TestStyle) (target : Option ClassSurface) (separator source : Text) :
    Except Refusal Text :=
  match Matcher.classHeader.find? source with
  | none => .error .unrecognizedConvention
  | some header =>
      let lines := Line.ofText (dropBaseClass header)
      let marked := markLines style.legacyPrefix separator false lines
      .ok (withImports target modern separator
        (dropUnused baseClassImport "TestCase".toList marked))

def toLegacy (style : TestStyle) (target : Option ClassSurface) (separator source : Text) :
    Except Refusal Text :=
  match Matcher.classHeader.find? source with
  | none => .error .unrecognizedConvention
  | some header =>
      match Matcher.extendsBase.find? header.clauses.text with
      | some base => .error (.incompatibleBaseClass (Text.trim base.text))
      | none =>
          let lines := Line.ofText (addBaseClass header)
          let unmarked := unmarkLines style.legacyPrefix false lines
          .ok (withImports target legacy separator
            (dropUnused markImport "Test".toList
              (Header.removeImport unmarked assertionsImport)))

/-- The source in the wanted convention.  A source that shows it already stays
as it is. -/
def convert (style : TestStyle) (target : Option ClassSurface) (wanted : Convention)
    (source : Text) : Except Refusal Text :=
  match ofSource? source with
  | none => .error .unrecognizedConvention
  | some shown =>
      if shown = wanted then
        .ok source
      else
        let separator := Text.lineSeparator source style.lineSeparator
        match wanted with
        | modern => toModern style target separator source
        | legacy => toLegacy style target separator source

end Convention
end Testwright
