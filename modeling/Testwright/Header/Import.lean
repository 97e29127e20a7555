import Testwright.Header.Statement
import Testwright.Surface.ClassSurface

namespace Testwright
namespace Header

/-!
Imports of a header: asking for them and adding them.

An import is present if some statement of the header has its canonical text.
Asking changes nothing and adding looks at the source alone, so an import that is
asked for twice is added twice.  New imports go behind the last import; without
one, behind the package statement and an empty line; without that, to the top,
an empty line behind them.
-/

/-- Whether the source has the import.  A line that is no statement is present
if some line of the source is the same, blanks at the ends aside. -/
def containsImport (source line : Text) : Bool :=
  match HeaderStatement.ofLine? line with
  | some wanted => (HeaderStatement.ofSource source).any fun statement => statement.text == wanted
  | none => (Line.ofText source).any fun other => Text.trim other.content == Text.trim line

/-- The block with the line and a separator behind it, unless the import is in
the source already. -/
def appendIfAbsent (source separator block line : Text) : Text :=
  if containsImport source line then block else block ++ line ++ separator

/-- The import statements that the target and the convention call for, those of
the target first. -/
def neededImports (target : Option ClassSurface) (convention : Convention) : List Text :=
  ((target.map ClassSurface.imports).getD []).map
      (fun imported => "import ".toList ++ imported ++ [';']) ++
    convention.imports

/-- The needed imports that the source lacks, as a block of lines. -/
def missingImports (source separator : Text) (target : Option ClassSurface)
    (convention : Convention) : Text :=
  (neededImports target convention).foldl (appendIfAbsent source separator) []

def isSpaceOrTab (c : Char) : Bool :=
  c == ' ' || c == '\t'

/-- The rest of a line if only spaces and tabs are on it, with the line break,
and what stands behind it.  Otherwise nothing is taken. -/
def takeLineEnd (t : Text) : Text × Text :=
  let spaces := t.takeWhile isSpaceOrTab
  match t.dropWhile isSpaceOrTab with
  | '\r' :: '\n' :: rest => (spaces ++ ['\r', '\n'], rest)
  | '\n' :: rest => (spaces ++ ['\n'], rest)
  | _ => ([], t)

/-- The text that ends a line: itself, or with the separator behind it. -/
def endLine (separator t : Text) : Text :=
  if t.getLast? = some '\n' then t else t ++ separator

/-- The source with the block of import lines added. -/
def insertBlock (source block separator : Text) : Text :=
  if block.isEmpty then
    source
  else
    let statements := HeaderStatement.ofSource source
    match (statements.filter HeaderStatement.isImport).getLast?,
        statements.find? fun statement => !statement.isImport with
    | some statement, _ =>
        let rest := takeLineEnd (source.drop statement.stop)
        endLine separator (source.take statement.stop ++ rest.1) ++ block ++ rest.2
    | none, some statement =>
        let rest := takeLineEnd (source.drop statement.stop)
        endLine separator (source.take statement.stop ++ rest.1) ++ separator ++ block ++ rest.2
    | none, none =>
        let startsWithBreak := source.head? = some '\r' ∨ source.head? = some '\n'
        block ++ (if startsWithBreak then [] else separator) ++ source

/-- The source with every import that the target and the convention call for. -/
def addMissingImports (source : Text) (target : ClassSurface) (convention : Convention) : Text :=
  let separator := Text.lineSeparator source ['\n']
  insertBlock source (missingImports source separator (some target) convention) separator

end Header
end Testwright
