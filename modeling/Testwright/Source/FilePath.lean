import Testwright.Text.Basic

namespace Testwright
namespace FilePath

/-!
Which files hold sources that can be read.

A file is known by the extension of its name.  The name is the last part of the
path that is neither empty nor a single dot; two dots are no name.  The
extension stands behind the last dot of the name, unless that dot begins it.
-/

/-- The name of the file that a path leads to. -/
def fileName? (path : Text) : Option Text :=
  let parts := (Text.splitOn (· == '/') path).filter fun part => !(part.isEmpty || part == ['.'])
  match parts.getLast? with
  | none => none
  | some name => if name = ['.', '.'] then none else some name

/-- The extension of the file name without its dot. -/
def extension? (path : Text) : Option Text :=
  match (fileName? path).bind (Text.cutAtLast? '.') with
  | none => none
  | some cut => if cut.1.isEmpty then none else some cut.2

/-- Whether the extension with its dot is one of those given. -/
def hasExtension (extensions : List Text) (path : Text) : Bool :=
  match extension? path with
  | none => false
  | some extension => extensions.contains ('.' :: extension)

/-- The language of the sources that this library reads. -/
def sourceLanguage : Text :=
  "java".toList

/-- The extensions of the sources that this library reads. -/
def sourceExtensions : List Text :=
  [".java".toList]

/-- Whether the file holds a source that this library reads. -/
def isSource (path : Text) : Bool :=
  hasExtension sourceExtensions path

end FilePath
end Testwright
