import Testwright.Character.Word
import Testwright.Source.TypeText

namespace Testwright

/-!
Parameter lists.

A parameter is a type text and a name.  Three dots end the type; otherwise the
last blank outside angle brackets does.  Bracket pairs behind the name belong to
the type.  A parameter that does not have this form is left out, so what is read
is always a list of complete parameters.
-/

structure Parameter where
  name : Text
  type : TypeTree

namespace Parameter

open Character (isNamePart)

/-- A name has a character, and name characters only. -/
def isName (t : Text) : Bool :=
  !t.isEmpty && t.all isNamePart

/-- The type text and the name text of a parameter without brackets behind the
name. -/
def cut? (t : Text) : Option (Text × Text) :=
  match Text.cutBefore? "...".toList t with
  | some cut => some (cut.1 ++ cut.2.take 3, Text.trim (cut.2.drop 3))
  | none =>
      match Text.lastTopLevelBlank? 0 t with
      | none => none
      | some cut =>
          if (Text.trimStart cut.2).head? = some '[' then none
          else some (cut.1, Text.trim cut.2)

/-- One parameter, leading `final`s aside. -/
def read? (policy : ExtractionPolicy) (scope : NameScope) (t : Text) : Option Parameter := do
  let bare := Text.trim (Text.dropKeywords "final".toList (Text.trim t))
  let peeled := Text.peel TypeTree.bracketLayer? (Text.trimEnd bare)
  let parts ← cut? peeled.1
  if isName parts.2 then
    let type ← TypeTree.read? policy scope parts.1
    return { name := parts.2, type := type.withDimensions (type.dimensions + peeled.2) }
  else
    none

/-- The parameters that stand between the parentheses of a declaration. -/
def readAll (policy : ExtractionPolicy) (scope : NameScope) (t : Text) : List Parameter :=
  (Text.topLevelPieces t).filterMap (read? policy scope)

end Parameter
end Testwright
