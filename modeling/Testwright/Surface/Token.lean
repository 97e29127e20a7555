import Testwright.Character.Alphanumeric
import Testwright.Text.Nesting

namespace Testwright
namespace Token

/-!
Identifier tokens of type texts.

The name of a test spells out the parameter types of its method, so each type
text is turned into characters that an identifier may hold.  Type arguments are
left out, each array bracket pair (and the three dots of a variable arity
parameter) becomes `Array`, and any other character that an identifier cannot
hold becomes an underscore.
-/

open Character (isAlphanumeric)

/-- A token keeps letters, numbers, underscores and dollar signs. -/
def isTokenChar (c : Char) : Bool :=
  isAlphanumeric c || c == '_' || c == '$'

def sanitize (t : Text) : Text :=
  t.map fun c => if isTokenChar c then c else '_'

/-- One `Array` for each dimension. -/
def arrayMarks (dimensions : Nat) : Text :=
  (List.replicate dimensions "Array".toList).flatten

/-- Three dots are written as a bracket pair. -/
def dotsToBrackets (t : Text) : Text :=
  Text.replaceAll "...".toList "[]".toList t

/-- The token of a type text, given what to keep of the name in front of the
first bracket. -/
def render (keep : Text → Text) (typeText : Text) : Text :=
  let erased := dotsToBrackets (Text.trim (Text.eraseAngles 0 typeText))
  let name := erased.takeWhile fun c => !(c == '[')
  let brackets := erased.dropWhile fun c => !(c == '[')
  sanitize (Text.trim (keep name)) ++ arrayMarks (brackets.count '[')

/-- The token of a type text without the packages in front of its name. -/
def simple (typeText : Text) : Text :=
  render (Text.afterLast '.') typeText

/-- The token of a type text with the packages that it names, their dots turned
into underscores. -/
def qualified (typeText : Text) : Text :=
  render id typeText

end Token
end Testwright
