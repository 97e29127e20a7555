import Testwright.Text.Basic

namespace Testwright

/-!
The library that compiles patterns.

A pattern that depends on what is looked for is put together as a text, and a
library compiles it when it is needed.  A library keeps to limits of its own: it
refuses a pattern, well formed as it is, if what it compiles to is too large.
Where the limits lie is not said here.  The library is a parameter of every
reading that has such a pattern compiled, and a pattern that is refused finds
nothing.

This concerns the pattern for a private field, which grows with the type of the
field.  The other patterns are fixed, or hold names among fixed parts.  They are
taken as compiled: only a name of hundreds of thousands of characters makes such a
pattern too large.
-/

structure PatternLibrary where
  /-- Whether the library compiles the pattern with this text. -/
  compiles : Text → Bool

/-- The library that refuses the patterns with a longer text. -/
def PatternLibrary.within (limit : Nat) : PatternLibrary where
  compiles pattern := pattern.length ≤ limit

namespace Character

/-- The characters with a meaning of their own in the text of a pattern. -/
def isPatternSign (c : Char) : Bool :=
  "\\.+*?()|[]\x7b\x7d^$#&-~".toList.contains c

end Character

namespace Text

/-- The text of the pattern that reads the word as it stands. -/
def escaped (word : Text) : Text :=
  word.flatMap fun c => if Character.isPatternSign c then ['\\', c] else [c]

end Text
end Testwright
