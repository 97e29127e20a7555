import Testwright.Matcher.Search

namespace Testwright

/-!
Visibility of a declaration, and how a signature text shows it.

A keyword counts where a blank or the start of the text precedes it and a blank
follows it, so `publicCount` and `public(` show nothing.  A signature without a
keyword has the visibility that the reader is told to assume.
-/

inductive Visibility where
  | publicAccess
  | protectedAccess
  | packageAccess
  | privateAccess
deriving DecidableEq

namespace Visibility

/-- The keyword as written in a source.  Package visibility has none. -/
def keyword? : Visibility → Option Text
  | publicAccess => some "public".toList
  | protectedAccess => some "protected".toList
  | packageAccess => none
  | privateAccess => some "private".toList

/-- The visibility in words. -/
def describe : Visibility → Text
  | publicAccess => "public".toList
  | protectedAccess => "protected".toList
  | packageAccess => "package-local".toList
  | privateAccess => "private".toList

/-- The keyword of every visibility that has one. -/
def keywords : List Text :=
  ["public".toList, "protected".toList, "private".toList]

end Visibility

namespace Matcher

open Character (isBlank)

/-- A word with a blank or the start of the text before it and a blank
behind it. -/
def blankDelimited (keyword : Text) : Matcher Unit := do
  orElse textStart (one isBlank)
  word keyword
  one isBlank

end Matcher

namespace Visibility

/-- Whether the signature shows the keyword between blanks. -/
def shows (signature keyword : Text) : Bool :=
  (Matcher.blankDelimited keyword).occursIn signature

def showsPublic (signature : Text) : Bool :=
  shows signature "public".toList

def showsProtected (signature : Text) : Bool :=
  shows signature "protected".toList

def showsPrivate (signature : Text) : Bool :=
  shows signature "private".toList

/-- Whether the signature shows no visibility at all. -/
def showsNone (signature : Text) : Bool :=
  !showsPublic signature && !showsProtected signature && !showsPrivate signature

/-- The visibility that a signature shows, or `implied` if it shows none.  Of
several keywords `public` goes before `protected`, and both before
`private`. -/
def ofSignature (implied : Visibility) (signature : Text) : Visibility :=
  if showsPublic signature then
    publicAccess
  else if showsProtected signature then
    protectedAccess
  else if showsNone signature then
    implied
  else
    privateAccess

end Visibility
end Testwright
