import Testwright.Matcher.Basic

namespace Testwright
namespace Matcher

/-!
Looking for readings in a text.

A search tries the places of a text from the left and takes the preferred
reading at the first place that has one.  A search for all readings goes on
where the last one ended, and knows what stands before that place.
-/

variable {α : Type}

/-- The preferred reading of a text from its start. -/
def read? (matcher : Matcher α) (t : Text) : Option α :=
  (matcher (Place.start t)).head?.map Prod.fst

/-- Whether the text can be read from its start. -/
def reads (matcher : Matcher α) (t : Text) : Bool :=
  (matcher.read? t).isSome

/-- The worker of `find?`, from a place on. -/
def findFrom (matcher : Matcher α) : Text → Text → Option α
  | behind, [] => (matcher ⟨behind, []⟩).head?.map Prod.fst
  | behind, c :: ahead =>
      match matcher ⟨behind, c :: ahead⟩ with
      | reading :: _ => some reading.1
      | [] => findFrom matcher (c :: behind) ahead

/-- The preferred reading at the first place that has one. -/
def find? (matcher : Matcher α) (t : Text) : Option α :=
  findFrom matcher [] t

/-- Whether some place of the text has a reading. -/
def occursIn (matcher : Matcher α) (t : Text) : Bool :=
  (matcher.find? t).isSome

/-- The worker of `findAll`; the number counts the characters of the last
reading that are still to be passed over. -/
def findAllFrom (matcher : Matcher α) : Text → Nat → Text → List α
  | _, _, [] => []
  | behind, pending + 1, c :: ahead => findAllFrom matcher (c :: behind) pending ahead
  | behind, 0, c :: ahead =>
      match matcher ⟨behind, c :: ahead⟩ with
      | reading :: _ =>
          reading.1 :: findAllFrom matcher (c :: behind)
            (ahead.length - reading.2.ahead.length) ahead
      | [] => findAllFrom matcher (c :: behind) 0 ahead

/-- The values of all readings, from the left and without overlap, of a matcher
that takes a character at least. -/
def findAll (matcher : Matcher α) (t : Text) : List α :=
  findAllFrom matcher [] 0 t

/-- The worker of `replaceAll`, in step with `findAllFrom`. -/
def replaceAllFrom (matcher : Matcher α) (new : Text) : Text → Nat → Text → Text
  | _, _, [] => []
  | behind, pending + 1, c :: ahead => replaceAllFrom matcher new (c :: behind) pending ahead
  | behind, 0, c :: ahead =>
      match matcher ⟨behind, c :: ahead⟩ with
      | reading :: _ =>
          new ++ replaceAllFrom matcher new (c :: behind)
            (ahead.length - reading.2.ahead.length) ahead
      | [] => c :: replaceAllFrom matcher new (c :: behind) 0 ahead

/-- What every reading took, from the left and without overlap, gives way to
`new`. -/
def replaceAll (matcher : Matcher α) (new t : Text) : Text :=
  replaceAllFrom matcher new [] 0 t

end Matcher
end Testwright
