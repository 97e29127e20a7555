import Testwright.Character.Blank
import Testwright.Character.Word
import Testwright.Text.Basic

namespace Testwright

/-!
Matchers: nondeterministic readers of a text at a place.

A place (`Place`) remembers what has been read, nearest character first, and
what lies ahead.  A matcher lists every way of reading on from a place, the
preferred way first, as a value and the place where that reading ends.  Trying
alternatives in order is appending lists and reading two things in turn is a
`flatMap`, so the first element of the list is what a reader that backtracks
would settle for, and membership in the list is matching.

Runs come in three kinds.  `run` and `run1` take the longest run and nothing
else; they stand where what follows cannot begin with a character of the run.
`runs` and `runs1` offer every length, the longest first, and `lazyRuns` offers
every length, the shortest first.
-/

/-- A place in a text. -/
structure Place where
  behind : Text
  ahead : Text

namespace Place

open Character (isWord)

/-- The place before the first character. -/
def start (t : Text) : Place :=
  ⟨[], t⟩

def atStart (place : Place) : Bool :=
  place.behind.isEmpty

def atEnd (place : Place) : Bool :=
  place.ahead.isEmpty

/-- At the start of the text or directly behind a line feed. -/
def atLineStart (place : Place) : Bool :=
  match place.behind with
  | [] => true
  | c :: _ => c == '\n'

/-- Between a word character and something else, or an end of the text. -/
def atWordEdge (place : Place) : Bool :=
  (place.behind.head?.any isWord) != (place.ahead.head?.any isWord)

end Place

/-- A stretch of a text, from one place to a later one. -/
structure Stretch where
  first : Place
  last : Place

namespace Stretch

/-- What stands before the stretch. -/
def before (stretch : Stretch) : Text :=
  stretch.first.behind.reverse

def text (stretch : Stretch) : Text :=
  stretch.first.ahead.take (stretch.first.ahead.length - stretch.last.ahead.length)

/-- What stands behind the stretch. -/
def after (stretch : Stretch) : Text :=
  stretch.last.ahead

end Stretch

/-- Every way of reading on from a place, the preferred one first. -/
def Matcher (α : Type) : Type :=
  Place → List (α × Place)

namespace Matcher

variable {α β : Type}

instance : Monad Matcher where
  pure value := fun place => [(value, place)]
  bind matcher next := fun place =>
    (matcher place).flatMap fun reading => next reading.1 reading.2

theorem mem_pure {value found : α} {place later : Place} :
    (found, later) ∈ (pure value : Matcher α) place ↔ found = value ∧ later = place := by
  change (found, later) ∈ [(value, place)] ↔ _
  simp

/-- The readings of two matchers in turn are the readings of the second behind a
reading of the first. -/
theorem mem_bind {matcher : Matcher α} {next : α → Matcher β} {found : β} {place later : Place} :
    (found, later) ∈ (matcher >>= next) place ↔
      ∃ value between, (value, between) ∈ matcher place ∧ (found, later) ∈ next value between := by
  change (found, later) ∈ (matcher place).flatMap (fun reading => next reading.1 reading.2) ↔ _
  simp [List.mem_flatMap]

/-- First the readings of `left`, then those of `right`. -/
def orElse (left right : Matcher α) : Matcher α :=
  fun place => left place ++ right place

theorem mem_orElse {left right : Matcher α} {reading : α × Place} {place : Place} :
    reading ∈ orElse left right place ↔ reading ∈ left place ∨ reading ∈ right place :=
  List.mem_append

/-- The readings of `matcher`, and then the empty one. -/
def optional (matcher : Matcher α) : Matcher (Option α) :=
  orElse (do return some (← matcher)) (pure none)

/-- The readings of `matcher`, and then the empty one, where the value does not
matter. -/
def maybe (matcher : Matcher Unit) : Matcher Unit :=
  orElse matcher (pure ())

/-! ### Places -/

/-- Reads nothing, where the condition holds. -/
def require (condition : Place → Bool) : Matcher Unit :=
  fun place => if condition place then [((), place)] else []

def textStart : Matcher Unit := require Place.atStart
def textEnd : Matcher Unit := require Place.atEnd
def lineStart : Matcher Unit := require Place.atLineStart
def wordEdge : Matcher Unit := require Place.atWordEdge

/-- The stretch that a matcher reads, beside its value. -/
def stretchOf (matcher : Matcher α) : Matcher (Stretch × α) :=
  fun place => (matcher place).map fun reading => ((⟨place, reading.2⟩, reading.1), reading.2)

/-- The stretch that a matcher reads. -/
def stretch (matcher : Matcher Unit) : Matcher Stretch :=
  fun place => (matcher place).map fun reading => (⟨place, reading.2⟩, reading.2)

/-! ### Characters and words -/

/-- One character of a class. -/
def one (accept : Char → Bool) : Matcher Unit
  | ⟨_, []⟩ => []
  | ⟨behind, c :: ahead⟩ => if accept c then [((), ⟨c :: behind, ahead⟩)] else []

theorem mem_one {accept : Char → Bool} {place later : Place} :
    ((), later) ∈ one accept place ↔
      ∃ c ahead, place.ahead = c :: ahead ∧ accept c = true ∧
        later = ⟨c :: place.behind, ahead⟩ := by
  obtain ⟨behind, ahead⟩ := place
  cases ahead with
  | nil => simp [one]
  | cons c rest =>
      by_cases accepted : accept c
      · simp only [one, accepted, if_true, List.mem_singleton, Prod.mk.injEq, true_and]
        constructor
        · rintro rfl
          exact ⟨c, rest, rfl, accepted, rfl⟩
        · rintro ⟨d, ahead, same, _, rfl⟩
          obtain ⟨rfl, rfl⟩ := List.cons.inj same
          rfl
      · simp [one, accepted]

/-- This character. -/
def char (c : Char) : Matcher Unit :=
  one fun d => d == c

/-- These characters, in order. -/
def word : Text → Matcher Unit
  | [] => pure ()
  | c :: rest => do
      char c
      word rest

/-- The first of these words that can be read is preferred. -/
def anyOf : List Text → Matcher Unit
  | [] => fun _ => []
  | first :: rest => orElse (word first) (anyOf rest)

/-! ### Runs -/

/-- The places along a run, nearest first, beginning with the place itself. -/
def along (accept : Char → Bool) : Text → Text → List Place
  | behind, [] => [⟨behind, []⟩]
  | behind, c :: ahead =>
      ⟨behind, c :: ahead⟩ :: if accept c then along accept (c :: behind) ahead else []

/-- The place behind the longest run. -/
def past (accept : Char → Bool) : Text → Text → Place
  | behind, [] => ⟨behind, []⟩
  | behind, c :: ahead =>
      if accept c then past accept (c :: behind) ahead else ⟨behind, c :: ahead⟩

/-- The longest run, which may be empty. -/
def run (accept : Char → Bool) : Matcher Unit :=
  fun place => [((), past accept place.behind place.ahead)]

/-- The longest run, of at least one character. -/
def run1 (accept : Char → Bool) : Matcher Unit := do
  one accept
  run accept

/-- Every run, the shortest first. -/
def lazyRuns (accept : Char → Bool) : Matcher Unit :=
  fun place => (along accept place.behind place.ahead).map fun later => ((), later)

/-- Every run, the longest first. -/
def runs (accept : Char → Bool) : Matcher Unit :=
  fun place => (along accept place.behind place.ahead).reverse.map fun later => ((), later)

/-- Every run of at least one character, the longest first. -/
def runs1 (accept : Char → Bool) : Matcher Unit := do
  one accept
  runs accept

/-! ### Repetition -/

/-- At most `limit` readings in turn, as many as can be had first. -/
def upTo (matcher : Matcher Unit) : Nat → Matcher Unit
  | 0 => pure ()
  | limit + 1 => orElse (do matcher; upTo matcher limit) (pure ())

/-- Any number of readings in turn, as many as can be had first.  Each reading
is to take a character at least, so there are no more than the characters
ahead. -/
def many (matcher : Matcher Unit) : Matcher Unit :=
  fun place => upTo matcher place.ahead.length place

end Matcher
end Testwright
