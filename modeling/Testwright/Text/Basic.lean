import Testwright.Character.Blank

namespace Testwright

/-!
Texts and the plain operations on them.

A text is the list of its characters, so every reader of a text is a recursion
on it and every law about one is an induction.  Sizes are sizes of the UTF-8
form; nothing else here depends on an encoding.
-/

/-- A text is its characters in order. -/
abbrev Text := List Char

namespace Text

open Character (isBlank)

/-- The number of bytes of the UTF-8 form. -/
def utf8Size (t : Text) : Nat :=
  t.foldr (fun c size => c.utf8Size + size) 0

/-! ### Trimming -/

def trimStart (t : Text) : Text :=
  t.dropWhile isBlank

def trimEnd (t : Text) : Text :=
  (t.reverse.dropWhile isBlank).reverse

/-- The text without the blanks at its two ends. -/
def trim (t : Text) : Text :=
  trimEnd (trimStart t)

/-- Whether the text has no character besides blanks. -/
def allBlank (t : Text) : Bool :=
  t.all isBlank

/-! ### Beginnings and ends -/

/-- What follows `start` in `t`, if `t` begins with it. -/
def dropStart? : Text → Text → Option Text
  | [], t => some t
  | _ :: _, [] => none
  | s :: start, c :: t => if s = c then dropStart? start t else none

/-- What precedes `final` in `t`, if `t` ends with it. -/
def dropFinal? (final t : Text) : Option Text :=
  (dropStart? final.reverse t.reverse).map List.reverse

theorem dropStart?_eq_some_iff {start t rest : Text} :
    dropStart? start t = some rest ↔ t = start ++ rest := by
  induction start generalizing t with
  | nil => simp [dropStart?, eq_comm]
  | cons s start ih =>
      cases t with
      | nil => simp [dropStart?]
      | cons c t =>
          by_cases same : s = c
          · simp [dropStart?, same, ih]
          · simp [dropStart?, same, Ne.symm same]

theorem dropFinal?_eq_some_iff {final t rest : Text} :
    dropFinal? final t = some rest ↔ t = rest ++ final := by
  simp only [dropFinal?, Option.map_eq_some_iff, dropStart?_eq_some_iff]
  constructor
  · rintro ⟨back, reversed, rfl⟩
    simpa using congrArg List.reverse reversed
  · rintro rfl
    exact ⟨rest.reverse, by simp⟩

/-! ### Cutting -/

/-- The pieces between the characters that satisfy `cut`; one more than there
are such characters. -/
def splitOn (cut : Char → Bool) : Text → List Text
  | [] => [[]]
  | c :: t =>
      if cut c then
        [] :: splitOn cut t
      else
        match splitOn cut t with
        | [] => [[c]]
        | piece :: pieces => (c :: piece) :: pieces

/-- A character at which a text is cut parts the pieces on its two sides. -/
theorem splitOn_append_cons {cut : Char → Bool} {c : Char} (h : cut c = true) (left right : Text) :
    splitOn cut (left ++ c :: right) = splitOn cut left ++ splitOn cut right := by
  induction left with
  | nil => simp [splitOn, h]
  | cons d left ih =>
      by_cases cuts : cut d
      · simp [splitOn, cuts, ih]
      · simp only [List.cons_append, splitOn, cuts, ih, Bool.false_eq_true, if_false]
        cases pieces : splitOn cut left with
        | nil =>
            have : splitOn cut left ≠ [] := by
              cases left with
              | nil => simp [splitOn]
              | cons e left =>
                  simp only [splitOn]
                  split
                  · simp
                  · split <;> simp
            exact absurd pieces this
        | cons piece pieces => rfl

/-- The words of a text are its longest runs without a blank. -/
def words (t : Text) : List Text :=
  (splitOn isBlank t).filter fun word => !word.isEmpty

/-- A blank parts the words on its two sides. -/
theorem words_append_blank {c : Char} (h : isBlank c = true) (left right : Text) :
    words (left ++ c :: right) = words left ++ words right := by
  simp [words, splitOn_append_cons h]

/-- The words of a text with one space between each two. -/
def singleSpaced (t : Text) : Text :=
  [' '].intercalate (words t)

/-- The first place where `part` stands in `t`, as what precedes it and what
begins with it. -/
def cutBefore? (part : Text) : Text → Option (Text × Text)
  | [] => if part.isEmpty then some ([], []) else none
  | c :: t =>
      if part.isPrefixOf (c :: t) then
        some ([], c :: t)
      else
        (cutBefore? part t).map fun cut => (c :: cut.1, cut.2)

/-- Whether `part` stands somewhere in `t`. -/
def contains (t part : Text) : Bool :=
  (cutBefore? part t).isSome

/-- The first place where the character `c` stands in `t`, as what precedes it
and what follows it. -/
def cutAt? (c : Char) : Text → Option (Text × Text)
  | [] => none
  | d :: t =>
      if d = c then some ([], t) else (cutAt? c t).map fun cut => (d :: cut.1, cut.2)

/-- The last place where the character `c` stands in `t`, as what precedes it
and what follows it. -/
def cutAtLast? (c : Char) : Text → Option (Text × Text)
  | [] => none
  | d :: t =>
      match cutAtLast? c t with
      | some cut => some (d :: cut.1, cut.2)
      | none => if d = c then some ([], t) else none

/-- What stands before the first `c`, or the whole text. -/
def before (c : Char) (t : Text) : Text :=
  t.takeWhile fun d => !(d == c)

/-- What stands after the last `c`, or the whole text. -/
def afterLast (c : Char) (t : Text) : Text :=
  match cutAtLast? c t with
  | some cut => cut.2
  | none => t

theorem cutAt?_eq_some {c : Char} {t : Text} {cut : Text × Text} (h : cutAt? c t = some cut) :
    t = cut.1 ++ c :: cut.2 := by
  induction t generalizing cut with
  | nil => simp [cutAt?] at h
  | cons d t ih =>
      by_cases same : d = c
      · simp only [cutAt?, same, if_true, Option.some.injEq] at h
        simp [← h, same]
      · simp only [cutAt?, same, if_false, Option.map_eq_some_iff] at h
        obtain ⟨rest, found, rfl⟩ := h
        simp [ih found]

theorem cutAtLast?_eq_some {c : Char} {t : Text} {cut : Text × Text}
    (h : cutAtLast? c t = some cut) : t = cut.1 ++ c :: cut.2 := by
  induction t generalizing cut with
  | nil => simp [cutAtLast?] at h
  | cons d t ih =>
      simp only [cutAtLast?] at h
      split at h
      · rename_i rest found
        simp only [Option.some.injEq] at h
        simp [← h, ih found]
      · split at h
        · rename_i same
          simp only [Option.some.injEq] at h
          simp [← h, same]
        · simp at h

/-! ### Replacing -/

/-- The worker of `replaceAll`; the number counts the characters of an
occurrence that are still to be passed over. -/
def replaceFrom (old new : Text) : Nat → Text → Text
  | _, [] => []
  | pending + 1, _ :: t => replaceFrom old new pending t
  | 0, c :: t =>
      if old.isPrefixOf (c :: t) then
        new ++ replaceFrom old new (old.length - 1) t
      else
        c :: replaceFrom old new 0 t

/-- Every occurrence of the nonempty text `old`, read from the left and without
overlap, gives way to `new`. -/
def replaceAll (old new t : Text) : Text :=
  replaceFrom old new 0 t

/-! ### Peeling -/

/-- Takes layers off `t` for as long as `layer?` finds one and leaves a shorter
text, and counts them. -/
def peel (layer? : Text → Option Text) (t : Text) : Text × Nat :=
  match layer? t with
  | none => (t, 0)
  | some rest =>
      if rest.length < t.length then
        let peeled := peel layer? rest
        (peeled.1, peeled.2 + 1)
      else
        (t, 0)
termination_by t.length

/-- A text that begins with the keyword and at least one blank, without both. -/
def dropKeyword? (keyword t : Text) : Option Text :=
  match dropStart? keyword t with
  | some (c :: rest) => if isBlank c then some (trimStart rest) else none
  | _ => none

/-- The text without the keywords that lead it, each with its blanks. -/
def dropKeywords (keyword t : Text) : Text :=
  (peel (dropKeyword? keyword) t).1

end Text
end Testwright
