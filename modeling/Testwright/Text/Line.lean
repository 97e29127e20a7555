import Testwright.Text.Basic

namespace Testwright

/-!
Lines and line breaks.

A text is cut behind each line feed.  A line keeps its ending, so that the
lines of a text put together again are the text, byte for byte
(`Line.texts_ofText`); a last line without a line feed has the empty ending.
A carriage return is part of the ending only directly before a line feed.
-/

structure Line where
  content : Text
  ending : Text

namespace Line

open Character (isBlank)

/-- The line as it stands in its text. -/
def text (line : Line) : Text :=
  line.content ++ line.ending

/-- A blank line holds blanks at most. -/
def isBlankLine (line : Line) : Bool :=
  Text.allBlank line.content

/-- The lines of a text, in order. -/
def ofText : Text → List Line
  | [] => []
  | '\n' :: t => ⟨[], ['\n']⟩ :: ofText t
  | '\r' :: '\n' :: t => ⟨[], ['\r', '\n']⟩ :: ofText t
  | c :: t =>
      match ofText t with
      | [] => [⟨[c], []⟩]
      | line :: lines => ⟨c :: line.content, line.ending⟩ :: lines

/-- The text that a list of lines makes up. -/
def texts (lines : List Line) : Text :=
  lines.flatMap text

/-- Cutting a text into lines loses nothing. -/
theorem texts_ofText (t : Text) : texts (ofText t) = t := by
  fun_induction ofText t with
  | case1 => rfl
  | case2 t ih => simpa [texts, text] using ih
  | case3 t ih => simpa [texts, text] using ih
  | case4 c t _ _ empty ih =>
      have : t = [] := by simpa [empty, texts] using ih.symm
      simp [texts, text, this]
  | case5 c t _ _ line lines found ih =>
      rw [found] at ih
      simpa [texts, text] using ih

end Line

namespace Text

/-- The line separator that a text uses, or `fallback` if it has none.  One
carriage return before a line feed decides for the pair. -/
def lineSeparator (t fallback : Text) : Text :=
  if contains t ['\r', '\n'] then
    ['\r', '\n']
  else if t.any (· == '\n') then
    ['\n']
  else
    fallback

/-- Every line break becomes one line feed. -/
def unifyLineBreaks : Text → Text
  | [] => []
  | '\r' :: '\n' :: t => '\n' :: unifyLineBreaks t
  | '\r' :: t => '\n' :: unifyLineBreaks t
  | c :: t => c :: unifyLineBreaks t

end Text
end Testwright
