import Testwright.Proofs.Convention.LineReading
import Testwright.Proofs.Text.Lines

namespace Testwright
namespace Convention

/-!
# Rewriting line by line

Between the conventions a source is rewritten line by line, and the only thing that
one line leaves to the next is a flag: whether a mark reaches it (`marksBehind`), or
whether a mark waits for its method (`waitsBehind`).  So the rewriting of lines in a
row is the rewriting of the first ones and then, with the flag they leave, of the
others (`markLines_append`, `unmarkLines_append`), and a line that is neither marked
nor a declaration of a void method stays as it is (`markLine_of_plain`,
`unmarkLine_of_plain`).
-/

open Matcher (markedLine voidLine)

/-- The line is neither marked nor the declaration of a void method. -/
structure IsPlain (line : Line) : Prop where
  unmarked : markedLine.read? line.content = none
  undeclared : voidLine.read? line.content = none

theorem not_reads_of_read? {line : Line} (unmarked : markedLine.read? line.content = none) :
    markedLine.reads line.content = false := by
  rw [Matcher.reads, unmarked]
  rfl

/-! ## Marks put in -/

/-- Whether a mark reaches the line behind some lines, where the flag says whether one
reaches the first of them. -/
def marksBehind : Bool → List Line → Bool
  | marked, [] => marked
  | marked, line :: lines =>
      marksBehind (markedLine.reads line.content || (marked && carriesMark line.content)) lines

/-- What becomes of a line of a legacy source. -/
def markLine (legacyPrefix separator : Text) (marked : Bool) (line : Line) : Text :=
  if markedLine.reads line.content then line.text
  else (unprefixed? legacyPrefix separator marked line).getD line.text

section Mark

variable (legacyPrefix separator : Text) (marked : Bool)

theorem markLines_cons (line : Line) (lines : List Line) :
    markLines legacyPrefix separator marked (line :: lines) =
      markLine legacyPrefix separator marked line ++
        markLines legacyPrefix separator (marksBehind marked [line]) lines := by
  by_cases reads : markedLine.reads line.content <;> simp [markLines, markLine, marksBehind, reads]

theorem markLines_append (lines lines' : List Line) :
    markLines legacyPrefix separator marked (lines ++ lines') =
      markLines legacyPrefix separator marked lines ++
        markLines legacyPrefix separator (marksBehind marked lines) lines' := by
  induction lines generalizing marked with
  | nil => rfl
  | cons line lines ih =>
      rw [List.cons_append, markLines_cons, markLines_cons, ih, List.append_assoc]
      rfl

variable {legacyPrefix separator marked}

/-- Without a mark among them and one that reaches them, no mark reaches beyond some
lines. -/
theorem marksBehind_eq_false {lines : List Line}
    (unmarked : ∀ line ∈ lines, markedLine.read? line.content = none) :
    marksBehind false lines = false := by
  induction lines with
  | nil => rfl
  | cons line lines ih =>
      have others := ih fun other member => unmarked other (List.mem_cons_of_mem line member)
      simpa [marksBehind, not_reads_of_read? (unmarked line List.mem_cons_self)] using others

theorem markLine_of_plain {line : Line} (plain : IsPlain line) :
    markLine legacyPrefix separator marked line = line.text := by
  simp [markLine, not_reads_of_read? plain.unmarked, unprefixed?, plain.undeclared]

theorem markLines_of_plain {lines : List Line} (plain : ∀ line ∈ lines, IsPlain line) :
    markLines legacyPrefix separator marked lines = Line.texts lines := by
  induction lines generalizing marked with
  | nil => rfl
  | cons line lines ih =>
      rw [markLines_cons, markLine_of_plain (plain line List.mem_cons_self),
        ih fun other member => plain other (List.mem_cons_of_mem line member)]
      rfl

/-- The declaration of a method of a prefixed name loses the prefix, and a mark is put
in front unless one reaches it. -/
theorem markLine_of_declared {content ending bare : Text} {declared : VoidLine}
    (unmarked : markedLine.read? content = none) (read : voidLine.read? content = some declared)
    (prefixed : declared.name = legacyPrefix ++ bare) (nonempty : bare ≠ []) :
    markLine legacyPrefix separator marked ⟨content, ending⟩ =
      (if marked then [] else declared.indent ++ "@Test".toList ++ separator) ++
        ({ declared with name := bare }.text ++ ending) := by
  have dropped : Text.dropStart? legacyPrefix declared.name = some bare :=
    Text.dropStart?_eq_some_iff.mpr prefixed
  have none : markedLine.reads content = false := by rw [Matcher.reads, unmarked]; rfl
  simp [markLine, none, unprefixed?, read, dropped, nonempty, VoidLine.text]

/-- The declaration of any other method stays as it is. -/
theorem markLine_of_other {content ending : Text} {declared : VoidLine}
    (read : voidLine.read? content = some declared)
    (other : ∀ bare, declared.name = legacyPrefix ++ bare → bare = []) :
    markLine legacyPrefix separator marked ⟨content, ending⟩ = content ++ ending := by
  have unchanged : unprefixed? legacyPrefix separator marked ⟨content, ending⟩ = none := by
    cases dropped : Text.dropStart? legacyPrefix declared.name with
    | none => simp [unprefixed?, read, dropped]
    | some bare =>
        simp [unprefixed?, read, dropped, other bare (Text.dropStart?_eq_some_iff.mp dropped)]
  simp [markLine, unchanged, Line.text]

end Mark

/-! ## Marks taken out -/

/-- Whether a mark waits behind some lines, where the flag says whether one waits in
front of them. -/
def waitsBehind : Bool → List Line → Bool
  | waiting, [] => waiting
  | waiting, line :: lines =>
      let waits := match markedLine.read? line.content with
        | some marked => Text.allBlank marked.rest ||
            (voidLine.read? (marked.indent ++ marked.rest)).isNone
        | none => waiting && (voidLine.read? line.content).isNone
      waitsBehind waits lines

/-- What becomes of a line of a modern source. -/
def unmarkLine (legacyPrefix : Text) (waiting : Bool) (line : Line) : Text :=
  match markedLine.read? line.content with
  | some marked =>
      if Text.allBlank marked.rest then []
      else match voidLine.read? (marked.indent ++ marked.rest) with
        | some declared => prefixedLine legacyPrefix declared ++ line.ending
        | none => marked.indent ++ marked.rest ++ line.ending
  | none =>
      if waiting then match voidLine.read? line.content with
        | some declared => prefixedLine legacyPrefix declared ++ line.ending
        | none => line.text
      else line.text

section Unmark

variable (legacyPrefix : Text) (waiting : Bool)

theorem unmarkLines_cons (line : Line) (lines : List Line) :
    unmarkLines legacyPrefix waiting (line :: lines) =
      unmarkLine legacyPrefix waiting line ++ unmarkLines legacyPrefix
        (waitsBehind waiting [line]) lines := by
  cases read : markedLine.read? line.content with
  | none =>
      cases waiting with
      | false => simp [unmarkLines, unmarkLine, waitsBehind, read]
      | true => cases declared : voidLine.read? line.content <;>
          simp [unmarkLines, unmarkLine, waitsBehind, read, declared]
  | some marked =>
      by_cases blank : Text.allBlank marked.rest
      · simp [unmarkLines, unmarkLine, waitsBehind, read, blank]
      · cases declared : voidLine.read? (marked.indent ++ marked.rest) <;>
          simp [unmarkLines, unmarkLine, waitsBehind, read, blank, declared]

theorem unmarkLines_append (lines lines' : List Line) :
    unmarkLines legacyPrefix waiting (lines ++ lines') =
      unmarkLines legacyPrefix waiting lines ++ unmarkLines legacyPrefix
        (waitsBehind waiting lines) lines' := by
  induction lines generalizing waiting with
  | nil => rfl
  | cons line lines ih =>
      rw [List.cons_append, unmarkLines_cons, unmarkLines_cons, ih, List.append_assoc]
      rfl

variable {legacyPrefix waiting}

/-- Where no mark waits, lines without marks stay as they are, and none waits behind
them. -/
theorem unmarkLines_of_unmarked {lines : List Line}
    (unmarked : ∀ line ∈ lines, markedLine.read? line.content = none) :
    unmarkLines legacyPrefix false lines = Line.texts lines ∧ waitsBehind false lines = false := by
  induction lines with
  | nil => exact ⟨rfl, rfl⟩
  | cons line lines ih =>
      have here := unmarked line List.mem_cons_self
      have others := ih fun other member => unmarked other (List.mem_cons_of_mem line member)
      have behind : waitsBehind false [line] = false := by simp [waitsBehind, here]
      refine ⟨?_, ?_⟩
      · rw [unmarkLines_cons, behind, others.1]
        simp [unmarkLine, here, Line.texts]
      · change waitsBehind (waitsBehind false [line]) lines = false
        rw [behind, others.2]

/-- Behind a mark that waits, a declared method gets the prefix. -/
theorem unmarkLine_of_declared {content ending : Text} {declared : VoidLine}
    (unmarked : markedLine.read? content = none) (read : voidLine.read? content = some declared) :
    unmarkLine legacyPrefix true ⟨content, ending⟩ =
      prefixedLine legacyPrefix declared ++ ending := by
  simp [unmarkLine, unmarked, read]

/-- The prefix is put in front of a name that does not begin with it. -/
theorem prefixedLine_of_not_prefix {declared : VoidLine}
    (other : ¬ legacyPrefix <+: declared.name) :
    prefixedLine legacyPrefix declared =
      { declared with name := legacyPrefix ++ declared.name }.text := by
  have absent : (Text.dropStart? legacyPrefix declared.name).isSome = false := by
    rw [Option.isSome_eq_false_iff, Option.isNone_iff_eq_none, Option.eq_none_iff_forall_not_mem]
    intro rest found
    exact other ⟨rest, (Text.dropStart?_eq_some_iff.mp found).symm⟩
  simp [prefixedLine, absent, VoidLine.text]

theorem unmarkLine_of_plain {line : Line} (plain : IsPlain line) :
    unmarkLine legacyPrefix waiting line = line.text := by
  cases waiting <;> simp [unmarkLine, plain.unmarked, plain.undeclared]

theorem unmarkLines_of_plain {lines : List Line} (plain : ∀ line ∈ lines, IsPlain line) :
    unmarkLines legacyPrefix waiting lines = Line.texts lines := by
  induction lines generalizing waiting with
  | nil => rfl
  | cons line lines ih =>
      rw [unmarkLines_cons, unmarkLine_of_plain (plain line List.mem_cons_self),
        ih fun other member => plain other (List.mem_cons_of_mem line member)]
      rfl

end Unmark

end Convention
end Testwright
