import Testwright.Proofs.Text.Trimming
import Testwright.Testing.Render
import Testwright.Text.Line

namespace Testwright

/-!
# Texts and their lines

A text is cut behind each line feed, so the lines of two texts in a row are the lines
of the one and then those of the other, if the first one ends a line
(`Line.ofText_append`).  A text that was put together from lines without line breaks
gives these lines back (`Line.ofText_joinLines`), and tells what ends them
(`Text.lineSeparator_joinLines`).
-/

namespace Text

/-- No character that breaks lines. -/
abbrev Unbroken (t : Text) : Prop :=
  ∀ c ∈ t, c ≠ '\n' ∧ c ≠ '\r'

theorem Unbroken.append {s t : Text} (first : Unbroken s) (second : Unbroken t) :
    Unbroken (s ++ t) :=
  List.forall_mem_append.mpr ⟨first, second⟩

theorem getLast?_append_separator {separator : Text}
    (isBreak : separator = ['\n'] ∨ separator = ['\r', '\n']) (t : Text) :
    (t ++ separator).getLast? = some '\n' := by
  rcases isBreak with rfl | rfl
  · simp
  · rw [List.getLast?_append]
    rfl

/-- The text is empty or ends with a line feed. -/
def EndsLine (t : Text) : Prop :=
  t = [] ∨ t.getLast? = some '\n'

theorem endsLine_nil : EndsLine [] :=
  Or.inl rfl

theorem EndsLine.append {s t : Text} (first : EndsLine s) (second : EndsLine t) :
    EndsLine (s ++ t) := by
  rcases second with rfl | last
  · simpa using first
  · exact .inr (by simp [List.getLast?_append, last])

theorem EndsLine.of_cons {c : Char} {t : Text} (h : EndsLine (c :: t)) : EndsLine t := by
  rcases h with empty | last
  · simp at empty
  · cases t with
    | nil => exact endsLine_nil
    | cons d t => exact .inr (by simpa using last)

theorem EndsLine.of_append {s t : Text} (h : EndsLine (s ++ t)) : EndsLine t := by
  induction s with
  | nil => exact h
  | cons c s ih => exact ih h.of_cons

/-- In front of a text that ends a line, anything may stand. -/
theorem EndsLine.append_left {t : Text} (h : EndsLine t) (nonempty : t ≠ []) (s : Text) :
    EndsLine (s ++ t) :=
  .inr (by simp [List.getLast?_append, h.resolve_left nonempty])

/-! ## Texts within a line -/

section Infix

variable {part : Text} (nonempty : part ≠ [])
include nonempty

/-- What stands in a text stands on one side of a character that it lacks. -/
theorem infix_side {c : Char} (absent : c ∉ part) {a b : Text} (inside : part <:+: a ++ c :: b) :
    part <:+: a ∨ part <:+: b := by
  rcases inside with ⟨x, y, same⟩
  rcases exists_side absent nonempty ((List.append_assoc x part y).symm.trans same) with
    ⟨v, rfl, -⟩ | ⟨v, -, rfl⟩
  · exact .inl ⟨x, v, List.append_assoc x part v⟩
  · exact .inr ⟨v, y, List.append_assoc v part y⟩

variable (unbroken : Unbroken part)
include unbroken

/-- What stands in no part of a text stands nowhere in it, if the first part ends a
line. -/
theorem not_infix_append {s t : Text} (ends : EndsLine s) (first : ¬ part <:+: s)
    (second : ¬ part <:+: t) :
    ¬ part <:+: s ++ t := by
  rcases ends with rfl | last
  · exact second
  · rcases List.eq_nil_or_concat s with rfl | ⟨s, c, rfl⟩
    · exact second
    · obtain rfl : c = '\n' := by simpa using last
      rw [List.concat_eq_append] at first
      rw [List.concat_eq_append, List.append_assoc]
      intro inside
      rcases infix_side nonempty (fun member => (unbroken _ member).1 rfl) inside with here | there
      · exact first (here.trans (List.infix_append [] s ['\n']))
      · exact second there

/-- A text without line breaks that stands in no line stands nowhere. -/
theorem not_infix_joinLines {separator : Text}
    (isBreak : separator = ['\n'] ∨ separator = ['\r', '\n']) {lines : List Text}
    (each : ∀ line ∈ lines, ¬ part <:+: line) :
    ¬ part <:+: TestPlan.joinLines separator lines := by
  have noFeed : '\n' ∉ part := fun member => (unbroken _ member).1 rfl
  have noReturn : '\r' ∉ part := fun member => (unbroken _ member).2 rfl
  have none : ¬ part <:+: [] := fun inside => nonempty (List.infix_nil.mp inside)
  induction lines with
  | nil => exact none
  | cons line lines ih =>
      have rest := ih fun other member => each other (List.mem_cons_of_mem line member)
      refine not_infix_append nonempty unbroken (.inr ?_) (fun inside => ?_) rest
      · rcases isBreak with rfl | rfl <;> simp
      · rcases isBreak with rfl | rfl
        · exact (infix_side nonempty noFeed inside).elim (each line List.mem_cons_self) none
        · exact (infix_side nonempty noReturn inside).elim
            (each line List.mem_cons_self) fun feed =>
            (infix_side nonempty noFeed (a := []) feed).elim none none

/-- Behind lines in which it does not stand, a text is found where it begins. -/
theorem cutBefore?_of_endsLine {upper : Text} (ends : EndsLine upper) (absent : ¬ part <:+: upper)
    (t : Text) :
    cutBefore? part (upper ++ (part ++ t)) = some (upper, part ++ t) := by
  refine cutBefore?_append nonempty fun x y cut some begins => ?_
  have last : y.getLast? = Option.some '\n' := (EndsLine.of_append (cut ▸ ends)).resolve_left some
  rcases List.eq_nil_or_concat y |>.resolve_left some with ⟨front, c, rfl⟩
  obtain rfl : c = '\n' := by simpa using last
  rcases begins with ⟨rest, same⟩
  rw [List.concat_eq_append, List.append_assoc] at same
  rcases exists_behind (fun member => (unbroken _ member).1 rfl) same with ⟨v, rfl, -⟩
  exact absent ⟨x, v ++ ['\n'], by rw [cut]; simp⟩

end Infix

end Text

namespace Line

open TestPlan (joinLines)
open Text (EndsLine Unbroken)

@[simp] theorem texts_cons (line : Line) (lines : List Line) :
    texts (line :: lines) = line.text ++ texts lines :=
  List.flatMap_cons

@[simp] theorem texts_append (lines lines' : List Line) :
    texts (lines ++ lines') = texts lines ++ texts lines' :=
  List.flatMap_append

/-- A character that ends no line joins the line behind it. -/
theorem ofText_cons {c : Char} {t : Text} (noFeed : c ≠ '\n')
    (noReturn : c = '\r' → t.head? ≠ some '\n') :
    ofText (c :: t) = match ofText t with
      | [] => [⟨[c], []⟩]
      | line :: lines => ⟨c :: line.content, line.ending⟩ :: lines := by
  exact ofText.eq_4 c t noFeed fun rest same begins => noReturn same (by rw [begins]; rfl)

/-- The lines of a text that begins with a whole line. -/
theorem ofText_line {content ending : Text} (unbroken : Unbroken content)
    (isBreak : ending = ['\n'] ∨ ending = ['\r', '\n']) (t : Text) :
    ofText (content ++ (ending ++ t)) = ⟨content, ending⟩ :: ofText t := by
  induction content with
  | nil => rcases isBreak with rfl | rfl <;> simp [ofText]
  | cons c content ih =>
      obtain ⟨noFeed, noReturn⟩ := unbroken c List.mem_cons_self
      rw [List.cons_append, ofText_cons noFeed fun same => absurd same noReturn,
        ih fun d member => unbroken d (List.mem_cons_of_mem c member)]

/-- The lines of two texts in a row, the first one of whole lines. -/
theorem ofText_append {a : Text} (ends : EndsLine a) (b : Text) :
    ofText (a ++ b) = ofText a ++ ofText b := by
  fun_induction ofText a with
  | case1 => rfl
  | case2 t ih => simp [ofText, ih ends.of_cons]
  | case3 t ih => simp [ofText, ih ends.of_cons.of_cons]
  | case4 c t noFeed noReturn empty ih =>
      have none : t = [] := by
        have whole := texts_ofText t
        rw [empty] at whole
        exact whole.symm
      rw [none] at ends
      rcases ends with impossible | last
      · simp at impossible
      · exact absurd (by simpa using last) noFeed
  | case5 c t noFeed noReturn line lines found ih =>
      have shown : t ≠ [] := by
        rintro rfl
        simp [ofText] at found
      have head : (t ++ b).head? = t.head? := by
        cases t with
        | nil => exact absurd rfl shown
        | cons d t => rfl
      have noPair : c = '\r' → (t ++ b).head? ≠ some '\n' := by
        intro isReturn feed
        rw [head] at feed
        obtain ⟨rest, rfl⟩ : ∃ rest, t = '\n' :: rest := by
          cases t with
          | nil => simp at feed
          | cons d rest => exact ⟨rest, by simpa using feed⟩
        exact noReturn rest isReturn rfl
      rw [List.cons_append, ofText_cons noFeed noPair, ih ends.of_cons, found]
      rfl

/-- A line of a text goes up to its first line feed. -/
theorem isCut_of_mem_ofText (t : Text) : ∀ line ∈ ofText t, '\n' ∉ line.content ∧
    (line.ending = [] ∨ line.ending = ['\n'] ∨ line.ending = ['\r', '\n']) := by
  fun_induction ofText t with
  | case1 => simp
  | case2 t ih => exact List.forall_mem_cons.mpr ⟨⟨by simp, by simp⟩, ih⟩
  | case3 t ih => exact List.forall_mem_cons.mpr ⟨⟨by simp, by simp⟩, ih⟩
  | case4 c t noFeed _ _ _ =>
      exact List.forall_mem_singleton.mpr ⟨by simpa using Ne.symm noFeed, by simp⟩
  | case5 c t noFeed _ line lines found ih =>
      rw [found] at ih
      rcases List.forall_mem_cons.mp ih with ⟨here, others⟩
      refine List.forall_mem_cons.mpr ⟨⟨?_, here.2⟩, others⟩
      simpa [Ne.symm noFeed] using here.1

theorem blank_ending_of_mem_ofText {t : Text} {line : Line} (member : line ∈ ofText t) :
    Text.Blank line.ending := by
  rcases (isCut_of_mem_ofText t line member).2 with ending | ending | ending <;>
    rw [ending] <;> decide

/-- Lines without line breaks are read back from the text they make up. -/
theorem ofText_joinLines {separator : Text}
    (isBreak : separator = ['\n'] ∨ separator = ['\r', '\n']) {lines : List Text}
    (unbroken : ∀ line ∈ lines, Unbroken line) :
    ofText (joinLines separator lines) = lines.map fun line => ⟨line, separator⟩ := by
  induction lines with
  | nil => rfl
  | cons line lines ih =>
      have whole : joinLines separator (line :: lines) =
          line ++ (separator ++ joinLines separator lines) := by
        simp [joinLines]
      rw [whole, ofText_line (unbroken line List.mem_cons_self) isBreak,
        ih fun other member => unbroken other (List.mem_cons_of_mem line member), List.map_cons]

/-- Lines that end alike are put together with their separator. -/
theorem texts_map (lines : List Text) (separator : Text) :
    texts (lines.map fun line => ⟨line, separator⟩) = joinLines separator lines := by
  simp only [texts, text, joinLines, List.flatMap_map]

end Line

namespace Text

open TestPlan (joinLines)

theorem contains_iff {t part : Text} : contains t part = true ↔ part <:+: t := by
  induction t with
  | nil => cases part <;> simp [contains, cutBefore?]
  | cons c t ih =>
      simp only [contains, cutBefore?, List.infix_cons_iff] at ih ⊢
      by_cases here : part.isPrefixOf (c :: t)
      · simp [here, List.isPrefixOf_iff_prefix.mp here]
      · have none : ¬ part <+: c :: t :=
          fun isPrefix => here (List.isPrefixOf_iff_prefix.mpr isPrefix)
        simp [here, none, ih]

section Joined

variable {separator : Text} (isBreak : separator = ['\n'] ∨ separator = ['\r', '\n'])
  {lines : List Text} (unbroken : ∀ line ∈ lines, Unbroken line)
include isBreak

theorem endsLine_joinLines : EndsLine (joinLines separator lines) := by
  induction lines with
  | nil => exact endsLine_nil
  | cons line lines ih =>
      have ends : EndsLine (line ++ separator) := .inr (by rcases isBreak with rfl | rfl <;> simp)
      exact ends.append ih

include unbroken

omit isBreak in
theorem mem_joinLines {c : Char} (member : c ∈ joinLines separator lines) :
    c ∈ separator ∨ c ≠ '\r' ∧ c ≠ '\n' := by
  obtain ⟨line, inLines, inLine⟩ := List.mem_flatMap.mp member
  rcases List.mem_append.mp inLine with inLine | ending
  · exact .inr ⟨(unbroken line inLines c inLine).2, (unbroken line inLines c inLine).1⟩
  · exact .inl ending

/-- What ends the lines of a text is told from it. -/
theorem lineSeparator_joinLines (nonempty : lines ≠ []) (fallback : Text) :
    lineSeparator (joinLines separator lines) fallback = separator := by
  obtain ⟨line, rest, rfl⟩ := List.exists_cons_of_ne_nil nonempty
  have whole : joinLines separator (line :: rest) =
      line ++ (separator ++ joinLines separator rest) := by
    simp [joinLines]
  rcases isBreak with rfl | rfl
  · have noPair : contains (joinLines ['\n'] (line :: rest)) ['\r', '\n'] = false := by
      refine Bool.eq_false_iff.mpr fun pair => ?_
      have member : '\r' ∈ joinLines ['\n'] (line :: rest) :=
        (contains_iff.mp pair).subset (by simp)
      rcases mem_joinLines unbroken member with ending | other
      · simp at ending
      · exact other.1 rfl
    have feed : (joinLines ['\n'] (line :: rest)).any (· == '\n') = true :=
      List.any_eq_true.mpr ⟨'\n', by simp [whole], by simp⟩
    simp [lineSeparator, noPair, feed]
  · have pair : contains (joinLines ['\r', '\n'] (line :: rest)) ['\r', '\n'] = true :=
      contains_iff.mpr ⟨line, joinLines ['\r', '\n'] rest, by simp [whole]⟩
    simp [lineSeparator, pair]

end Joined

end Text
end Testwright
