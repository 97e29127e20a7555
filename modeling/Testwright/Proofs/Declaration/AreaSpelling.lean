import Testwright.Proofs.Declaration.SignatureReading

namespace Testwright
namespace Lexeme

/-!
# Declarations as areas

The declaration of a method and that of a constructor are one shape: lexemes, a
parameter list in parentheses, a `throws` clause, and a last character.  Such a
declaration is an area, and its area is a spelling of the same lexemes.  Whether
the area shows a constructor of a class is decided by the word in front of the
parentheses alone.
-/

open Character (isBlank isDottedPart isNamePart)
open Declaration (isDottedName)
open Matcher (Reads Stops)
open Text (Blank Visible)

/-- The lexemes of a declaration with a parameter list. -/
def listedLexemes (heading parameters : List Lexeme) (thrown : List Text) (last : Char) :
    List Lexeme :=
  heading ++ (near ['('] :: (parameters ++ (near [')'] :: (throwsLexemes thrown ++ [near [last]]))))

section

variable {heading parameters : List Lexeme} {thrown : List Text} {c : Char}

/-- The parts of a spelling of a declaration. -/
theorem exists_listed {t : Text} (spelled : Spelled (listedLexemes heading parameters thrown c) t) :
    ∃ s gap inner tail, t = s ++ (gap ++ '(' :: (inner ++ ')' :: (tail ++ [c]))) ∧
      Spelled heading s ∧ Blank gap ∧ Spelled (parameters ++ [near [')']]) (inner ++ [')']) ∧
      Covers (throwsLexemes thrown) tail := by
  obtain ⟨s, _, rfl, inHeading, gap, _, rfl, blank, -, inList⟩ := spelled_append.mp spelled
  obtain ⟨inner, _, rfl, inParameters, gap', _, rfl, blank', -, inTail⟩ := spelled_append.mp inList
  obtain ⟨tail, _, rfl, inThrows, atEnd⟩ := spelled_append.mp inTail
  obtain ⟨gap'', rfl, blank'', -⟩ := spelled_singleton.mp atEnd
  refine ⟨s, gap, inner ++ gap', tail ++ gap'', by simp, inHeading, blank, ?_,
    ⟨tail, gap'', rfl, inThrows, blank''⟩⟩
  rw [List.append_assoc]
  exact spelled_append.mpr ⟨inner, _, rfl, inParameters, gap', [], by simp, blank', by simp, rfl⟩

theorem undivided_of_covers {lexemes : List Lexeme} (inner : ∀ l ∈ lexemes, IsInner l) {t : Text}
    (covers : Covers lexemes t) : Text.Undivided t := by
  obtain ⟨s, gap, rfl, spelled, blank⟩ := covers
  exact List.forall_mem_append.mpr ⟨undivided_of_spelled inner spelled,
    fun d member => not_divides (by decide) (blank d member)⟩

theorem undivided_of_spelled_closing {lexemes : List Lexeme} (inner : ∀ l ∈ lexemes, IsInner l)
    {t : Text} (spelled : Spelled (lexemes ++ [near [')']]) (t ++ [')'])) : Text.Undivided t := by
  obtain ⟨s, _, shape, inLexemes, atEnd⟩ := spelled_append.mp spelled
  obtain ⟨gap, rfl, blank, -⟩ := spelled_singleton.mp atEnd
  have same : t = s ++ gap := by
    rw [near_text, ← List.append_assoc] at shape
    exact List.append_cancel_right shape
  subst same
  exact undivided_of_covers inner ⟨s, gap, rfl, inLexemes, blank⟩

theorem not_mem_of_undivided {t : Text} (undivided : Text.Undivided t) : '(' ∉ t := fun member =>
  absurd (undivided '(' member) (by decide)

/-- A declaration has one opening parenthesis, and its heading stands in front of
that. -/
theorem exists_heading (inHeading : ∀ l ∈ heading, IsInner l) (inner : ∀ l ∈ parameters, IsInner l)
    (dotted : ∀ name ∈ thrown, isDottedName name = true) (last : c = '\x7b' ∨ c = ';') {t : Text}
    (spelled : Spelled (listedLexemes heading parameters thrown c) t) :
    ∃ s gap rest, t = s ++ (gap ++ '(' :: rest) ∧ Text.before '(' t = s ++ gap ∧
      Spelled heading s ∧ Blank gap ∧ '(' ∉ s ∧ '(' ∉ rest := by
  obtain ⟨s, gap, inside, tail, rfl, inS, blank, inInside, inTail⟩ := exists_listed spelled
  have notInS := not_mem_of_undivided (undivided_of_spelled inHeading inS)
  have notInGap : '(' ∉ gap := fun member => absurd (blank _ member) (by decide)
  refine ⟨s, gap, _, rfl, ?_, inS, blank, notInS, ?_⟩
  · have passed : ∀ d ∈ s ++ gap, (!(d == '(')) = true := by
      rintro d member
      have other : d ≠ '(' := by
        rintro rfl
        exact (List.mem_append.mp member).elim notInS notInGap
      simpa using other
    rw [Text.before, ← List.append_assoc, List.takeWhile_append_of_pos passed]
    simp
  · have notLast : c ≠ '(' := by
      rcases last with rfl | rfl
      · decide
      · decide
    simp only [List.mem_append, List.mem_cons, List.not_mem_nil, or_false, not_or]
    exact ⟨not_mem_of_undivided (undivided_of_spelled_closing inner inInside), by decide,
      not_mem_of_undivided (undivided_of_covers (isList_throwsLexemes dotted).inner inTail),
      notLast.symm⟩

theorem isVisible_listed (inHeading : ∀ l ∈ heading, IsInner l)
    (inner : ∀ l ∈ parameters, IsInner l) (dotted : ∀ name ∈ thrown, isDottedName name = true)
    (last : c = '\x7b' ∨ c = ';') :
    ∀ l ∈ listedLexemes heading parameters thrown c, l.IsVisible := by
  have kinds : ∀ l ∈ listedLexemes heading parameters thrown c, IsWord l ∨ IsMark l := by
    simp only [listedLexemes, List.forall_mem_append, List.forall_mem_cons]
    exact ⟨fun l member => (inHeading l member).kind, Or.inr isMark_parenthesis.1,
      fun l member => (inner l member).kind, Or.inr isMark_parenthesis.2,
      fun l member => ((isList_throwsLexemes dotted).inner l member).kind,
      Or.inr (isMark_last last), by simp⟩
  exact fun l member => isVisible_of_kind (kinds l member)

/-- The one area of a declaration, a spelling of the same lexemes that no blank
begins. -/
theorem exists_area {first : Lexeme} {more : List Lexeme} (shape : heading = first :: more)
    (free : first.apart = false) (inHeading : ∀ l ∈ heading, IsInner l)
    (inner : ∀ l ∈ parameters, IsInner l) (dotted : ∀ name ∈ thrown, isDottedName name = true)
    (last : c = '\x7b' ∨ c = ';') {t : Text}
    (spelled : Spelled (listedLexemes heading parameters thrown c) t) (noReturn : '\r' ∉ t) :
    ∃ area, Text.areas t = [area] ∧ Spelled (listedLexemes heading parameters thrown c) area ∧
      Stops isBlank area := by
  have spelled' : Spelled (first :: (more ++ (near ['('] :: (parameters ++ (near [')'] ::
      (throwsLexemes thrown ++ [near [c]])))))) t := by
    rw [← List.cons_append, ← shape]
    exact spelled
  obtain ⟨gap, r, rfl, blank, -, others⟩ := spelled'
  have visible : first.IsVisible := by
    have isInner := inHeading first (by rw [shape]; exact List.mem_cons_self)
    exact isVisible_of_kind isInner.kind
  have trimmed : Spelled (listedLexemes heading parameters thrown c) (first.text ++ r) := by
    rw [listedLexemes, shape]
    exact ⟨[], r, rfl, Text.blank_nil, by simp [free], others⟩
  obtain ⟨s, gap', inner', tail, parts, inS, blank', inInner, inTail⟩ := exists_listed trimmed
  have stops : Stops isBlank (first.text ++ r) := stops_of_visible visible r
  have whole : (s ++ gap') ++ '(' :: (inner' ++ ')' :: (tail ++ [c])) = first.text ++ r := by
    rw [parts, List.append_assoc]
  have front : ∀ d, ((s ++ gap') ++ ['(']).head? = some d → isBlank d = false := by
    intro d head
    have head' : (first.text ++ r).head? = some d := by
      rw [← whole, List.append_cons, List.head?_append, head]
      rfl
    cases text : first.text ++ r with
    | nil =>
        rw [text] at head'
        cases head'
    | cons e w =>
        rw [text] at head' stops
        rw [← Option.some.inj head']
        exact stops
  have area : Text.areas (gap ++ ((s ++ gap') ++ '(' :: (inner' ++ ')' :: (tail ++ [c])))) = _ :=
    Text.areas_declaration blank front (undivided_of_covers inHeading ⟨s, gap', rfl, inS, blank'⟩)
      (undivided_of_spelled_closing inner inInner)
      (undivided_of_covers (isList_throwsLexemes dotted).inner inTail) last
  rw [whole] at area
  refine ⟨_, area, trimmed.onOneLine (isVisible_listed inHeading inner dotted last) ?_, ?_⟩
  · exact fun member => noReturn (List.mem_append_right gap member)
  · rw [onOneLine_append, onOneLine_of_visible visible.2]
    exact stops_of_visible visible _

end

/-! ## The word in front of the parentheses -/

/-- A word between blanks at the end of a text is the only one. -/
theorem eq_of_last_name {x x' w w' gap gap' : Text} (before : BlankLast x) (before' : BlankLast x')
    (keyword : IsKeyword w) (keyword' : IsKeyword w') (blank : Blank gap) (blank' : Blank gap')
    (same : x ++ (w ++ gap) = x' ++ (w' ++ gap')) : w = w' := by
  have visible : ∀ {v : Text}, IsKeyword v → Visible v := fun h c member =>
    Character.not_isBlank_of_isNamePart (h.2 c member)
  have trimmed : ∀ {v : Text}, IsKeyword v → ∀ (y : Text) {g : Text}, Blank g →
      Text.trimEnd (y ++ (v ++ g)) = y ++ v := by
    intro v h y g blankG
    rw [← List.append_assoc, Text.trimEnd_append blankG]
    apply Text.trimEnd_of_back
    intro c last
    rw [List.getLast?_append_of_ne_nil _ h.1] at last
    exact visible h c (List.mem_of_getLast? last)
  have front : x ++ w = x' ++ w' := by
    rw [← trimmed keyword x blank, same, trimmed keyword' x' blank']
  -- A longer beginning would end with a character of the other word.
  have shorter : ∀ {y y' v v' a : Text}, BlankLast y' → IsKeyword v → y' = y ++ a → v = a ++ v' →
      a = [] := by
    intro y y' v v' a last h shape shape'
    rcases List.eq_nil_or_concat a with rfl | ⟨a, c, rfl⟩
    · rfl
    · rcases last with rfl | ⟨y'', b, rfl, blankB⟩
      · simp at shape
      · have same : y'' ++ [b] = (y ++ a) ++ [c] := by simpa using shape
        have sameLast : b = c := by simpa using (List.append_inj' same rfl).2
        have seen := visible h c (by rw [shape']; simp)
        rw [← sameLast, blankB] at seen
        cases seen
  rcases List.append_eq_append_iff.mp front with ⟨a, shape, shape'⟩ | ⟨a, shape, shape'⟩
  · rw [shorter before' keyword shape shape'] at shape'
    exact shape'
  · rw [shorter before keyword' shape shape'] at shape'
    exact shape'.symm

theorem eq_of_first_parenthesis {s s' rest rest' : Text} (absent : '(' ∉ s) (once : '(' ∉ rest)
    (same : s ++ '(' :: rest = s' ++ '(' :: rest') : s = s' := by
  rcases List.append_eq_append_iff.mp same with ⟨a, shape, shape'⟩ | ⟨a, shape, shape'⟩
  · cases a with
    | nil => simpa using shape.symm
    | cons d a =>
        obtain ⟨-, rfl⟩ := List.cons.inj shape'
        exact absurd (by simp) once
  · cases a with
    | nil => simpa using shape
    | cons d a =>
        obtain ⟨rfl, -⟩ := List.cons.inj shape'
        exact absurd (by rw [shape]; simp) absent

section

variable {x w gap rest className : Text} (before : BlankLast x) (keyword : IsKeyword w)
  (blank : Blank gap) (absent : '(' ∉ x) (once : '(' ∉ rest) (isClass : IsKeyword className)

include before keyword blank absent once isClass

/-- Whatever reads the name of the class in front of a parenthesis, reads the
word that stands there. -/
theorem eq_className {x' gap' rest' : Text} (before' : BlankLast x') (blank' : Blank gap')
    (same : x ++ (w ++ (gap ++ '(' :: rest)) = x' ++ (className ++ (gap' ++ '(' :: rest'))) :
    w = className := by
  have absent' : '(' ∉ x ++ (w ++ gap) := by
    simp only [List.mem_append, not_or]
    exact ⟨absent, fun h => absurd (keyword.2 _ h) (by decide),
      fun h => absurd (blank _ h) (by decide)⟩
  have heading : x ++ (w ++ gap) = x' ++ (className ++ gap') :=
    eq_of_first_parenthesis absent' once (by simpa using same)
  exact eq_of_last_name before before' keyword isClass blank blank' heading

theorem isConstructorArea_eq :
    Signature.isConstructorArea className (x ++ (w ++ (gap ++ '(' :: rest))) =
      decide (w = className) := by
  have named : (!className.isEmpty) = true := by simp [isClass.1]
  rw [Signature.isConstructorArea, named, Bool.true_and]
  by_cases same : w = className
  · subst same
    rw [decide_eq_true rfl]
    refine occursIn_of_blankLast before fun behind => ?_
    rw [Matcher.bind_of_single (Matcher.word_append _ _ _),
      Matcher.bind_of_single (Matcher.run_append blank (Matcher.stops_cons.mpr (by decide)) _),
      Matcher.char_self]
    simp
  · rw [decide_eq_false same]
    apply Matcher.occursIn_eq_false_iff.mpr
    intro y z cut
    apply Classical.byContradiction
    intro reads
    have takes :=
      (Matcher.takes_word className).bind fun _ => (Matcher.takes_run isBlank).bind fun _ =>
      Matcher.takes_char '('
    obtain ⟨_, rest', ⟨_, _, rfl, rfl, gap', _, rfl, blank', rfl⟩,
      ⟨atStart, shape⟩ | ⟨b, blankB, shape⟩⟩ :=
      exists_taken takes reads
    · have nothing : y = [] := List.reverse_eq_nil_iff.mp atStart
      subst nothing
      exact same (eq_className before keyword blank absent once isClass (Or.inl rfl) blank'
        (by simpa [shape] using cut))
    · exact same (eq_className before keyword blank absent once isClass (Or.inr ⟨y, b, rfl, blankB⟩)
        blank' (by simpa [shape] using cut))

end

end Lexeme
end Testwright
