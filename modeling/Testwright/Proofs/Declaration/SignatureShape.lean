import Testwright.Proofs.Matcher.Yielded
import Testwright.Proofs.Text.Areas
import Testwright.Source.Signature

namespace Testwright
namespace Matcher

/-!
# What stands in front of the parameters of a signature

The shape of a signature leaves much to backtracking: a word such as `static`
may be taken for a qualifier or for the result type, and angle brackets for
type variables or for arguments.  Whatever is settled on, the text in front of
the first parenthesis is cut into the same pieces (`IsFront`).  Where no bracket
stands in it, its last two words are the result type and the name, and all the
words in front of them are qualifiers (`IsFront.words_eq`).
-/

open Character (isBlank isDottedPart isNamePart)
open Text (Blank)

/-- Qualifiers, each with blanks behind it. -/
def AreQualifiers (lead : Text) : Prop :=
  ∃ rounds : List Text, lead = rounds.flatten ∧
    ∀ r ∈ rounds, ∃ w gap, r = w ++ gap ∧ w ∈ qualifiers ∧ gap ≠ [] ∧ Blank gap

/-- Nothing, or type variables between angle brackets. -/
def IsVariableList (list : Text) : Prop :=
  list = [] ∨ ∃ inner gap, list = '<' :: (inner ++ '>' :: gap) ∧ '(' ∉ inner ∧ Blank gap

/-- The characters of a dotted name, and behind them nothing or a bracket. -/
def IsResultText (type : Text) : Prop :=
  ∃ base rest, type = base ++ rest ∧ base ≠ [] ∧ (∀ c ∈ base, isDottedPart c = true) ∧
    (∀ c ∈ rest, isTypeArgumentPart c = true) ∧ (rest = [] ∨ '<' ∈ rest ∨ '[' ∈ rest)

/-- What stands in front of the parameters, for this result type and this name. -/
def IsFront (front result name : Text) : Prop :=
  ∃ gap lead list gap' gap'',
    front = gap ++ (lead ++ (list ++ (result ++ (gap' ++ (name ++ gap''))))) ∧
    Blank gap ∧ AreQualifiers lead ∧ IsVariableList list ∧ IsResultText result ∧
    (Blank gap' ∧ gap' ≠ []) ∧ (name ≠ [] ∧ ∀ c ∈ name, isNamePart c = true) ∧ Blank gap''

/-! ## The pieces -/

theorem takes_qualifiers : Takes (many do
    anyOf qualifiers
    run1 isBlank) AreQualifiers := by
  apply ((takes_anyOf qualifiers).bind fun _ => takes_run1 isBlank).many.mono
  rintro _ ⟨rounds, rfl, each⟩
  refine ⟨rounds, rfl, fun r member => ?_⟩
  obtain ⟨w, gap, rfl, isQualifier, some, blank⟩ := each r member
  exact ⟨w, gap, rfl, isQualifier, some, blank⟩

theorem takes_variableList : Takes (maybe do
    char '<'
    lazyRuns fun c => !isParenthesis c
    char '>'
    run isBlank) IsVariableList := by
  apply ((takes_char '<').bind fun _ => (takes_lazyRuns fun c => !isParenthesis c).bind fun _ =>
    (takes_char '>').bind fun _ => takes_run isBlank).maybe.mono
  rintro _ (⟨_, _, rfl, rfl, inner, _, rfl, free, _, gap, rfl, rfl, blank⟩ | rfl)
  · exact Or.inr ⟨inner, gap, by simp, fun member => absurd (free _ member) (by decide), blank⟩
  · exact Or.inl rfl

theorem isTypeArgumentPart_of_blank {gap : Text} (blank : Blank gap) :
    ∀ c ∈ gap, isTypeArgumentPart c = true :=
  fun c member => by simp [isTypeArgumentPart, blank c member]

theorem yields_returnType : Yields returnType fun found s => found.text = s ∧ IsResultText s := by
  have arguments := (takes_run isBlank).bind fun _ => (takes_char '<').bind fun _ =>
    (takes_runs isTypeArgumentPart).bind fun _ => takes_char '>'
  have pairs := (takes_run isBlank).bind fun _ => (takes_char '[').bind fun _ =>
    (takes_run isBlank).bind fun _ => takes_char ']'
  apply Takes.yields_stretch
  apply ((takes_run1 isDottedPart).bind fun _ => arguments.maybe.bind fun _ => pairs.many).mono
  rintro _ ⟨base, _, rfl, ⟨some, inBase⟩, types, _, rfl, inTypes, brackets, rfl, inBrackets⟩
  have accepted : ∀ c ∈ types, isTypeArgumentPart c = true := by
    rcases inTypes with ⟨gap, _, rfl, blank, _, _, rfl, rfl, inner, _, rfl, inInner, rfl⟩ | rfl
    · exact List.forall_mem_append.mpr ⟨isTypeArgumentPart_of_blank blank,
        List.forall_mem_append.mpr ⟨by decide, List.forall_mem_append.mpr ⟨inInner, by decide⟩⟩⟩
    · exact List.forall_mem_nil _
  have pair : ∀ pair ∈ brackets, (∀ c ∈ pair, isTypeArgumentPart c = true) ∧ '[' ∈ pair := by
    intro pair member
    obtain ⟨gap, _, rfl, blank, _, _, rfl, rfl, gap', _, rfl, blank', rfl⟩ := inBrackets pair member
    exact ⟨List.forall_mem_append.mpr ⟨isTypeArgumentPart_of_blank blank, List.forall_mem_append.mpr
      ⟨by decide, List.forall_mem_append.mpr
        ⟨isTypeArgumentPart_of_blank blank', by decide⟩⟩⟩, by simp⟩
  refine ⟨base, types ++ brackets.flatten, rfl, some, inBase, ?_, ?_⟩
  · refine List.forall_mem_append.mpr ⟨accepted, fun c member => ?_⟩
    obtain ⟨round, inRounds, inRound⟩ := List.mem_flatten.mp member
    exact (pair round inRounds).1 c inRound
  · rcases inTypes with ⟨gap, _, rfl, -, _, _, rfl, rfl, -⟩ | rfl
    · exact Or.inr (Or.inl (by simp))
    · cases brackets with
      | nil => exact Or.inl rfl
      | cons round brackets =>
          exact Or.inr (Or.inr (by simp [(pair round List.mem_cons_self).2]))

/-- The result type and the name are read from the text in front of the first
parenthesis. -/
theorem yields_signatureShape : Yields signatureShape fun parts s => ∃ front rest,
    s = front ++ '(' :: rest ∧ IsFront front parts.returnType.text parts.name.text := by
  have dimensions := (takes_char '[').bind fun _ => (takes_run isBlank).bind fun _ =>
    (takes_char ']').bind fun _ => takes_run isBlank
  have clause := ((takes_word "throws".toList).bind fun _ => (takes_one isBlank).bind fun _ =>
    takes_run1 isThrowsPart).stretch
  have last := fun returnType name parameters => (takes_run isBlank).yields.bind fun _ =>
    dimensions.many.yields.bind fun _ => clause.optional.yields.bind fun throwsClause =>
    (takes_run isBlank).yields.bind fun _ =>
      (takes_one fun c => c == '\x7b' || c == ';').yields.bind fun _ =>
    (takes_require Place.atEnd).yields.bind fun _ =>
      yields_pure (SignatureParts.mk returnType name parameters throwsClause)
  have kept := fun returnType name parameters => (last returnType name parameters).mono
    (S := fun parts _ => parts.returnType = returnType ∧ parts.name = name) (by
      rintro _ _ ⟨_, _, _, rfl, -, _, _, _, rfl, -, throwsClause, _, _, rfl, -, _, _, _, rfl, -, _,
        _, _, rfl, -, _, _, _, rfl, -, rfl, rfl⟩
      exact ⟨rfl, rfl⟩)
  apply ((takes_require Place.atStart).yields.bind fun _ => (takes_run isBlank).yields.bind fun _ =>
    takes_qualifiers.yields.bind fun _ => takes_variableList.yields.bind fun _ =>
    yields_returnType.bind fun returnType => (takes_run1 isBlank).yields.bind fun _ =>
    (takes_run1 isNamePart).yields_stretch.bind fun name => (takes_run isBlank).yields.bind fun _ =>
    Text.takes_parenthesized.yields.bind fun parameters => kept returnType name parameters).mono
  rintro ⟨returnType, name, parameters, throwsClause⟩ _ ⟨_, _, _, rfl, rfl, _, gap, _, rfl, blank,
    _, lead, _, rfl,
    areQualifiers, _, list, _, rfl, isList, returnType, _, _, rfl, ⟨rfl, isResult⟩, _, gap', _, rfl,
    ⟨some, blank'⟩,
    name, _, _, rfl, ⟨rfl, inName⟩, _, gap'', _, rfl, blank'', parameters, _, rest, rfl,
    ⟨inner, rfl, -⟩, rfl, rfl⟩
  exact ⟨gap ++ (lead ++ (list ++ (returnType.text ++ (gap' ++ (name.text ++ gap''))))),
    inner ++ ')' :: rest, by simp, gap, lead, list, gap', gap'', rfl, blank, areQualifiers, isList,
    isResult, ⟨blank', some⟩, inName, blank''⟩

/-! ## Words in front of the parameters -/

namespace AreQualifiers

theorem words_append {lead : Text} (h : AreQualifiers lead) (t : Text) :
    ∃ quals, (∀ w ∈ quals, w ∈ qualifiers) ∧ Text.words (lead ++ t) = quals ++ Text.words t := by
  obtain ⟨rounds, rfl, each⟩ := h
  induction rounds with
  | nil => exact ⟨[], by simp, rfl⟩
  | cons round rounds ih =>
      obtain ⟨w, gap, rfl, isQualifier, some, blank⟩ := each round List.mem_cons_self
      obtain ⟨quals, areQualifiers, words⟩ :=
        ih fun r member => each r (List.mem_cons_of_mem _ member)
      have visible : w ≠ [] ∧ Text.Visible w :=
        (by decide : ∀ w ∈ qualifiers, w ≠ [] ∧ Text.Visible w) w isQualifier
      refine ⟨w :: quals, List.forall_mem_cons.mpr ⟨isQualifier, areQualifiers⟩, ?_⟩
      rw [List.flatten_cons, List.append_assoc, List.append_assoc, Text.words_append blank some,
        Text.words_of_visible visible.2 visible.1, words]
      rfl

end AreQualifiers

namespace IsFront

variable {front result name : Text}

theorem visible_name (h : IsFront front result name) : Text.Visible name := by
  obtain ⟨_, _, _, _, _, -, -, -, -, -, -, ⟨-, inName⟩, -⟩ := h
  exact fun c member => Character.not_isBlank_of_isNamePart (inName c member)

/-- Without brackets the words are qualifiers, the result type and the name. -/
theorem words_eq (h : IsFront front result name) (noAngle : '<' ∉ front) (noBracket : '[' ∉ front) :
    (∀ c ∈ result, isDottedPart c = true) ∧ ∃ quals, (∀ w ∈ quals, w ∈ qualifiers) ∧
      Text.words front = quals ++ [result, name] := by
  have visibleName := h.visible_name
  obtain ⟨gap, lead, list, gap', gap'', rfl, blank, areQualifiers, isList, isResult, ⟨blank', some⟩,
    ⟨nameSome, -⟩, blank''⟩ := h
  simp only [List.mem_append, not_or] at noAngle noBracket
  obtain rfl : list = [] := by
    rcases isList with none | ⟨inner, gap, rfl, -, -⟩
    · exact none
    · exact absurd List.mem_cons_self noAngle.2.2.1
  obtain ⟨base, rest, rfl, baseSome, inBase, -, follows⟩ := isResult
  obtain rfl : rest = [] := by
    rcases follows with none | angle | bracket
    · exact none
    · exact absurd (List.mem_append_right base angle) noAngle.2.2.2.1
    · exact absurd (List.mem_append_right base bracket) noBracket.2.2.2.1
  rw [List.append_nil]
  have visible : Text.Visible base :=
    fun c member => Character.not_isBlank_of_isDottedPart (inBase c member)
  obtain ⟨quals, inQualifiers, words⟩ :=
    areQualifiers.words_append (base ++ (gap' ++ (name ++ gap'')))
  refine ⟨inBase, quals, inQualifiers, ?_⟩
  rw [Text.words_append_of_blank blank, List.nil_append, words, Text.words_append blank' some,
    Text.words_of_visible visible baseSome, Text.words_append_right blank'',
    Text.words_of_visible visibleName nameSome]
  rfl

end IsFront

end Matcher
end Testwright
