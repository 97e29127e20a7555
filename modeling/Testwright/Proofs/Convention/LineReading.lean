import Testwright.Proofs.Convention.ClassHeader
import Testwright.Proofs.Text.Standing

namespace Testwright

/-!
# Lines that are rewritten

A line declares a void method exactly if it is an indent, modifiers and the word
`void`, a name, and a parenthesis with the rest of the line behind it
(`VoidLine.read?_eq_some_iff`); so a text declares none if something else than names
and blanks stands in front of its first parenthesis.  A line is marked exactly if the
mark of a test stands behind its indent (`MarkedLine.read?_eq_some_iff`), and the
arguments of the mark go up to the first closing parenthesis.
-/

open Character (isBlank isNamePart isWord)
open Header (isSpaceOrTab)
open Matcher (Gives IsPhrase Reads Stops Takes isNotBreak markedLine methodModifiers voidLine)
open Text (Blank)

namespace Matcher

theorem areDistinct_methodModifiers : Lexeme.AreDistinct methodModifiers where
  keywords := by decide
  nodup := by decide
  apart := by decide

theorem mem_textEnd {place later : Place} (member : ((), later) ∈ textEnd place) :
    later = place ∧ place.ahead = [] := by
  rcases mem_require member with ⟨rfl, atEnd⟩
  exact ⟨rfl, by simpa [Place.atEnd] using atEnd⟩

theorem isNotBreak_of_not_mem {t : Text} (unbroken : '\n' ∉ t) : ∀ c ∈ t, isNotBreak c = true := by
  intro c member
  have other : c ≠ '\n' := by
    rintro rfl
    exact unbroken member
  simp [isNotBreak, other]

/-- To the end of a line is to the end of a text without line feeds. -/
theorem reads_toEnd {t : Text} (unbroken : '\n' ∉ t) (behind : Text) :
    run isNotBreak ⟨behind, t⟩ = [((), ⟨t.reverse ++ behind, []⟩)] := by
  have read := run_append (isNotBreak_of_not_mem unbroken) (stops_nil isNotBreak) behind
  simpa using read

theorem IsPhrase.exists_front {words : List Text} (keywords : ∀ w ∈ words, Lexeme.IsKeyword w)
    {w s : Text} (keyword : Lexeme.IsKeyword w) (h : IsPhrase words w s) :
    ∃ c r, s = c :: r ∧ isNamePart c = true := by
  have front : ∀ u t : Text, Lexeme.IsKeyword u → ∃ c r, u ++ t = c :: r ∧ isNamePart c = true := by
    rintro u t ⟨nonempty, named⟩
    rcases List.exists_cons_of_ne_nil nonempty with ⟨c, u, rfl⟩
    exact ⟨c, u ++ t, rfl, named c List.mem_cons_self⟩
  rcases h with ⟨_, gap, rfl, ⟨rounds, rfl, each⟩, -, -⟩
  cases rounds with
  | nil => exact front w gap keyword
  | cons r rounds =>
      rcases each r List.mem_cons_self with ⟨w', gap', rfl, isWord, -, -⟩
      rcases front w' (gap' ++ (rounds.flatten ++ (w ++ gap))) (keywords w' isWord) with
        ⟨c, r, whole, inName⟩
      exact ⟨c, r, by simpa using whole, inName⟩

/-- A phrase consists of name parts and blanks. -/
theorem IsPhrase.isNamePart_or_isBlank {words : List Text}
    (keywords : ∀ w ∈ words, Lexeme.IsKeyword w) {w s : Text} (keyword : Lexeme.IsKeyword w)
    (h : IsPhrase words w s) :
    ∀ c ∈ s, isNamePart c = true ∨ isBlank c = true := by
  rcases h with ⟨_, gap, rfl, ⟨rounds, rfl, each⟩, -, blank⟩
  simp only [List.forall_mem_append]
  refine ⟨fun c member => ?_, fun c member => Or.inl (keyword.2 c member),
    fun c member => Or.inr (blank c member)⟩
  rcases List.mem_flatten.mp member with ⟨r, isRound, inside⟩
  rcases each r isRound with ⟨w', gap', rfl, isWord, -, blank'⟩
  rcases List.mem_append.mp inside with inWord | inGap
  · exact Or.inl ((keywords w' isWord).2 c inWord)
  · exact Or.inr (blank' c inGap)

/-- The reader of modifiers and the word `void`. -/
def voidLead : Matcher Unit :=
  phrase methodModifiers "void".toList

/-- The reader of a parenthesis and the rest of the line. -/
def parenthesisRest : Matcher Unit := do
  run isBlank
  char '('
  run isNotBreak

theorem voidLine_eq : voidLine = (do
    textStart
    let indent ← stretch (run isSpaceOrTab)
    let lead ← stretch voidLead
    let name ← stretch (run1 isNamePart)
    let rest ← stretch parenthesisRest
    textEnd
    return { indent := indent.text, lead := lead.text, name := name.text, rest := rest.text }) :=
      rfl

/-- A parenthesis behind blanks, with the rest of a line. -/
def IsParenthesisRest (s : Text) : Prop :=
  ∃ gap r, s = gap ++ '(' :: r ∧ Blank gap ∧ '\n' ∉ r

theorem takes_parenthesisRest : Takes parenthesisRest IsParenthesisRest := by
  apply ((takes_run isBlank).bind fun _ => (takes_char '(').bind fun _ => takes_run isNotBreak).mono
  rintro s ⟨gap, _, rfl, blank, _, r, rfl, rfl, all⟩
  exact ⟨gap, r, rfl, blank, fun feed => absurd (all _ feed) (by decide)⟩

theorem reads_parenthesisRest {s : Text} (h : IsParenthesisRest s) (behind : Text) :
    Reads parenthesisRest ⟨behind, s⟩ () ⟨s.reverse ++ behind, []⟩ := by
  rcases h with ⟨gap, r, rfl, blank, unbroken⟩
  have stops : Stops isBlank ('(' :: r) := stops_cons.mpr (by decide)
  have gapRead := run_append blank stops behind
  have read : Reads parenthesisRest ⟨behind, gap ++ '(' :: r⟩ () _ :=
    (Reads.of_eq_cons gapRead).bind
      ((Reads.of_eq_cons (char_self '(' _ r)).bind (Reads.of_eq_cons (reads_toEnd unbroken _)))
  simpa using read

theorem stops_parenthesisRest {s : Text} (h : IsParenthesisRest s) : Stops isNamePart s := by
  rcases h with ⟨gap, r, rfl, blank, -⟩
  exact HeaderStatement.stops_gap blank (by decide) r

end Matcher

/-! ## Declarations of void methods -/

namespace VoidLine

/-- The line that was read. -/
def text (line : VoidLine) : Text :=
  line.indent ++ (line.lead ++ (line.name ++ line.rest))

/-- An indent, modifiers and the word `void`, a name, and a parenthesis with the rest
of the line. -/
structure IsFormed (line : VoidLine) : Prop where
  indent : ∀ c ∈ line.indent, isSpaceOrTab c = true
  lead : IsPhrase methodModifiers "void".toList line.lead
  nonempty : line.name ≠ []
  name : ∀ c ∈ line.name, isNamePart c = true
  rest : Matcher.IsParenthesisRest line.rest

theorem ahead_eq_nil {place later : Place} {line : VoidLine}
    (member : (line, later) ∈ voidLine place) :
    later.ahead = [] := by
  rw [Matcher.voidLine_eq] at member
  rcases Matcher.mem_bind.mp member with ⟨_, _, -, member⟩
  rcases Matcher.mem_bind.mp member with ⟨_, _, -, member⟩
  rcases Matcher.mem_bind.mp member with ⟨_, _, -, member⟩
  rcases Matcher.mem_bind.mp member with ⟨_, _, -, member⟩
  rcases Matcher.mem_bind.mp member with ⟨_, _, -, member⟩
  rcases Matcher.mem_bind.mp member with ⟨_, between, atEnd, inPure⟩
  rw [(Matcher.mem_pure.mp inPure).2, (Matcher.mem_textEnd atEnd).1, (Matcher.mem_textEnd atEnd).2]

/-- What is read has its form and is the whole text. -/
theorem isFormed_of_read? {t : Text} {line : VoidLine} (h : voidLine.read? t = some line) :
    t = line.text ∧ line.IsFormed := by
  rcases Option.map_eq_some_iff.mp h with ⟨⟨found, later⟩, first, rfl⟩
  have member := List.mem_of_mem_head? first
  have parts := (Matcher.takes_require Place.atStart).gives.bind fun _ =>
    (Matcher.takes_run isSpaceOrTab).gives_stretch.bind fun indent =>
      (Matcher.takes_phrase methodModifiers "void".toList).gives_stretch.bind fun lead =>
        (Matcher.takes_run1 isNamePart).gives_stretch.bind fun name =>
          Matcher.takes_parenthesisRest.gives_stretch.bind fun rest =>
            (Matcher.takes_require Place.atEnd).gives.bind fun _ =>
              Matcher.gives_pure (VoidLine.mk indent.text lead.text name.text rest.text)
  rcases parts (Place.start t) (found, later) member with ⟨s, holds, whole, -⟩
  rw [ahead_eq_nil member, List.append_nil] at whole
  rcases holds with ⟨-, _, _, rfl, rfl, indent, _, _, rfl, ⟨spaces, indentText⟩, lead, _, _, rfl,
    ⟨isPhrase, leadText⟩, name, _, _, rfl, ⟨⟨nonempty, named⟩, nameText⟩, rest, _, _, rfl,
    ⟨isRest, restText⟩, -, _, _, rfl, rfl, rfl, rfl⟩
  subst indentText leadText nameText restText
  change t = _ at whole
  exact ⟨by simpa [text] using whole, ⟨spaces, isPhrase, nonempty, named, isRest⟩⟩

theorem not_isSpaceOrTab_of_isNamePart {c : Char} (inName : isNamePart c = true) :
    isSpaceOrTab c = false :=
  Bool.eq_false_iff.mpr fun space => absurd (Header.isBlank_of_isSpaceOrTab space)
    (Bool.eq_false_iff.mp (Character.not_isBlank_of_isNamePart inName))

theorem stops_of_isNamePart {accept : Char → Bool}
    (other : ∀ c, isNamePart c = true → accept c = false) {name : Text} (nonempty : name ≠ [])
    (named : ∀ c ∈ name, isNamePart c = true) (t : Text) :
    Stops accept (name ++ t) := by
  rcases List.exists_cons_of_ne_nil nonempty with ⟨c, name, rfl⟩
  exact other c (named c List.mem_cons_self)

/-- A line of this form is read. -/
theorem IsFormed.read?_text {line : VoidLine} (h : line.IsFormed) :
    voidLine.read? line.text = some line := by
  have visible : Stops isBlank (line.name ++ line.rest) :=
    stops_of_isNamePart (fun _ => Character.not_isBlank_of_isNamePart) h.nonempty h.name line.rest
  have letter : Stops isSpaceOrTab (line.lead ++ (line.name ++ line.rest)) := by
    rcases h.lead.exists_front Matcher.areDistinct_methodModifiers.keywords (by decide) with
      ⟨c, r, whole, inName⟩
    rw [whole]
    exact not_isSpaceOrTab_of_isNamePart inName
  have indentRead := (Reads.of_eq_cons (Matcher.run_append h.indent letter [])).stretch
  have leadRead :=
    (Matcher.reads_phrase Matcher.areDistinct_methodModifiers h.lead (by decide) (by decide)
    visible (line.indent.reverse ++ [])).stretch
  have nameRead := (Reads.of_eq_cons (Matcher.run1_append h.name h.nonempty
    (Matcher.stops_parenthesisRest h.rest)
      (line.lead.reverse ++ (line.indent.reverse ++ [])))).stretch
  have restRead := (Matcher.reads_parenthesisRest h.rest
    (line.name.reverse ++ (line.lead.reverse ++ (line.indent.reverse ++ [])))).stretch
  have read : Reads voidLine (Place.start line.text) line
      ⟨line.rest.reverse ++ (line.name.reverse ++
      (line.lead.reverse ++ (line.indent.reverse ++ []))), []⟩ := by
    rw [Matcher.voidLine_eq]
    exact (Reads.of_eq_cons rfl).bind (indentRead.bind (leadRead.bind (nameRead.bind (restRead.bind
      ((Reads.of_eq_cons rfl).bind (by simp [Reads, Matcher.text_mk_nil]))))))
  exact Matcher.read?_of_reads read

theorem read?_eq_some_iff {t : Text} {line : VoidLine} :
    voidLine.read? t = some line ↔ t = line.text ∧ line.IsFormed := by
  constructor
  · exact isFormed_of_read?
  · rintro ⟨rfl, formed⟩
    exact formed.read?_text

/-- Up to the parenthesis stand name parts and blanks, and a blank stands behind
something visible. -/
theorem IsFormed.exists_front {line : VoidLine} (h : line.IsFormed) : ∃ x y r,
    line.text = x ++ 'v' :: y ++ '(' :: r ∧
    (∀ c ∈ x ++ 'v' :: y, isNamePart c = true ∨ isBlank c = true) ∧
      ∃ c ∈ y, isBlank c = true := by
  have leadParts :=
    h.lead.isNamePart_or_isBlank Matcher.areDistinct_methodModifiers.keywords (by decide)
  rcases h.lead with ⟨modifiers, gap, whole, -, some, blank⟩
  rcases List.exists_cons_of_ne_nil some with ⟨b, gap, rfl⟩
  rcases h.rest with ⟨gap', r, rest, blank', -⟩
  have lead : line.lead = modifiers ++ 'v' :: ("oid".toList ++ b :: gap) := by rw [whole]; simp
  refine ⟨line.indent ++ modifiers, "oid".toList ++ b :: gap ++ (line.name ++ gap'), r, by
    rw [text, rest, lead]; simp, ?_, b, by simp, blank b List.mem_cons_self⟩
  intro c member
  have cases : c ∈ line.indent ∨ c ∈ line.lead ∨ c ∈ line.name ∨ c ∈ gap' := by
    rw [lead]
    simp only [List.mem_append, List.mem_cons] at member ⊢
    tauto
  rcases cases with inIndent | inLead | inName | inGap
  · exact .inr (Header.isBlank_of_isSpaceOrTab (h.indent c inIndent))
  · exact leadParts c inLead
  · exact .inl (h.name c inName)
  · exact .inr (blank' c inGap)

theorem IsFormed.parenthesis_not_mem {x : Text}
    (each : ∀ c ∈ x, isNamePart c = true ∨ isBlank c = true) :
    '(' ∉ x := by
  intro member
  rcases each _ member with inName | blank
  · exact absurd inName (by decide)
  · exact absurd blank (by decide)

section None

variable {t : Text}

theorem read?_eq_none_of (other : ∀ line : VoidLine, line.IsFormed → t ≠ line.text) :
    voidLine.read? t = none :=
  Option.eq_none_iff_forall_not_mem.mpr fun line found =>
    other line (isFormed_of_read? found).2 (isFormed_of_read? found).1

/-- A line without a parenthesis declares nothing. -/
theorem read?_eq_none_of_not_mem (absent : '(' ∉ t) : voidLine.read? t = none := by
  apply read?_eq_none_of
  rintro line formed rfl
  rcases formed.exists_front with ⟨x, y, r, whole, -, -⟩
  exact absent (by rw [whole]; simp)

/-- Nor does one with another mark in front of its first parenthesis. -/
theorem read?_eq_none_of_mark {a b : Text} {c : Char} (absent : '(' ∉ a)
    (noName : isNamePart c = false) (visible : isBlank c = false) (other : c ≠ '(') :
    voidLine.read? (a ++ c :: b) = none := by
  apply read?_eq_none_of
  intro line formed same
  rcases formed.exists_front with ⟨x, y, r, whole, each, -⟩
  rw [whole] at same
  have absent' : '(' ∉ a ++ [c] := by simp [absent, Ne.symm other]
  have inFront : c ∈ x ++ 'v' :: y := by
    rcases Text.exists_behind absent'
      (show (a ++ [c]) ++ b = (x ++ 'v' :: y) ++ '(' :: r by simpa using same)
      with ⟨z, front, -⟩
    rw [front]
    simp
  rcases each c inFront with inName | blank
  · simp [inName] at noName
  · simp [blank] at visible

/-- Nor does one with a single word there. -/
theorem read?_eq_none_of_word {gap w b : Text} (blank : Blank gap)
    (word : ∀ c ∈ w, isBlank c = false ∧ c ≠ '(') :
    voidLine.read? (gap ++ w ++ '(' :: b) = none := by
  apply read?_eq_none_of
  intro line formed same
  rcases formed.exists_front with ⟨x, y, r, whole, each, d, inside, isBlankD⟩
  rw [whole] at same
  have absent : '(' ∉ gap ++ w := by
    intro member
    rcases List.mem_append.mp member with inGap | inWord
    · exact absurd (blank _ inGap) (by decide)
    · exact (word _ inWord).2 rfl
  have front := (Text.eq_of_cut absent (IsFormed.parenthesis_not_mem each) same).1
  have noLetter : 'v' ∉ gap := fun member => absurd (blank _ member) (by decide)
  rcases Text.exists_behind noLetter front with ⟨z, -, parts⟩
  have visible := (word d (by rw [parts]; simp [inside])).1
  rw [isBlankD] at visible
  simp at visible

end None

end VoidLine

/-! ## Marked lines -/

namespace Matcher

/-- The arguments that belong to a mark, in front of what stands behind them. -/
def AreArguments (arguments after : Text) : Prop :=
  (∃ gap inner, arguments = gap ++ '(' :: (inner ++ [')']) ∧ Blank gap ∧ ')' ∉ inner) ∨
    arguments = [] ∧ ∀ gap inner rest, Blank gap → after ≠ gap ++ '(' :: (inner ++ ')' :: rest)

/-- What stands behind a mark can be parted into arguments and the rest. -/
theorem exists_arguments (t : Text) :
    ∃ arguments after, t = arguments ++ after ∧ AreArguments arguments after := by
  by_cases none : ∀ gap inner rest, Blank gap → t ≠ gap ++ '(' :: (inner ++ ')' :: rest)
  · exact ⟨[], t, rfl, Or.inr ⟨rfl, none⟩⟩
  · push Not at none
    rcases none with ⟨gap, inner, rest, blank, rfl⟩
    have closes : ')' ∈ inner ++ ')' :: rest := by simp
    rcases List.eq_append_cons_of_mem closes with ⟨inside, after, whole, first⟩
    exact ⟨gap ++ '(' :: (inside ++ [')']), after, by simp [whole],
      Or.inl ⟨gap, inside, rfl, blank, first⟩⟩

/-- The reader of arguments. -/
def markArguments : Matcher Unit := do
  run isBlank
  char '('
  run fun c => !(c == ')')
  char ')'

theorem markedLine_eq : markedLine = (do
    textStart
    let indent ← stretch (run isSpaceOrTab)
    word "@Test".toList
    wordEdge
    maybe markArguments
    run isSpaceOrTab
    let rest ← stretch (run isNotBreak)
    textEnd
    return { indent := indent.text, rest := rest.text }) := rfl

theorem takes_markArguments : Takes markArguments fun s =>
    ∃ gap inner, s = gap ++ '(' :: (inner ++ [')']) ∧ Blank gap ∧ ')' ∉ inner := by
  apply ((takes_run isBlank).bind fun _ => (takes_char '(').bind fun _ =>
    (takes_run fun c => !(c == ')')).bind fun _ => takes_char ')').mono
  rintro s ⟨gap, _, rfl, blank, _, _, rfl, rfl, inner, _, rfl, all, rfl⟩
  exact ⟨gap, inner, rfl, blank, fun member => absurd (all _ member) (by decide)⟩

/-- The arguments of a mark are taken up to the first parenthesis that closes. -/
theorem reads_arguments {arguments after : Text} (parted : AreArguments arguments after)
    (behind : Text) :
    Reads (maybe markArguments) ⟨behind, arguments ++ after⟩ ()
      ⟨arguments.reverse ++ behind, after⟩ := by
  rcases parted with ⟨gap, inner, rfl, blank, first⟩ | ⟨rfl, none⟩
  · apply Reads.maybe
    have all : ∀ c ∈ inner, (!(c == ')')) = true := by
      intro c member
      have other : c ≠ ')' := by
        rintro rfl
        exact first member
      simp [other]
    have stops : Stops isBlank ('(' :: (inner ++ ')' :: after)) := stops_cons.mpr (by decide)
    have stops' : Stops (fun c => !(c == ')')) (')' :: after) := stops_cons.mpr (by decide)
    have read : Reads markArguments ⟨behind, gap ++ '(' :: (inner ++ ')' :: after)⟩ () _ :=
      (Reads.of_eq_cons (run_append blank stops behind)).bind
        ((Reads.of_eq_cons (char_self _ _ _)).bind
        ((Reads.of_eq_cons (run_append all stops' _)).bind (Reads.of_eq_cons (char_self _ _ _))))
    simpa using read
  · have none' : markArguments ⟨behind, after⟩ = [] := by
      apply takes_markArguments.eq_nil
      rintro s t same ⟨gap, inner, shape, blank, -⟩
      exact none gap inner t blank (by rw [same, shape]; simp)
    exact Reads.of_eq_cons (maybe_of_nil none')

end Matcher

namespace MarkedLine

/-- The line is an indent, the mark, its arguments, spaces or tabs, and the rest. -/
structure IsFormed (line : MarkedLine) (t arguments spaces : Text) : Prop where
  whole : t = line.indent ++ ("@Test".toList ++ (arguments ++ (spaces ++ line.rest)))
  indent : ∀ c ∈ line.indent, isSpaceOrTab c = true
  edge : Stops isWord (arguments ++ (spaces ++ line.rest))
  arguments : Matcher.AreArguments arguments (spaces ++ line.rest)
  spaces : ∀ c ∈ spaces, isSpaceOrTab c = true
  rest : Stops isSpaceOrTab line.rest

variable {t : Text} {line : MarkedLine}

theorem IsFormed.read? {arguments spaces : Text} (h : line.IsFormed t arguments spaces)
    (unbroken : '\n' ∉ t) :
    markedLine.read? t = some line := by
  have whole := h.whole
  have restUnbroken : '\n' ∉ line.rest := fun member => unbroken (by rw [whole]; simp [member])
  have letter : Stops isSpaceOrTab ("@Test".toList ++ (arguments ++ (spaces ++ line.rest))) :=
    Matcher.stops_cons.mpr (by decide)
  have indentRead := (Reads.of_eq_cons (Matcher.run_append h.indent letter [])).stretch
  have wordRead := Reads.of_eq_cons (Matcher.word_append "@Test".toList (line.indent.reverse ++ [])
    (arguments ++ (spaces ++ line.rest)))
  have atEdge : Place.atWordEdge ⟨"@Test".toList.reverse ++ (line.indent.reverse ++ []),
      arguments ++ (spaces ++ line.rest)⟩ = true :=
    (Place.atWordEdge_back_iff (by decide) _ _).mpr h.edge
  have edgeRead := Reads.of_eq_cons (Matcher.require_of_true atEdge)
  have argumentsRead :=
    Matcher.reads_arguments h.arguments ("@Test".toList.reverse ++ (line.indent.reverse ++ []))
  have spacesRead := Reads.of_eq_cons (Matcher.run_append h.spaces h.rest
    (arguments.reverse ++ ("@Test".toList.reverse ++ (line.indent.reverse ++ []))))
  have restRead := (Reads.of_eq_cons (Matcher.reads_toEnd restUnbroken
    (spaces.reverse ++
      (arguments.reverse ++ ("@Test".toList.reverse ++ (line.indent.reverse ++ [])))))).stretch
  have read : Reads markedLine (Place.start t) line ⟨line.rest.reverse ++ (spaces.reverse ++
      (arguments.reverse ++ ("@Test".toList.reverse ++ (line.indent.reverse ++ [])))), []⟩ := by
    rw [Matcher.markedLine_eq, whole]
    exact (Reads.of_eq_cons rfl).bind
      (indentRead.bind (wordRead.bind (edgeRead.bind (argumentsRead.bind
      (spacesRead.bind
        (restRead.bind ((Reads.of_eq_cons rfl).bind (by simp [Reads, Matcher.text_mk_nil]))))))))
  exact Matcher.read?_of_reads read

/-- Behind its indent a marked line begins with the mark. -/
theorem exists_of_read? (h : markedLine.read? t = some line) :
    ∃ u, t = line.indent ++ ("@Test".toList ++ u) ∧ (∀ c ∈ line.indent, isSpaceOrTab c = true) ∧
      Stops isWord u := by
  rcases Option.map_eq_some_iff.mp h with ⟨⟨found, later⟩, first, rfl⟩
  have member := List.mem_of_mem_head? first
  rw [Matcher.markedLine_eq] at member
  rcases Matcher.mem_bind.mp member with ⟨_, start, atStart, inIndent⟩
  rw [(Matcher.mem_require atStart).1] at inIndent
  rcases Matcher.mem_bind.mp inIndent with ⟨indent, between, isIndent, inWord⟩
  rcases (Matcher.takes_run isSpaceOrTab).gives_stretch _ _ isIndent with
    ⟨s, ⟨spaces, indentText⟩, indentAhead, indentBehind⟩
  rcases Matcher.mem_bind.mp inWord with ⟨_, place, isWord, inEdge⟩
  rcases Matcher.takes_word "@Test".toList _ _ isWord with ⟨w, rfl, wordAhead, wordBehind⟩
  rcases Matcher.mem_bind.mp inEdge with ⟨_, place', atEdge, inArguments⟩
  have edge := (Matcher.mem_require atEdge).2
  rcases Matcher.mem_bind.mp inArguments with ⟨_, _, -, inSpaces⟩
  rcases Matcher.mem_bind.mp inSpaces with ⟨_, _, -, inRest⟩
  rcases Matcher.mem_bind.mp inRest with ⟨_, _, -, inEnd⟩
  rcases Matcher.mem_bind.mp inEnd with ⟨_, _, -, inPure⟩
  rcases Matcher.mem_pure.mp inPure with ⟨rfl, -⟩
  rcases place with ⟨behind, ahead⟩
  refine ⟨ahead, ?_, ?_, ?_⟩
  · change t = _ at indentAhead
    simpa [indentText, wordAhead] using indentAhead
  · simpa [indentText] using spaces
  · rw [show behind = 't' :: ("@Tes".toList.reverse ++ between.behind) by simpa using wordBehind]
      at edge
    exact (Place.atWordEdge_back_iff (by decide) _ _).mp edge

/-- A line that begins with the mark can be parted. -/
theorem exists_isFormed {indent u : Text} (spaces : ∀ c ∈ indent, isSpaceOrTab c = true)
    (edge : Stops isWord u) :
    ∃ line arguments spaces, IsFormed line (indent ++ ("@Test".toList ++ u)) arguments spaces ∧
      line.indent = indent := by
  rcases Matcher.exists_arguments u with ⟨arguments, after, rfl, parted⟩
  have cut := (List.takeWhile_append_dropWhile (p := isSpaceOrTab) (l := after)).symm
  refine ⟨⟨indent, after.dropWhile isSpaceOrTab⟩, arguments, after.takeWhile isSpaceOrTab,
    ⟨by rw [← cut], spaces, by rw [← cut]; exact edge, by rw [← cut]; exact parted,
      fun c member => List.mem_takeWhile_imp member, Matcher.stops_dropWhile isSpaceOrTab after⟩,
      rfl⟩

/-- A line is read as a marked one exactly if it is formed that way. -/
theorem read?_eq_some_iff (unbroken : '\n' ∉ t) :
    markedLine.read? t = some line ↔ ∃ arguments spaces, line.IsFormed t arguments spaces := by
  constructor
  · intro found
    rcases exists_of_read? found with ⟨u, rfl, spaces, edge⟩
    rcases exists_isFormed spaces edge with ⟨line', arguments, spaces', formed, -⟩
    have same := (formed.read? unbroken).symm.trans found
    exact ⟨arguments, spaces', Option.some.inj same ▸ formed⟩
  · rintro ⟨arguments, spaces, formed⟩
    exact formed.read? unbroken

/-- A line in which no mark begins is not marked. -/
theorem read?_eq_none_of_not_mem (absent : '@' ∉ t) : markedLine.read? t = none :=
  Option.eq_none_iff_forall_not_mem.mpr fun line found => by
    rcases exists_of_read? found with ⟨u, rfl, -, -⟩
    exact absent (by simp)

end MarkedLine
end Testwright
