import Testwright.Proofs.Declaration.BareArea

namespace Testwright

/-!
# Statements and headers that look like methods

An area is a piece of a source that ends with a brace or a semicolon and has one
parameter list, so calls, assignments, control statements and the headers of
records are areas as well as the signatures of methods.  Of the forms listed
here (`StatementForm`) two are read as signatures, because two words that begin
them are not reserved: the statement `yield f(x);` and the header of a record.
`signature_of_written` says for each form what its area is taken for.
-/

open Character (isBlank isDottedPart isNamePart)
open Declaration (isIdentifier)
open Lexeme (IsWord Spelled behindBlank freeFirst led near)
open Matcher (Reads Stops)
open Signature (IsKept rowLexemes)
open Text (Blank)

/-! ## Areas whose first words are known -/

namespace Signature

/-- The pair that a declaration is known by. -/
def heads (signature : Signature) : Text × Text :=
  (signature.returnType, signature.name)

theorem baseName_of_dotted {type : Text} (dotted : ∀ c ∈ type, isDottedPart c = true) :
    Text.trim type = type ∧ baseName type = type := by
  have trimmed : Text.trim type = type := (Text.isTrimmed_of_visible fun c member =>
    Character.not_isBlank_of_isDottedPart (dotted c member)).trim_eq
  have whole : type.takeWhile Lexeme.isBaseChar = type :=
    List.takeWhile_eq_self_iff.mpr fun c member =>
    Lexeme.isBaseChar_of (by decide) (dotted c member)
  exact ⟨trimmed, (congrArg Text.trim whole).trans trimmed⟩

section

variable {area front rest : Text} (bare : bareArea area = front ++ '(' :: rest)
  (dotted : ∀ c ∈ front, isDottedPart c = true ∨ isBlank c = true)
include bare dotted

omit bare in
theorem not_mem_front {d : Char} (noPart : isDottedPart d = false) (shown : isBlank d = false) :
    d ∉ front := by
  intro member
  rcases dotted d member with part | blank
  · rw [noPart] at part
    cases part
  · rw [shown] at blank
    cases blank

/-- If words alone stand in front of the parameters, the last two of them are
read as the result type and the name, and they are refused if one of them is
reserved. -/
theorem heads_of_read? {parts : SignatureParts}
    (read : Matcher.signatureShape.read? (bareArea area) = some parts) :
    ∃ quals result name, (∀ w ∈ quals, w ∈ Matcher.qualifiers) ∧
      (∀ c ∈ name, isNamePart c = true) ∧ Text.words front = quals ++ [result, name] ∧
      (ofArea? area).map heads = if result ∈ reserved ∨ name ∈ reserved then none
        else some (result, name) := by
  obtain ⟨_, more, ⟨front', rest', rfl, isFront⟩, same⟩ :=
    Matcher.yields_signatureShape.of_read? read
  have noCall := not_mem_front dotted (d := '(') (by decide) (by decide)
  obtain ⟨lead, gap, gap', cut, part, blank, -, inName, blank'⟩ := isFront.exists_resultPart
  have noCall' : '(' ∉ front' := by
    rw [cut]
    exact fun member => (List.mem_append.mp member).elim part.absent
      (not_mem_named blank inName blank' (by decide) (by decide))
  obtain rfl : front = front' := by
    rw [bare, List.append_assoc] at same
    exact eq_of_absent noCall noCall' same
  obtain ⟨inResult, quals, areQualifiers, words⟩ := isFront.words_eq
    (not_mem_front dotted (by decide) (by decide)) (not_mem_front dotted (by decide) (by decide))
  obtain ⟨trimmed, base⟩ := baseName_of_dotted inResult
  refine ⟨quals, parts.returnType.text, parts.name.text, areQualifiers, inName, words, ?_⟩
  by_cases isReserved : parts.returnType.text ∈ reserved ∨ parts.name.text ∈ reserved
  · simp [ofArea?, read, trimmed, base, isReserved]
  · simp [ofArea?, read, trimmed, base, isReserved, heads]

theorem ofArea?_eq_none_of_words
    (refused : ∀ quals result name, (∀ w ∈ quals, w ∈ Matcher.qualifiers) →
      (∀ c ∈ name, isNamePart c = true) → Text.words front = quals ++ [result, name] →
      result ∈ reserved ∨ name ∈ reserved) :
    ofArea? area = none := by
  cases read : Matcher.signatureShape.read? (bareArea area) with
  | none => simp [ofArea?, read]
  | some parts =>
      obtain ⟨quals, result, name, areQualifiers, inName, words, found⟩ :=
        heads_of_read? bare dotted read
      rw [if_pos (refused quals result name areQualifiers inName words)] at found
      exact Option.map_eq_none_iff.mp found

end

theorem isDottedName_of_isIdentifier {w : Text} (h : isIdentifier w = true) :
    Declaration.isDottedName w = true := by
  have noDot : '.' ∉ w := fun member =>
    absurd (Declaration.isNamePart_of_isIdentifier h '.' member) (by decide)
  simp [Declaration.isDottedName, Text.splitOn_of_not_mem noDot, h]

/-- Qualifiers, a result type and a name in front of parameters have the shape of
a signature. -/
theorem reads_row {s gap arguments gap' : Text} {last : Char} {quals : List Text}
    {result name : Text} (areQualifiers : ∀ w ∈ quals, w ∈ Matcher.qualifiers)
    (isResult : isIdentifier result = true) (isName : isIdentifier name = true)
    (spelled : Spelled (led quals (rowLexemes result [name])) s) (blank : Blank gap)
    (undivided : Text.Undivided arguments) (blank' : Blank gap')
    (ends : last = '\x7b' ∨ last = ';') :
    ∃ parts later, Reads Matcher.signatureShape
      ⟨[], (s ++ gap) ++ '(' :: (arguments ++ ')' :: (gap' ++ [last]))⟩ parts later := by
  have inResult := Declaration.isNamePart_of_isIdentifier isResult
  have inName := Declaration.isNamePart_of_isIdentifier isName
  have kinds : ∀ x ∈ [result, name], IsWord (near x) := by
    simp only [List.mem_cons, List.not_mem_nil, or_false, forall_eq_or_imp, forall_eq]
    exact ⟨⟨Declaration.isIdentifier_ne_nil isResult, fun c member =>
        Character.isDottedPart_of_isNamePart (inResult c member)⟩,
      ⟨Declaration.isIdentifier_ne_nil isName, fun c member =>
        Character.isDottedPart_of_isNamePart (inName c member)⟩⟩
  have noQualifier : (near result).text ∉ Matcher.qualifiers := fun member =>
    Declaration.not_mem_keywords isResult
      (Declaration.mem_keywords_of_mem_modifiers (List.mem_append_right _ member))
  have final : ∀ u, ∀ last ∈ (rowLexemes result [name]).getLast?,
      Lexeme.IsMark last ∨ Stops isNamePart (gap ++ '(' :: u) := by
    rintro u _ -
    cases gap with
    | nil => exact Or.inr (Matcher.stops_cons.mpr (by decide))
    | cons d gap => exact Or.inr (Character.not_isNamePart_of_isBlank (blank d List.mem_cons_self))
  obtain ⟨gap₁, lead, r, rfl, blank₁, -, stops₁, ⟨gap₂, _, rfl, blank₂, some₂, rfl⟩, -,
    readsLead⟩ :=
    Lexeme.exists_lead_before Lexeme.areDistinct_qualifiers areQualifiers noQualifier
      (isSound_rowLexemes kinds) spelled (final (arguments ++ ')' :: (gap' ++ [last])))
  have declared : Lexeme.IsResult (TypeTree.named result) := Or.inl (by
    simp [TypeTree.isDeclared, TypeTree.named, TypeTree.areSpellable,
      isDottedName_of_isIdentifier isResult])
  have visible := Lexeme.isVisible_of_kind (Or.inl (kinds result (by simp)))
  have inType : Spelled (TypeTree.named result).lexemes result := by
    have lexemes : (TypeTree.named result).lexemes = [near result] := by
      rw [TypeTree.named, TypeTree.lexemes,
        Declaration.nameLexemes_of_isDottedName (isDottedName_of_isIdentifier isResult)]
      rfl
    rw [lexemes]
    exact Lexeme.spelled_singleton.mpr ⟨[], rfl, Text.blank_nil, by simp⟩
  have noAngle : ∀ r, (result ++ r).head? ≠ some '<' := by
    intro r head
    obtain ⟨d, w, text⟩ := List.exists_cons_of_ne_nil (Declaration.isIdentifier_ne_nil isResult)
    rw [text] at head
    have part := inResult d (by simp [text])
    rw [Option.some.inj head] at part
    exact absurd part (by decide)
  have noThrown : ∀ thrown ∈ ([] : List Text), Declaration.isDottedName thrown = true := by simp
  have noClause : Spelled (Lexeme.throwsLexemes []) [] := rfl
  obtain ⟨parts, later, reads, -⟩ := Lexeme.reads_declarator_of_undivided declared
    (Declaration.isIdentifier_ne_nil isName) inName noThrown ends inType
    (by simpa using Lexeme.stops_of_visible visible []) blank₂
      (some₂ rfl) blank undivided noClause blank'
    (lead.reverse ++ (gap₁.reverse ++ []))
  have shape :
      (gap₁ ++ (lead ++ ((near result).text ++ (gap₂ ++ ((behindBlank name).text ++ []))))) ++
        gap ++
      '(' :: (arguments ++ ')' :: (gap' ++ [last])) =
      gap₁ ++ (lead ++
        (result ++ (gap₂ ++
          (name ++ (gap ++ '(' :: (arguments ++ ')' :: (gap' ++ [last]))))))) := by
    simp
  simp only [Lexeme.near_text, Lexeme.behindBlank_text, List.append_nil,
    List.append_assoc] at stops₁ readsLead
  refine ⟨parts, later, ?_⟩
  rw [shape, Lexeme.signatureShape_eq]
  refine (Reads.of_eq_cons rfl : Reads Matcher.textStart _ () _).bind ?_
  refine (Reads.of_eq_cons (Matcher.run_append blank₁ stops₁ _)).bind ?_
  refine (readsLead _).bind ?_
  refine (Reads.of_eq_cons
    (Matcher.maybe_of_nil (Matcher.bind_of_nil (Matcher.char_of_ne (noAngle _))))).bind ?_
  exact reads

/-- An area that is, with the keywords of visibility and some of the words `final`
taken out, qualifiers, a row of words, and arguments. -/
structure IsBareRow (area s gap arguments gap' : Text) (last : Char) (quals : List Text) (w : Text)
    (ws : List Text) : Prop where
  bare : bareArea area = (s ++ gap) ++ '(' :: (arguments ++ ')' :: (gap' ++ [last]))
  areQualifiers : ∀ x ∈ quals, x ∈ Matcher.qualifiers
  spelled : Spelled (led quals (rowLexemes w ws)) s
  blank : Blank gap
  undivided : Text.Undivided arguments
  blank' : Blank gap'
  ends : last = '\x7b' ∨ last = ';'
  dotted : ∀ c ∈ s ++ gap, isDottedPart c = true ∨ isBlank c = true
  words : Text.words (s ++ gap) = quals ++ w :: ws

/-- A row of words with modifiers in front of it and arguments behind it. -/
theorem exists_bareRow {modifiers ws : List Text} {w : Text}
    (areModifiers : ∀ x ∈ modifiers, x ∈ Declaration.modifiers)
    (single : (modifiers.filter Visibility.keywords.contains).length ≤ 1)
    (kept : ∀ x ∈ w :: ws, IsKept x) {heading arguments gap : Text} {last : Char}
    (spelled : Spelled (freeFirst ((modifiers ++ w :: ws).map behindBlank) ++ [near ['(']])
      (heading ++ ['(']))
    (undivided : Text.Undivided arguments) (blank : Blank gap) (ends : last = '\x7b' ∨ last = ';') :
    ∃ s gap₁ arguments' gap₂ quals, (∀ x ∈ quals, x ∈ modifiers) ∧
      IsBareRow (heading ++ '(' :: (arguments ++ ')' :: (gap ++ [last]))) s gap₁ arguments' gap₂
        last quals w ws := by
  rw [← led_rowLexemes] at spelled
  obtain ⟨quals, s, gap₁, fromModifiers, bare, inLed, blank₁⟩ :=
    exists_bare_row areModifiers single kept spelled
  have areQualifiers : ∀ x ∈ quals, x ∈ Matcher.qualifiers :=
    fun x member => (fromModifiers x member).2
  obtain ⟨arguments', gap₂, whole, inArguments, blank₂⟩ :=
    exists_bareArea heading arguments blank ends
  have words : ∀ x ∈ quals ++ w :: ws, x ≠ [] ∧ ∀ c ∈ x, isDottedPart c = true := by
    have fromQualifiers : ∀ x ∈ Matcher.qualifiers, x ≠ [] ∧ ∀ c ∈ x, isDottedPart c = true := by
      decide
    exact List.forall_mem_append.mpr ⟨fun x member => fromQualifiers x (areQualifiers x member),
      fun x member => (kept x member).word⟩
  rw [led_rowLexemes] at inLed
  have dotted : ∀ c ∈ s, isDottedPart c = true ∨ isBlank c = true := by
    refine inLed.forall_mem (P := fun c => isDottedPart c = true ∨ isBlank c = true)
      (fun c => Or.inr) ?_
    intro l member c inText
    obtain ⟨x, inWords, rfl⟩ := List.mem_map.mp member
    exact Or.inl ((words x inWords).2 c inText)
  refine ⟨s, gap₁, arguments', gap₂, quals, fun x member => (fromModifiers x member).1,
    ⟨by rw [whole, bare], areQualifiers, by rwa [led_rowLexemes], blank₁, ?_, blank₂, ends,
      List.forall_mem_append.mpr ⟨dotted, fun c member => Or.inr (blank₁ c member)⟩, ?_⟩⟩
  · intro c member
    rcases inArguments c member with rfl | inside
    · decide
    · exact undivided c inside
  · rw [Text.words_append_right blank₁]
    exact words_of_spelled (fun x member => ⟨(words x member).1, fun c inText =>
      Character.not_isBlank_of_isDottedPart ((words x member).2 c inText)⟩) inLed

theorem ofArea?_eq_none_of_row {area s gap arguments gap' : Text} {last : Char} {w : Text}
    {ws : List Text} (row : IsBareRow area s gap arguments gap' last [] w ws)
    (refused : ∀ quals result name, (∀ x ∈ quals, x ∈ Matcher.qualifiers) →
      (∀ c ∈ name, isNamePart c = true) → w :: ws = quals ++ [result, name] →
      result ∈ reserved ∨ name ∈ reserved) :
    ofArea? area = none := by
  apply ofArea?_eq_none_of_words row.bare row.dotted
  intro quals result name areQualifiers inName words
  exact refused quals result name areQualifiers inName (row.words.symm.trans words)

/-- Qualifiers, a result type and a name in front of arguments are read as a
signature. -/
theorem heads_of_row {area s gap arguments gap' : Text} {last : Char} {quals : List Text}
    {result name : Text} (row : IsBareRow area s gap arguments gap' last quals result [name])
    (isResult : isIdentifier result = true) (isName : isIdentifier name = true) :
    (ofArea? area).map heads = some (result, name) := by
  obtain ⟨parts, later, reads⟩ :=
    reads_row row.areQualifiers isResult isName row.spelled row.blank row.undivided
      row.blank' row.ends
  rw [← row.bare] at reads
  obtain ⟨quals', result', name', -, -, words, found⟩ :=
    heads_of_read? row.bare row.dotted (Matcher.read?_of_reads reads)
  have free : ∀ {w : Text}, isIdentifier w = true → w ∉ reserved := fun identifier member =>
    Declaration.not_mem_keywords identifier (List.mem_append_left _ (List.mem_append_left _ member))
  obtain ⟨-, heads⟩ := List.append_inj' (row.words.symm.trans words) rfl
  obtain ⟨rfl, rest⟩ := List.cons.inj heads
  obtain ⟨rfl, -⟩ := List.cons.inj rest
  rw [found, if_neg (not_or.mpr ⟨free isResult, free isName⟩)]

end Signature

/-! ## The forms -/

/-- What begins a statement or a header, up to its first parenthesis. -/
inductive StatementForm where
  /-- A call by a dotted path. -/
  | call (path : Text)
  /-- A call behind a keyword. -/
  | keywordCall (word path : Text)
  /-- An object that is made behind a keyword. -/
  | keywordCreation (word type : Text)
  | creation (type : Text)
  /-- A call whose result goes to what the equals sign has on its left: a
  variable, perhaps with its type. -/
  | assignment (left path : Text)
  /-- A control header, perhaps behind the word `else`. -/
  | control (behindElse : Bool) (word : Text)
  | record (modifiers : List Text) (name : Text)

namespace StatementForm

/-- The keywords that an expression may stand behind. -/
def expressionWords : List Text :=
  ["return".toList, "throw".toList, "assert".toList, "else".toList, "do".toList, "yield".toList]

/-- The keywords that a condition, or something like it, stands behind. -/
def controlWords : List Text :=
  ["if".toList, "while".toList, "for".toList, "switch".toList, "catch".toList,
    "synchronized".toList, "try".toList]

/-- Whether the text is a dotted path.  The words `this` and `super` may be parts
of one. -/
def isPath (t : Text) : Bool :=
  (Text.splitOn (· == '.') t).all fun part =>
    isIdentifier part || part == "this".toList || part == "super".toList

def isWellFormed : StatementForm → Bool
  | call path => isPath path
  | keywordCall word path => expressionWords.contains word && isPath path
  | keywordCreation word type => expressionWords.contains word && isPath type
  | creation type => isPath type
  | assignment left path => left.all (· != '(') && isPath path
  | control _ word => controlWords.contains word
  | record modifiers name => modifiers.all Declaration.modifiers.contains &&
      decide ((modifiers.filter Visibility.keywords.contains).length ≤ 1) && isIdentifier name

/-- The words of a row that the first one needs no blank in front of. -/
def parted (words : List Text) : List Lexeme :=
  freeFirst (words.map behindBlank)

def lexemes : StatementForm → List Lexeme
  | call path => parted [path]
  | keywordCall word path => parted [word, path]
  | keywordCreation word type => parted [word, "new".toList, type]
  | creation type => parted ["new".toList, type]
  | assignment left path => [near left, near ['='], near path]
  | control behindElse word => parted (if behindElse then ["else".toList, word] else [word])
  | record modifiers name => parted (modifiers ++ ["record".toList, name])

/-- Whether the area is the form with arguments in parentheses, which have no
parentheses, braces and semicolons in them. -/
def Written (form : StatementForm) (area : Text) : Prop :=
  ∃ heading arguments gap last, area = heading ++ '(' :: (arguments ++ ')' :: (gap ++ [last])) ∧
    Spelled (form.lexemes ++ [near ['(']]) (heading ++ ['(']) ∧
    Text.Undivided arguments ∧ Blank gap ∧
    (last = '\x7b' ∨ last = ';')

/-- The result type and the name of the method that the form is taken for. -/
def mistakenFor : StatementForm → Option (Text × Text)
  | keywordCall word path =>
      if word == "yield".toList && isIdentifier path then some (word, path) else none
  | record _ name => some ("record".toList, name)
  | _ => none

/-! ## Paths -/

theorem parts_of_isPath {path : Text} (h : isPath path = true) :
    path ≠ [] ∧ ∀ c ∈ path, isDottedPart c = true := by
  obtain ⟨first, rest, pieces, whole⟩ := Text.exists_splitOn '.' path
  rw [isPath, pieces, List.all_eq_true] at h
  have part : ∀ piece ∈ first :: rest, piece ≠ [] ∧ ∀ c ∈ piece, isNamePart c = true := by
    intro piece member
    have known := h piece member
    simp only [Bool.or_eq_true, beq_iff_eq] at known
    rcases known with (identifier | rfl) | rfl
    · exact ⟨Declaration.isIdentifier_ne_nil identifier,
        Declaration.isNamePart_of_isIdentifier identifier⟩
    · decide
    · decide
  obtain ⟨some, inFirst⟩ := part first List.mem_cons_self
  rw [whole]
  refine ⟨by simp [some], List.forall_mem_append.mpr
    ⟨fun c member => Character.isDottedPart_of_isNamePart (inFirst c member), fun c member => ?_⟩⟩
  obtain ⟨piece, inRest, member⟩ := List.mem_flatMap.mp member
  rcases List.mem_cons.mp member with rfl | inPiece
  · decide
  · exact Character.isDottedPart_of_isNamePart
      ((part piece (List.mem_cons_of_mem first inRest)).2 c inPiece)

theorem isKept_of_isPath {path : Text} (h : isPath path = true) : IsKept path := by
  have removed : ∀ w ∈ "final".toList :: Visibility.keywords, isPath w = false := by decide
  have other : path ∉ "final".toList :: Visibility.keywords := fun member => by
    rw [removed path member] at h
    cases h
  rw [List.mem_cons, not_or] at other
  exact ⟨parts_of_isPath h, other.2, other.1⟩

/-- A path without a dot is an identifier or a reserved word. -/
theorem identifier_or_reserved {path : Text} (h : isPath path = true)
    (inPath : ∀ c ∈ path, isNamePart c = true) :
    isIdentifier path = true ∨ path ∈ Signature.reserved := by
  have noDot : '.' ∉ path := fun member => absurd (inPath '.' member) (by decide)
  rw [isPath, Text.splitOn_of_not_mem noDot] at h
  simp only [List.all_cons, List.all_nil, Bool.and_true, Bool.or_eq_true, beq_iff_eq] at h
  rcases h with (identifier | rfl) | rfl
  · exact Or.inl identifier
  · exact Or.inr (by decide)
  · exact Or.inr (by decide)

/-! ## What the forms are read as -/

/-- Two words that follow qualifiers and nothing else. -/
theorem eq_of_pair {a b result name : Text} {quals : List Text}
    (same : [a, b] = quals ++ [result, name]) :
    a = result ∧ b = name := by
  obtain ⟨-, words⟩ := List.append_inj' (show [] ++ [a, b] = quals ++ [result, name] from same) rfl
  obtain ⟨rfl, rest⟩ := List.cons.inj words
  exact ⟨rfl, (List.cons.inj rest).1⟩

section

variable {heading arguments gap : Text} {last : Char} (undivided : Text.Undivided arguments)
  (blank : Blank gap) (ends : last = '\x7b' ∨ last = ';')
include undivided blank ends

/-- A row of words without modifiers. -/
theorem exists_row {w : Text} {ws : List Text} (kept : ∀ x ∈ w :: ws, IsKept x)
    (spelled : Spelled (parted (w :: ws) ++ [near ['(']]) (heading ++ ['('])) :
    ∃ s gap₁ arguments' gap₂,
      Signature.IsBareRow (heading ++ '(' :: (arguments ++ ')' :: (gap ++ [last])))
      s gap₁ arguments' gap₂ last [] w ws := by
  have noModifier : ∀ x ∈ ([] : List Text), x ∈ Declaration.modifiers := by simp
  obtain ⟨s, gap₁, arguments', gap₂, quals, subset, row⟩ := Signature.exists_bareRow noModifier
    (by simp) kept spelled undivided blank ends
  obtain rfl : quals = [] :=
    List.eq_nil_iff_forall_not_mem.mpr fun x member => absurd (subset x member) (by simp)
  exact ⟨s, gap₁, arguments', gap₂, row⟩

omit undivided in
theorem ofArea?_assignment {left path : Text} (noCall : '(' ∉ left) (isPath : isPath path = true)
    (spelled : Spelled ([near left, near ['='], near path] ++ [near ['(']]) (heading ++ ['('])) :
    Signature.ofArea? (heading ++ '(' :: (arguments ++ ')' :: (gap ++ [last]))) = none := by
  obtain ⟨gap₁, _, same, blank₁, -, gap₂, _, rfl, blank₂, -, gap₃, _, rfl, blank₃, -, gap₄, _, rfl,
    blank₄, -, rfl⟩ :=
    spelled
  have cut : heading = (gap₁ ++ (left ++ gap₂)) ++ '=' :: (gap₃ ++ (path ++ gap₄)) :=
    List.append_cancel_right (same.trans (by simp))
  have free : ∀ {gap : Text}, Blank gap → '(' ∉ gap ∧ '>' ∉ gap := fun blank =>
    ⟨fun member => absurd (blank _ member) (by decide),
      fun member => absurd (blank _ member) (by decide)⟩
  have inPath := (parts_of_isPath isPath).2
  have noParenthesis : '(' ∉ gap₃ ++ (path ++ gap₄) := by
    simp only [List.mem_append, not_or]
    exact ⟨(free blank₃).1, fun member => absurd (inPath _ member) (by decide), (free blank₄).1⟩
  have noBracket : '>' ∉ gap₃ ++ (path ++ gap₄) := by
    simp only [List.mem_append, not_or]
    exact ⟨(free blank₃).2, fun member => absurd (inPath _ member) (by decide), (free blank₄).2⟩
  have noCall' : '(' ∉ gap₁ ++ (left ++ gap₂) := by
    simp only [List.mem_append, not_or]
    exact ⟨(free blank₁).1, noCall, (free blank₂).1⟩
  obtain ⟨a, b, bare, inA, inB⟩ := Signature.exists_bareArea_cut (d := '=') (by decide) (by decide)
    (gap₁ ++ (left ++ gap₂)) (gap₃ ++ (path ++ gap₄))
  obtain ⟨arguments', gap', whole, -, -⟩ := Signature.exists_bareArea heading arguments blank ends
  have inFront : '(' ∉ a ∧ '(' ∉ b ∧ '>' ∉ b :=
    ⟨fun member => (inA _ member).elim (by decide) noCall',
      fun member => (inB _ member).elim (by decide) noParenthesis,
      fun member => (inB _ member).elim (by decide) noBracket⟩
  have dead : Matcher.signatureShape
      ⟨[], Signature.bareArea (heading ++ '(' :: (arguments ++ ')' :: (gap ++ [last])))⟩ = [] := by
    apply Matcher.takes_signatureShape.eq_nil
    rintro _ more shape ⟨lead, between, name, between', rest, rfl, part, blankB, -, inName, blankB'⟩
    have noName := Signature.not_mem_named blankB inName blankB' (d := '(') (by decide) (by decide)
    have whole' : (a ++ '=' :: b) ++ '(' :: (arguments' ++ ')' :: (gap' ++ [last])) =
        (lead ++ (between ++ (name ++ between'))) ++ '(' :: (rest ++ more) := by
      rw [← bare, ← cut, ← whole, shape]
      simp
    have fronts : a ++ '=' :: b = lead ++ (between ++ (name ++ between')) :=
      Signature.eq_of_absent (by simp [inFront.1, inFront.2.1])
        (fun member => (List.mem_append.mp member).elim part.absent noName) whole'
    have opened : a ++ '=' :: (b ++ ['(']) =
        lead ++ (between ++ (name ++ between')) ++ '(' :: [] := by
      rw [← fronts]
      simp
    exact Signature.not_signature_of_assignment part blankB inName blankB' inFront.1
      (by simp [inFront.2.2]) opened
  rw [Signature.ofArea?, Matcher.read?, Place.start, dead]
  rfl

end

/-- The words that stand in front of paths. -/
def leadingWords : List Text :=
  "new".toList :: "else".toList :: "record".toList :: (expressionWords ++ controlWords)

theorem isKept_of_leading {w : Text} (member : w ∈ leadingWords) : IsKept w := by
  have known : ∀ w ∈ leadingWords, (w ≠ [] ∧ ∀ c ∈ w, isDottedPart c = true) ∧
      w ∉ Visibility.keywords ∧
      w ≠ "final".toList := by decide
  obtain ⟨word, notVisibility, notFinal⟩ := known w member
  exact ⟨word, notVisibility, notFinal⟩

theorem isKept_of_isIdentifier {w : Text} (h : isIdentifier w = true) : IsKept w := by
  have other : w ∉ Declaration.modifiers := fun member =>
    Declaration.not_mem_keywords h (Declaration.mem_keywords_of_mem_modifiers member)
  refine ⟨⟨Declaration.isIdentifier_ne_nil h, fun c member =>
    Character.isDottedPart_of_isNamePart (Declaration.isNamePart_of_isIdentifier h c member)⟩,
    fun member => other (List.mem_append_left _ member), ?_⟩
  rintro rfl
  exact other (by decide)

/-- An area of one of the forms is taken for a method just if it is a call
behind `yield` or the header of a record. -/
theorem signature_of_written {form : StatementForm} (h : form.isWellFormed = true) {area : Text}
    (written : form.Written area) :
    (Signature.ofArea? area).map Signature.heads = form.mistakenFor := by
  obtain ⟨heading, arguments, gap, last, rfl, spelled, undivided, blank, ends⟩ := written
  have none_of : ∀ {w ws}, (∀ x ∈ w :: ws, IsKept x) →
      Spelled (parted (w :: ws) ++ [near ['(']]) (heading ++ ['(']) →
      (∀ quals result name, (∀ x ∈ quals, x ∈ Matcher.qualifiers) →
        (∀ c ∈ name, isNamePart c = true) →
        w :: ws = quals ++ [result, name] →
        result ∈ Signature.reserved ∨ name ∈ Signature.reserved) →
      (Signature.ofArea? (heading ++ '(' :: (arguments ++ ')' :: (gap ++ [last])))).map
        Signature.heads = none := by
    intro w ws kept spelled refused
    obtain ⟨s, gap₁, arguments', gap₂, row⟩ := exists_row undivided blank ends kept spelled
    rw [Signature.ofArea?_eq_none_of_row row refused]
    rfl
  have leading := fun w member => isKept_of_leading (w := w) member
  simp only [leadingWords, List.forall_mem_cons, List.forall_mem_append] at leading
  obtain ⟨keptNew, keptElse, keptRecord, keptExpression, keptControl⟩ := leading
  cases form with
  | call path =>
      refine none_of (by simpa using isKept_of_isPath h) spelled fun quals result name _ _ same =>
        ?_
      have lengths := congrArg List.length same
      simp at lengths
  | keywordCall word path =>
      simp only [isWellFormed, Bool.and_eq_true, List.contains_iff_mem] at h
      obtain ⟨isExpression, isPath⟩ := h
      have kept : ∀ x ∈ [word, path], IsKept x := by
        simpa using ⟨keptExpression word isExpression, isKept_of_isPath isPath⟩
      have allButYield : ∀ w ∈ expressionWords, w = "yield".toList ∨ w ∈ Signature.reserved := by
        decide
      by_cases isMistaken : word = "yield".toList ∧ isIdentifier path = true
      · obtain ⟨rfl, isIdentifier⟩ := isMistaken
        obtain ⟨s, gap₁, arguments', gap₂, row⟩ := exists_row undivided blank ends kept spelled
        rw [Signature.heads_of_row row (by decide) isIdentifier, mistakenFor]
        simp [isIdentifier]
      · have refused : mistakenFor (keywordCall word path) = none := by
          simpa [mistakenFor] using isMistaken
        rw [refused]
        refine none_of kept spelled fun quals result name _ inName same => ?_
        obtain ⟨rfl, rfl⟩ := eq_of_pair same
        rcases allButYield word isExpression with rfl | isReserved
        · exact Or.inr ((identifier_or_reserved isPath inName).resolve_left fun identifier =>
            isMistaken ⟨rfl, identifier⟩)
        · exact Or.inl isReserved
  | keywordCreation word type =>
      simp only [isWellFormed, Bool.and_eq_true, List.contains_iff_mem] at h
      obtain ⟨isExpression, isPath⟩ := h
      have noQualifier : ∀ w ∈ expressionWords, w ∉ Matcher.qualifiers := by decide
      refine none_of
        (by simpa using ⟨keptExpression word isExpression, keptNew, isKept_of_isPath isPath⟩)
          spelled
        fun quals result name areQualifiers _ same => ?_
      -- the keyword would have to be a qualifier
      obtain ⟨rfl, -⟩ :=
        List.append_inj' (show [word] ++ ["new".toList, type] = quals ++ [result, name] from same)
          rfl
      exact absurd (areQualifiers word List.mem_cons_self) (noQualifier word isExpression)
  | creation type =>
      refine none_of (by simpa using ⟨keptNew, isKept_of_isPath h⟩) spelled
        fun quals result name _ _ same => ?_
      obtain ⟨rfl, -⟩ := eq_of_pair same
      exact Or.inl (by decide)
  | assignment left path =>
      simp only [isWellFormed, Bool.and_eq_true, List.all_eq_true, bne_iff_ne] at h
      rw [ofArea?_assignment blank ends (fun member => h.1 _ member rfl) h.2 spelled]
      rfl
  | control behindElse word =>
      have isControl : word ∈ controlWords := List.contains_iff_mem.mp h
      cases behindElse with
      | false =>
          refine none_of (by simpa using keptControl word isControl) spelled
            fun quals result name _ _ same => ?_
          have lengths := congrArg List.length same
          simp at lengths
      | true =>
          refine none_of (by simpa using ⟨keptElse, keptControl word isControl⟩) spelled
            fun quals result name _ _ same => ?_
          obtain ⟨rfl, -⟩ := eq_of_pair same
          exact Or.inl (by decide)
  | record modifiers name =>
      simp only [isWellFormed, Bool.and_eq_true, List.all_eq_true, List.contains_iff_mem,
        decide_eq_true_eq] at h
      obtain ⟨⟨areModifiers, single⟩, isName⟩ := h
      obtain ⟨s, gap₁, arguments', gap₂, quals, -, row⟩ :=
        Signature.exists_bareRow areModifiers single
        (by simpa using ⟨keptRecord, isKept_of_isIdentifier isName⟩) spelled undivided blank ends
      exact Signature.heads_of_row row (by decide) isName

/-- The header of a nested record, with modifiers in front. -/
theorem signature_of_point :
    let form := record ["public".toList, "static".toList] "Point".toList
    let area := "public static record Point(int x, int y) \x7b".toList
    form.isWellFormed = true ∧ form.Written area ∧
      (Signature.ofArea? area).map Signature.heads = some ("record".toList, "Point".toList) := by
  intro form area
  have wellFormed : form.isWellFormed = true := by decide +kernel
  have written : form.Written area :=
    ⟨"public static record Point".toList, "int x, int y".toList, " ".toList, '\x7b', rfl,
      Lexeme.spelled_print (form.lexemes ++ [near ['(']]), by decide, by decide, Or.inl rfl⟩
  exact ⟨wellFormed, written, signature_of_written wellFormed written⟩

/-- Neither of these areas declares a method. -/
theorem signature_of_no_method :
    (Signature.ofArea? "yield f(x);".toList).map Signature.heads =
      some ("yield".toList, "f".toList) ∧
      (Signature.ofArea? "record Point(int x, int y) \x7b".toList).map Signature.heads =
        some ("record".toList, "Point".toList) := by
  decide +kernel

end StatementForm
end Testwright
