import Testwright.Proofs.Convention.ClassHeader
import Testwright.Proofs.Convention.Rewriting
import Testwright.Proofs.Header.Opening

namespace Testwright

/-!
# The header that gets its base class

On the way to the legacy convention the clause `extends TestCase` goes behind the name of
the class and its type parameters, and what is done to the source after that, lines without
their marks and imports put in and taken out, leaves the header as it is
(`infix_unmarkLines`, `Header.OpensBody`).  The type parameters are read up to the first
bracket that closes, so the clause stands behind all of them exactly if no brackets nest in
them (`convert_extends_header`).
-/

open Character (isBlank isNamePart)
open Header (OpensBody isSpaceOrTab)
open Matcher (AreClauses IsClassHeading Stops classHeader markedLine voidLine)
open Text (Blank)

namespace Text

/-- No mark is in front of the first opening brace, and no parenthesis. -/
def Uncalled (t : Text) : Prop :=
  ∀ u c v, t = u ++ c :: v → c = '@' ∨ c = '(' → '\x7b' ∈ u

theorem Uncalled.left {s t : Text} (h : Uncalled (s ++ t)) : Uncalled s :=
  fun u c v cut mark => h u c (v ++ t) (by rw [cut]; simp) mark

theorem uncalled_of_not_mem {t : Text} (noMark : '@' ∉ t) (noParenthesis : '(' ∉ t) :
    Uncalled t := by
  rintro u c v rfl (rfl | rfl)
  · exact absurd (by simp) noMark
  · exact absurd (by simp) noParenthesis

theorem uncalled_of_brace {t : Text} (noMark : '@' ∉ t) (noParenthesis : '(' ∉ t) (rest : Text) :
    Uncalled (t ++ '\x7b' :: rest) := by
  intro u c v cut mark
  have absent : c ∉ t := by rcases mark with rfl | rfl <;> assumption
  rcases exists_behind absent cut with ⟨y, rfl, brace⟩
  cases y with
  | nil =>
      rcases (List.cons.inj brace).1 with rfl
      exact absurd mark (by decide)
  | cons d y =>
      rcases (List.cons.inj brace).1 with rfl
      simp

/-- A piece of a text without marks and parenthesis that goes on to an opening brace. -/
theorem IsLinePiece.uncalled {body s : Text} (piece : IsLinePiece body '\x7b' s)
    (noMark : '@' ∉ body) (noParenthesis : '(' ∉ body) : Uncalled s := by
  rcases piece with inBody | ⟨back, rest, isBack, rfl⟩
  · exact uncalled_of_not_mem (fun member => noMark (inBody.subset member))
      fun member => noParenthesis (inBody.subset member)
  · exact uncalled_of_brace (fun member => noMark (isBack.subset member))
      (fun member => noParenthesis (isBack.subset member)) rest

/-- Behind the last mark of the text a line feed stands. -/
def EndsUnmarked (t : Text) : Prop :=
  ∀ u v, t = u ++ '@' :: v → '\n' ∈ v

theorem EndsUnmarked.right {s t : Text} (h : EndsUnmarked (s ++ t)) : EndsUnmarked t :=
  fun u v cut => h (s ++ u) v (by rw [cut, List.append_assoc])

end Text

open Text (EndsUnmarked Uncalled)

namespace Convention

/-! ## Lines without their marks -/

section Line

variable {x s : Text} (uncalled : Uncalled s)
include uncalled

theorem read?_markedLine_eq_none (noMark : '@' ∉ x) : markedLine.read? (x ++ s) = none := by
  refine Option.eq_none_iff_forall_not_mem.mpr fun marked read => ?_
  rcases MarkedLine.exists_of_read? read with ⟨u, whole, spaces, -⟩
  rcases Text.exists_behind noMark whole with ⟨y, indent, rest⟩
  have brace := uncalled y '@' _ rest (.inl rfl)
  exact absurd (spaces '\x7b' (by rw [indent]; simp [brace])) (by decide)

/-- The name of a declared method stands in front of a parenthesis, so only what is in
front of the parenthesis changes with it. -/
theorem exists_prefixedLine {declared : VoidLine} (read : voidLine.read? (x ++ s) = some declared)
    (legacyPrefix : Text) : x ≠ [] ∧ ∃ x', prefixedLine legacyPrefix declared = x' ++ s := by
  rcases VoidLine.isFormed_of_read? read with ⟨whole, formed⟩
  rcases formed.rest with ⟨gap, r, rest, blank, -⟩
  have parts : ∀ c ∈ declared.indent ++ (declared.lead ++ (declared.name ++ gap)),
      isNamePart c = true ∨ isBlank c = true := by
    simp only [List.forall_mem_append]
    exact ⟨fun c member => .inr (Header.isBlank_of_isSpaceOrTab (formed.indent c member)),
      formed.lead.isNamePart_or_isBlank Matcher.areDistinct_methodModifiers.keywords (by decide),
      fun c member => .inl (formed.name c member), fun c member => .inr (blank c member)⟩
  have noParenthesis := VoidLine.IsFormed.parenthesis_not_mem parts
  have cut : x ++ s = declared.indent ++ (declared.lead ++ (declared.name ++ gap)) ++ '(' :: r := by
    rw [whole, VoidLine.text, rest]
    simp
  by_cases inFront : '(' ∈ x
  · refine ⟨List.ne_nil_of_mem inFront, ?_⟩
    rcases List.eq_append_cons_of_mem inFront with ⟨a, b, rfl, first⟩
    rw [List.append_assoc, List.cons_append] at cut
    rcases Text.eq_of_cut first noParenthesis cut with ⟨-, rfl⟩
    exact ⟨declared.indent ++ declared.lead ++
      (if (Text.dropStart? legacyPrefix declared.name).isSome then [] else legacyPrefix) ++
        declared.name ++
        gap ++ '(' :: b, by rw [prefixedLine, rest]; simp⟩
  · rcases Text.exists_behind inFront cut with ⟨y, front, behind⟩
    have brace := uncalled y '(' r behind (.inr rfl)
    have inParts := parts '\x7b' (by rw [front]; simp [brace])
    exact absurd inParts (by decide)

theorem isPlain_of_uncalled (ending : Text) : IsPlain ⟨s, ending⟩ := by
  have unmarked : markedLine.read? ([] ++ s) = none :=
    read?_markedLine_eq_none uncalled List.not_mem_nil
  have undeclared : voidLine.read? ([] ++ s) = none :=
    Option.eq_none_iff_forall_not_mem.mpr fun declared read =>
      (exists_prefixedLine uncalled read []).1 rfl
  rw [List.nil_append] at unmarked undeclared
  exact ⟨unmarked, undeclared⟩

/-- Of a line without a mark in front, only the front changes. -/
theorem exists_unmarkLine (noMark : '@' ∉ x) (legacyPrefix : Text) (waiting : Bool)
    (ending : Text) :
    ∃ x', unmarkLine legacyPrefix waiting ⟨x ++ s, ending⟩ = x' ++ (s ++ ending) := by
  have unmarked := read?_markedLine_eq_none uncalled noMark
  cases waiting with
  | false => exact ⟨x, by simp [unmarkLine, unmarked, Line.text]⟩
  | true =>
      cases read : voidLine.read? (x ++ s) with
      | none => exact ⟨x, by simp [unmarkLine, unmarked, read, Line.text]⟩
      | some declared =>
          rcases exists_prefixedLine uncalled read legacyPrefix with ⟨-, x', renamed⟩
          exact ⟨x', by rw [unmarkLine_of_declared unmarked read, renamed, List.append_assoc]⟩

end Line

/-- What is visible in a line is in its content. -/
theorem exists_content {line : Line} (ended : Blank line.ending) {x s : Text} {c : Char}
    (whole : line.text = x ++ c :: s) (visible : isBlank c = false) :
    ∃ s', line.content = x ++ s' ∧ c :: s = s' ++ line.ending := by
  rcases List.append_eq_append_iff.mp
    (show line.content ++ line.ending = x ++ c :: s from whole) with
    ⟨k, -, inEnding⟩ | ⟨s', content, rest⟩
  · rw [ended c (by rw [inEnding]; simp)] at visible
    cases visible
  · exact ⟨s', content, rest⟩

/-- The header of a class stays where no mark is in front of it on its line. -/
theorem infix_unmarkLines {head : Text} (h : OpensBody head) (noMark : '@' ∉ head)
    (noParenthesis : '(' ∉ head) {x y : Text} (unmarked : EndsUnmarked x) (legacyPrefix : Text) :
    head ++ ['\x7b'] <:+:
      unmarkLines legacyPrefix false (Line.ofText (x ++ (head ++ '\x7b' :: y))) := by
  rcases h.visible with ⟨c, r, rfl, visible⟩
  rcases Line.exists_span (Line.texts_ofText (x ++ (c :: r ++ '\x7b' :: y))) with
    ⟨upper, line, spanned, lower, x', s, whole, rfl, here, piece, pieces, y', held⟩
  have inLines : ∀ other ∈ upper ++ (line :: (spanned ++ lower)),
      '\n' ∉ other.content ∧ Blank other.ending := by
    rw [← whole]
    exact fun other member =>
      ⟨(Line.isCut_of_mem_ofText _ other member).1, Line.blank_ending_of_mem_ofText member⟩
  rcases inLines line (by simp) with ⟨noFeed, ended⟩
  rcases exists_content ended here visible with ⟨s', content, rest⟩
  have noMark' : '@' ∉ x' := by
    intro member
    rcases List.append_of_mem member with ⟨u, v, rfl⟩
    exact noFeed (by rw [content]; simp [unmarked.right u v rfl])
  have uncalled : Uncalled s' := (rest ▸ piece.uncalled noMark noParenthesis).left
  have plain : ∀ other ∈ spanned, IsPlain other := fun other member =>
    isPlain_of_uncalled (pieces other member |>.uncalled noMark noParenthesis).left other.ending
  rw [whole, unmarkLines_append, unmarkLines_cons, unmarkLines_append, unmarkLines_of_plain plain]
  set waiting := waitsBehind false upper
  rcases exists_unmarkLine uncalled noMark' legacyPrefix waiting line.ending with ⟨x'', changed⟩
  have changed' : unmarkLine legacyPrefix waiting line = x'' ++ c :: s := by
    rw [rest, ← changed, ← content]
  rw [changed', ← List.append_assoc _ (Line.texts spanned), List.append_assoc x'', held]
  exact ⟨unmarkLines legacyPrefix false upper ++ x'',
    y' ++ unmarkLines legacyPrefix (waitsBehind (waitsBehind waiting [line]) spanned) lower,
    by simp⟩

end Convention

/-! ## Type parameters -/

namespace Text

/-- Texts whose angle brackets match. -/
inductive Bracketed : Text → Prop
  | nil : Bracketed []
  | other {c : Char} {t : Text} : c ≠ '<' → c ≠ '>' → Bracketed t → Bracketed (c :: t)
  | nested {inner t : Text} : Bracketed inner → Bracketed t → Bracketed ('<' :: (inner ++ '>' :: t))

theorem Bracketed.mem_iff {t : Text} (h : Bracketed t) : '>' ∈ t ↔ '<' ∈ t := by
  induction h with
  | nil => simp
  | other notOpen notClose _ ih => simp [Ne.symm notOpen, Ne.symm notClose, ih]
  | nested _ _ _ _ => simp

theorem bracketed_of_not_mem {t : Text} (noOpening : '<' ∉ t) (noClosing : '>' ∉ t) :
    Bracketed t := by
  induction t with
  | nil => exact .nil
  | cons c t ih =>
      rw [List.mem_cons, not_or] at noOpening noClosing
      exact .other (Ne.symm noOpening.1) (Ne.symm noClosing.1) (ih noOpening.2 noClosing.2)

/-- The type parameters behind the name of a class, or nothing. -/
def AreTypeParameters (params : Text) : Prop :=
  params = [] ∨ ∃ gap inner, params = gap ++ '<' :: (inner ++ ['>']) ∧ Blank gap ∧ Bracketed inner

end Text

namespace Matcher

open Text (AreTypeParameters)

theorem IsClassHeading.eq_of_append {s s' t t' : Text} (h : IsClassHeading s)
    (h' : IsClassHeading s') (stops : Stops isNamePart t) (stops' : Stops isNamePart t')
    (same : s ++ t = s' ++ t') : s = s' ∧ t = t' := by
  have read := reads_classHeading h stops []
  rw [same] at read
  have places :=
    (Prod.mk.inj (Option.some.inj (read.symm.trans (reads_classHeading h' stops' [])))).2
  rcases (Place.mk.inj places).2 with rfl
  exact ⟨List.append_cancel_right same, rfl⟩

/-- Of type parameters the declaration has those up to the first bracket that closes; these
are all exactly if no brackets nest. -/
theorem AreClauses.exists_back {angles rest params clauses : Text} (parted : AreClauses angles rest)
    (typed : AreTypeParameters params)
    (closed : params = [] → ∀ gap t, Blank gap → clauses ≠ gap ++ '<' :: t)
    (same : angles ++ rest = params ++ clauses) :
    ∃ back, params = angles ++ back ∧ rest = back ++ clauses ∧
      (∀ a b, params = a ++ '>' :: b → '>' ∉ a → back = b) ∧
      (back = [] ↔ params.count '<' ≤ 1) := by
  rcases typed with rfl | ⟨gap, inner, rfl, blank, bracketed⟩
  · rcases parted with ⟨gap, inner, rfl, blank, -⟩ | ⟨rfl, -⟩
    · exact absurd same.symm (by simpa using closed rfl gap (inner ++ '>' :: rest) blank)
    · exact ⟨[], rfl, same, by simp, by simp⟩
  · have noBracket : ∀ {blanks : Text}, Blank blanks → '<' ∉ blanks := fun blank member =>
      absurd (blank '<' member) (by decide)
    have nests : '>' ∈ inner ↔ ¬ (gap ++ '<' :: (inner ++ ['>'])).count '<' ≤ 1 := by
      have counted : (gap ++ '<' :: (inner ++ ['>'])).count '<' = inner.count '<' + 1 := by
        simp [List.count_eq_zero_of_not_mem (noBracket blank)]
      rw [bracketed.mem_iff, counted, ← List.count_pos_iff]
      omega
    rcases parted with ⟨gap', inner', rfl, blank', unclosed⟩ | ⟨rfl, none⟩
    · have cut : gap' ++ '<' :: (inner' ++ '>' :: rest) =
          gap ++ '<' :: (inner ++ '>' :: clauses) := by
        simpa using same
      rcases Text.eq_of_cut (noBracket blank') (noBracket blank) cut with ⟨rfl, inside⟩
      have noClosing : '>' ∉ gap' := fun member => absurd (blank' _ member) (by decide)
      have first : '>' ∉ gap' ++ '<' :: inner' := by simp [unclosed, noClosing]
      have behindFirst : ∀ back a b, gap' ++ '<' :: inner' ++ '>' :: back = a ++ '>' :: b →
          '>' ∉ a → back = b :=
        fun back a b same' absent => (Text.eq_of_cut first absent same').2
      rcases Text.exists_behind unclosed inside with ⟨y, rfl, behind⟩
      cases y with
      | nil =>
          rw [List.append_nil] at nests ⊢
          exact ⟨[], by simp, (List.cons.inj behind).2, by simpa using behindFirst [],
            by simpa using (not_congr nests).mp unclosed⟩
      | cons d y =>
          rcases List.cons.inj behind with ⟨rfl, rfl⟩
          exact ⟨y ++ ['>'], by simp, by simp, by simpa using behindFirst (y ++ ['>']),
            iff_of_false (by simp) (nests.mp (by simp))⟩
    · exact absurd same (by simpa using none gap inner clauses blank)

end Matcher

/-! ## The header of the class -/

/-- The header is a heading, type parameters nested to any depth, and clauses set off by a
blank, and has no annotations or semicolons. -/
structure ClassHeader.IsWritten (header : ClassHeader) (heading params clauses : Text) : Prop where
  whole : header.declaration.text ++ header.clauses.text = heading ++ (params ++ clauses)
  named : IsClassHeading heading
  typed : Text.AreTypeParameters params
  spaced : ∀ c, clauses.head? = some c → isBlank c = true
  closed : params = [] → ∀ gap t, Blank gap → clauses ≠ gap ++ '<' :: t
  plain : ∀ c ∈ params ++ clauses, c ≠ ';' ∧ c ≠ '@' ∧ c ≠ '('

namespace ClassHeader.IsWritten

variable {header : ClassHeader} {heading params clauses : Text}
  (h : header.IsWritten heading params clauses)
include h

theorem stops : Stops isNamePart (params ++ clauses) := by
  have unnamed : ∀ {c : Char} {t : Text}, isBlank c = true →
      Stops isNamePart (c :: t) := fun blank =>
    Matcher.stops_cons.mpr (Character.not_isNamePart_of_isBlank blank)
  rcases h.typed with rfl | ⟨gap, inner, rfl, blank, -⟩
  · cases clauses with
    | nil => exact Matcher.stops_nil isNamePart
    | cons c clauses => exact unnamed (h.spaced c rfl)
  · cases gap with
    | nil => exact Matcher.stops_cons.mpr (by decide)
    | cons c gap => exact unnamed (blank c List.mem_cons_self)

/-- The clause that is put in leaves a text that opens a body. -/
theorem opensBody {front back : Text} (parted : params = front ++ back) :
    OpensBody (heading ++ (front ++ (" extends TestCase".toList ++ (back ++ clauses)))) ∧
      '@' ∉ heading ++ (front ++ (" extends TestCase".toList ++ (back ++ clauses))) ∧
      '(' ∉ heading ++ (front ++ (" extends TestCase".toList ++ (back ++ clauses))) := by
  have plain : ∀ c ∈ heading ++ (front ++ (" extends TestCase".toList ++ (back ++ clauses))),
      c ≠ ';' ∧ c ≠ '@' ∧ c ≠ '(' := by
    intro c member
    have places : c ∈ heading ∨ c ∈ " extends TestCase".toList ∨ c ∈ params ++ clauses := by
      simp only [parted, List.mem_append] at member ⊢
      tauto
    rcases places with inHeading | inClause | inBody
    · have other : ∀ d, isNamePart d = false → isBlank d = false → c ≠ d := by
        rintro d noName visible rfl
        simpa [noName, visible] using Matcher.isNamePart_or_isBlank h.named c inHeading
      exact ⟨other _ (by decide) (by decide), other _ (by decide) (by decide),
        other _ (by decide) (by decide)⟩
    · exact (by decide : ∀ c ∈ " extends TestCase".toList, c ≠ ';' ∧ c ≠ '@' ∧ c ≠ '(') c inClause
    · exact h.plain c inBody
  refine ⟨⟨?_, fun member => (plain _ member).1 rfl⟩, fun member => (plain _ member).2.1 rfl,
    fun member => (plain _ member).2.2 rfl⟩
  rcases Matcher.exists_front h.named with ⟨c, r, rfl, letter⟩
  exact ⟨c, _, rfl, (by decide : ∀ c ∈ "pafsc".toList, isBlank c = false) c letter⟩

end ClassHeader.IsWritten

namespace Convention

/-- In a modern source whose header has no mark in front of it on its line, nothing in the
header changes but that the clause is put in.  It goes behind the name, or behind the first
bracket that closes type parameters, and this is behind all of them exactly if no brackets
nest in them. -/
theorem convert_extends_header {style : TestStyle} {target : Option ClassSurface} {source t : Text}
    (shown : ofSource? source = some modern) {header : ClassHeader}
    (first : classHeader.find? source = some header) {heading params clauses : Text}
    (written : header.IsWritten heading params clauses)
    (unmarked : EndsUnmarked header.declaration.before)
    (converted : convert style target legacy source = .ok t) :
    ∃ front back, params = front ++ back ∧ (∀ a b, params = a ++ '>' :: b → '>' ∉ a → back = b) ∧
      heading ++ front ++ " extends TestCase".toList ++ back ++ clauses ++ ['\x7b'] <:+: t ∧
      (back = [] ↔ params.count '<' ≤ 1) := by
  rcases ClassHeader.exists_of_find? first with ⟨x, parts, rest, -, -, fits, rfl⟩
  have text := written.whole
  rw [ClassHeader.Parts.header_declaration_text, ClassHeader.Parts.header_clauses_text,
    List.append_assoc] at text
  rcases fits.heading.eq_of_append written.named fits.stops written.stops text with ⟨same, body⟩
  rcases fits.clauses.exists_back written.typed written.closed body with
    ⟨back, parted, behind, isBack, nested⟩
  refine ⟨parts.angles, back, parted, isBack, ?_, nested⟩
  rcases written.opensBody parted with ⟨opens, noMark, noParenthesis⟩
  set head := heading ++
    (parts.angles ++ (" extends TestCase".toList ++ (back ++ clauses))) with isHead
  have extended : addBaseClass (parts.header x.reverse rest) =
      x ++ parts.lead ++ (head ++ '\x7b' :: rest) := by
    simp [addBaseClass, isHead, same, behind]
  rw [ClassHeader.Parts.header_declaration_before, List.reverse_reverse] at unmarked
  have inLines :=
    infix_unmarkLines opens noMark noParenthesis (y := rest) unmarked style.legacyPrefix
  rw [← extended] at inLines
  rw [convert, shown] at converted
  simp only [reduceCtorEq, if_false, toLegacy, first] at converted
  split at converted
  · cases converted
  · rw [← Except.ok.inj converted]
    have whole :
        heading ++ parts.angles ++ " extends TestCase".toList ++ back ++ clauses ++ ['\x7b'] =
        head ++ ['\x7b'] := by simp [isHead]
    have assertions : Text.trim assertionsImport =
        "import static org.junit.Assert.*".toList ++ [';'] := by decide
    have mark : Text.trim markImport = "import org.junit.Test".toList ++ [';'] := by decide
    have unimported := opens.infix_removeImport inLines assertions (by decide)
    rw [whole]
    exact opens.infix_withImports (opens.infix_dropUnused unimported mark (by decide) _)
      target legacy _

/-- A bound without arguments of its own is no hindrance. -/
theorem convert_extends_header_bounded :
    let source := "import org.junit.Test;\nclass A<T extends B> implements C \x7b\n\x7d\n".toList
    let result :=
      "import junit.framework.TestCase;\n\nclass A<T extends B> extends TestCase implements C \x7b\n\x7d\n".toList
    ofSource? source = some modern ∧ convert TestStyle.modern none legacy source = .ok result ∧
      "class A".toList ++ "<T extends B>".toList ++ " extends TestCase".toList ++
        " implements C ".toList ++
        ['\x7b'] <:+: result := by
  intro source result
  have shown : ofSource? source = some modern := by decide +kernel
  have converted : convert TestStyle.modern none legacy source = .ok result := by decide +kernel
  have found : (classHeader.find? source).any (fun header =>
      header.declaration.before == "import org.junit.Test;\n".toList &&
        header.declaration.text ++ header.clauses.text ==
          "class A<T extends B> implements C ".toList) = true := by
    decide +kernel
  refine ⟨shown, converted, ?_⟩
  rcases (Option.any_eq_true _ _).mp found with ⟨header, first, texts⟩
  simp only [Bool.and_eq_true, beq_iff_eq] at texts
  have written : header.IsWritten "class A".toList "<T extends B>".toList " implements C ".toList :=
    { whole := texts.2
      named := ⟨"class ".toList, "A".toList, rfl,
        ⟨[], [' '], rfl, ⟨[], rfl, by simp⟩, by decide, by decide⟩, by decide, by decide⟩
      typed := .inr ⟨[], "T extends B".toList, rfl, Text.blank_nil,
        Text.bracketed_of_not_mem (by decide) (by decide)⟩
      spaced := fun c begins => by
        obtain rfl : ' ' = c := Option.some.inj begins
        decide
      closed := fun none => absurd none (by decide)
      plain := by decide }
  have unmarked : EndsUnmarked header.declaration.before := by
    rw [texts.1]
    intro u v same
    exact absurd (show '@' ∈ "import org.junit.Test;\n".toList by rw [same]; simp) (by decide)
  rcases convert_extends_header shown first written unmarked converted with
    ⟨front, back, parted, -, inside, nested⟩
  rw [nested.mpr (by decide), List.append_nil] at parted inside
  rwa [← parted] at inside

/-- The arguments of a bound are cut in two. -/
theorem not_convert_extends_header_nested :
    let source := "import org.junit.Test;\nclass A<T extends B<T>> implements C \x7b\n\x7d\n".toList
    let result :=
      "import junit.framework.TestCase;\n\nclass A<T extends B<T> extends TestCase> implements C \x7b\n\x7d\n".toList
    convert TestStyle.modern none legacy source = .ok result ∧
      ¬ "class A<T extends B<T>> extends TestCase implements C \x7b".toList <:+: result := by
  intro source result
  refine ⟨by decide +kernel, ?_⟩
  rw [← Text.contains_iff]
  decide +kernel

end Convention
end Testwright
