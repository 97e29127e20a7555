import Testwright.Proofs.Declaration.Heading
import Testwright.Proofs.Declaration.TypeVariables

namespace Testwright

/-!
# Reading a signature

The shape of a signature is read part by part: qualifiers, type variables, the
result type, the name, the parameter list and the `throws` clause.  Each part is
followed by something that it cannot take, so the first reading of each is the
one that goes on to the end.
-/

namespace Lexeme

open Character (isBlank isDottedPart isNamePart)
open Declaration (isDottedName)
open Matcher (Reads Stops)
open Text (Blank)
open TypeTree (bracketLexemes)

/-! ## The result type -/

/-- A bracket pair with blanks in front of each bracket. -/
def bracketPair : Matcher Unit := do
  Matcher.run isBlank
  Matcher.char '['
  Matcher.run isBlank
  Matcher.char ']'

theorem consumes_bracketPair : Matcher.Consumes bracketPair :=
  Matcher.Consumes.bind_right (Matcher.keeps_run isBlank) fun _ =>
    (Matcher.consumes_char '[').bind_left fun _ =>
      (Matcher.keeps_run isBlank).bind fun _ => (Matcher.consumes_char ']').keeps

/-- Blanks with something else than the mark behind them. -/
def Lacks (mark : Char) (u : Text) : Prop :=
  ∃ gap r, u = gap ++ r ∧ Blank gap ∧ Stops isBlank r ∧ r.head? ≠ some mark

theorem bind_run_char_eq_nil {β : Type} {next : Unit → Matcher β} {mark : Char} {u : Text}
    (lacks : Lacks mark u) (behind : Text) :
    (Matcher.run isBlank >>= fun _ => Matcher.char mark >>= next) ⟨behind, u⟩ = [] := by
  obtain ⟨gap, r, rfl, blank, stops, other⟩ := lacks
  rw [Matcher.bind_of_single (Matcher.run_append blank stops _)]
  exact Matcher.bind_of_nil (Matcher.char_of_ne other)

theorem reads_brackets {dimensions : Nat} {b u : Text}
    (spelled : Spelled (bracketLexemes dimensions) b) (lacks : Lacks '[' u) (behind : Text) :
    Reads (Matcher.many bracketPair) ⟨behind, b ++ u⟩ () ⟨b.reverse ++ behind, u⟩ := by
  induction dimensions generalizing b behind with
  | zero =>
      cases spelled
      exact Reads.many_stop (bind_run_char_eq_nil lacks behind)
  | succ dimensions ih =>
      obtain ⟨gap, _, rfl, blank, -, gap', rest, rfl, blank', -, others⟩ := spelled
      have pair : bracketPair ⟨behind, gap ++ (['['] ++ (gap' ++ ([']'] ++ rest))) ++ u⟩ =
          [((), ⟨']' :: (gap'.reverse ++ '[' :: (gap.reverse ++ behind)), rest ++ u⟩)] := by
        have shape : gap ++ (['['] ++ (gap' ++ ([']'] ++ rest))) ++ u =
            gap ++ '[' :: (gap' ++ ']' :: (rest ++ u)) := by simp
        unfold bracketPair
        rw [shape,
          Matcher.bind_of_single (Matcher.run_append blank (Matcher.stops_cons.mpr (by decide)) _),
          Matcher.bind_of_single (Matcher.char_self _ _ _),
          Matcher.bind_of_single (Matcher.run_append blank' (Matcher.stops_cons.mpr (by decide)) _),
          Matcher.char_self]
      have goesOn := ih others (']' :: (gap'.reverse ++ '[' :: (gap.reverse ++ behind)))
      have place : (gap ++ (['['] ++ (gap' ++ ([']'] ++ rest)))).reverse ++ behind =
          rest.reverse ++ ']' :: (gap'.reverse ++ '[' :: (gap.reverse ++ behind)) := by simp
      simp only [near_text]
      rw [place]
      exact Reads.many_step consumes_bracketPair (Reads.of_eq_cons pair) goesOn

/-- The arguments of a result type, from the opening to the last closing
bracket. -/
def argumentPart : Matcher Unit := do
  Matcher.run isBlank
  Matcher.char '<'
  Matcher.runs Matcher.isTypeArgumentPart
  Matcher.char '>'

theorem reads_argumentPart {gap inner v u : Text} (blank : Blank gap)
    (accepted : ∀ c ∈ inner ++ '>' :: v, Matcher.isTypeArgumentPart c = true) (last : '>' ∉ v)
    (stops : Stops Matcher.isTypeArgumentPart u) (behind : Text) :
    Reads argumentPart ⟨behind, gap ++ ('<' :: (inner ++ ['>']) ++ (v ++ u))⟩ ()
      ⟨(gap ++ '<' :: (inner ++ ['>'])).reverse ++ behind, v ++ u⟩ := by
  have shape : gap ++ ('<' :: (inner ++ ['>']) ++ (v ++ u)) =
      gap ++ '<' :: (inner ++ (('>' :: v) ++ u)) := by simp
  have place : (gap ++ '<' :: (inner ++ ['>'])).reverse ++ behind =
      '>' :: (inner.reverse ++ '<' :: (gap.reverse ++ behind)) := by simp
  rw [shape, place]
  refine (Reads.of_eq_cons (Matcher.run_append blank (Matcher.stops_cons.mpr (by decide)) _)).bind
    ?_
  refine (Reads.of_eq_cons (Matcher.char_self _ _ _)).bind ?_
  refine Reads.runs_bind accepted stops ?_ (Reads.of_eq_cons (Matcher.char_self _ _ _))
  intro x y cut nonempty
  obtain ⟨d, x, rfl⟩ := List.exists_cons_of_ne_nil nonempty
  obtain ⟨-, rfl⟩ := List.cons.inj cut
  apply Matcher.char_of_ne
  intro head
  cases y with
  | nil =>
      cases u with
      | nil => cases head
      | cons e u =>
          rw [Option.some.inj head] at stops
          exact absurd (Matcher.stops_cons.mp stops) (by decide)
  | cons e y =>
      rw [List.cons_append, List.head?_cons, Option.some.injEq] at head
      exact last (by simp [head])

theorem isTypeArgumentPart_of_isDottedPart {c : Char} (h : isDottedPart c = true) :
    Matcher.isTypeArgumentPart c = true := by
  simp [Matcher.isTypeArgumentPart, h]

theorem isTypeArgumentPart_of_isBlank {c : Char} (h : isBlank c = true) :
    Matcher.isTypeArgumentPart c = true := by
  simp [Matcher.isTypeArgumentPart, h]

theorem isTypeArgumentPart_of_isTypeChar {c : Char} (h : TypeTree.isTypeChar c = true) :
    Matcher.isTypeArgumentPart c = true := by
  simp only [TypeTree.isTypeChar, Bool.or_eq_true, List.contains_iff_mem] at h
  rcases h with dotted | mark
  · exact isTypeArgumentPart_of_isDottedPart dotted
  · have marks : ∀ d ∈ ['?', '<', '>', ',', '[', ']'], Matcher.isTypeArgumentPart d = true := by
      decide
    exact marks c mark

/-- The type that stands for no result. -/
def voidType : TypeTree :=
  TypeTree.named "void".toList

/-- A type that may stand in front of the name of a method. -/
def IsResult (type : TypeTree) : Prop :=
  type.isDeclared = true ∨ type = voidType

theorem IsResult.parts {type : TypeTree} (h : IsResult type) :
    type.name ≠ [] ∧ ∀ c ∈ type.name, isDottedPart c = true := by
  rcases h with declared | rfl
  · have dotted := TypeTree.isDottedName_of_isDeclared declared
    exact ⟨Declaration.isDottedName_ne_nil dotted, Declaration.isDottedPart_of_isDottedName dotted⟩
  · decide

theorem IsResult.nameLexemes {type : TypeTree} (h : IsResult type) :
    Declaration.nameLexemes type.name = [near type.name] := by
  have single := Text.words_of_visible
    (fun c member => Character.not_isBlank_of_isDottedPart (h.parts.2 c member)) h.parts.1
  simp [Declaration.nameLexemes, single]

theorem lacks_of_name {gap w r : Text} {mark : Char} (blank : Blank gap) (nonempty : w ≠ [])
    (name : ∀ c ∈ w, isNamePart c = true) (isMark : isNamePart mark = false) :
    Lacks mark (gap ++ (w ++ r)) := by
  obtain ⟨c, w, rfl⟩ := List.exists_cons_of_ne_nil nonempty
  have part := name c List.mem_cons_self
  refine ⟨gap, c :: w ++ r, rfl, blank, Character.not_isBlank_of_isNamePart part, fun head => ?_⟩
  rw [Option.some.inj head, isMark] at part
  cases part

theorem lacks_of_brackets {dimensions : Nat} {b u : Text}
    (spelled : Spelled (bracketLexemes dimensions) b) (lacks : Lacks '<' u) :
    Lacks '<' (b ++ u) := by
  cases dimensions with
  | zero =>
      cases spelled
      exact lacks
  | succ dimensions =>
      obtain ⟨gap, rest, rfl, blank, -, -⟩ := spelled
      exact ⟨gap, '[' :: (rest ++ u), by simp, blank, Matcher.stops_cons.mpr (by decide), by simp⟩

theorem not_mem_closing_of_brackets {dimensions : Nat} {b : Text}
    (spelled : Spelled (bracketLexemes dimensions) b) : '>' ∉ b := by
  intro member
  refine spelled.forall_mem (P := fun c => c ≠ '>') ?_ ?_ '>' member rfl
  · rintro c blank rfl
    exact absurd blank (by decide)
  · clear spelled
    induction dimensions with
    | zero => simp [bracketLexemes]
    | succ dimensions ih =>
        simp only [bracketLexemes, List.forall_mem_cons, near_text]
        exact ⟨by decide, by decide, ih⟩

/-- A result type is read up to the blanks in front of the name. -/
theorem reads_returnType {type : TypeTree} (isResult : IsResult type) {t : Text}
    (spelled : Spelled type.lexemes t) (front : Stops isBlank t) {gap w gap' u : Text}
    (blank : Blank gap) (some : gap ≠ []) (nonempty : w ≠ []) (name : ∀ c ∈ w, isNamePart c = true)
    (blank' : Blank gap') (behind : Text) :
    Reads Matcher.returnType ⟨behind, t ++ (gap ++ (w ++ (gap' ++ '(' :: u)))⟩
      ⟨⟨behind, t ++ (gap ++ (w ++ (gap' ++ '(' :: u)))⟩,
        ⟨t.reverse ++ behind, gap ++ (w ++ (gap' ++ '(' :: u))⟩⟩
      ⟨t.reverse ++ behind, gap ++ (w ++ (gap' ++ '(' :: u))⟩ := by
  obtain ⟨base, arguments, dimensions, token⟩ := type
  obtain ⟨_, a, b, rfl, inName, inBrackets, inArguments⟩ := TypeTree.Spelled.cut spelled
  rw [isResult.nameLexemes] at inName
  obtain ⟨g, rfl, blankG, -⟩ := spelled_singleton.mp inName
  simp only [List.append_assoc] at front
  obtain rfl := blankG.eq_nil_of_front front.front
  have lacksAngle : Lacks '<' (gap ++ (w ++ (gap' ++ '(' :: u))) :=
    lacks_of_name blank nonempty name (by decide)
  have lacksBracket : Lacks '[' (gap ++ (w ++ (gap' ++ '(' :: u))) :=
    lacks_of_name blank nonempty name (by decide)
  have stopsBehind : Stops isDottedPart (b ++ (gap ++ (w ++ (gap' ++ '(' :: u)))) := by
    cases b with
    | nil =>
        obtain ⟨d, gap, rfl⟩ := List.exists_cons_of_ne_nil some
        exact Character.not_isDottedPart_of_isBlank (blank d List.mem_cons_self)
    | cons d b => exact TypeTree.head_of_spelled_brackets inBrackets d rfl
  have inBase := isResult.parts.2
  simp only [List.nil_append, near_text] at inBase ⊢
  apply Reads.stretch
  have shape : base ++ (a ++ b) ++ (gap ++ (w ++ (gap' ++ '(' :: u))) =
      base ++ (a ++ (b ++ (gap ++ (w ++ (gap' ++ '(' :: u))))) := by simp
  have place : (base ++ (a ++ b)).reverse ++ behind =
      b.reverse ++ (a.reverse ++ (base.reverse ++ behind)) := by simp
  rw [shape, place]
  rcases inArguments with ⟨-, rfl⟩ | ⟨gap₁, pieces, someArguments, blank₁, rfl, writes⟩
  · refine (Reads.of_eq_cons (Matcher.run1_append inBase isResult.parts.1 stopsBehind _)).bind ?_
    have nothing : Matcher.maybe argumentPart ⟨base.reverse ++ behind, [] ++ (b ++ _)⟩ = _ :=
      Matcher.maybe_of_nil (bind_run_char_eq_nil (lacks_of_brackets inBrackets lacksAngle) _)
    refine (Reads.of_eq_cons nothing).bind ?_
    exact reads_brackets inBrackets lacksBracket _
  · have declared : TypeTree.isDeclared ⟨base, arguments, dimensions, token⟩ = true := by
      rcases isResult with declared | void
      · exact declared
      · exact absurd (congrArg TypeTree.arguments void) someArguments
    have stops : Stops isDottedPart (gap₁ ++ ('<' :: ([','].intercalate pieces ++ ['>'])) ++
        (b ++ (gap ++ (w ++ (gap' ++ '(' :: u))))) := by
      cases gap₁ with
      | nil => exact Matcher.stops_cons.mpr (by decide)
      | cons d gap₁ =>
          exact Character.not_isDottedPart_of_isBlank (blank₁ d List.mem_cons_self)
    have inType := spelled.forall_mem (P := fun c => Matcher.isTypeArgumentPart c = true)
      (fun c blankC => isTypeArgumentPart_of_isBlank blankC)
      fun l member c inText => isTypeArgumentPart_of_isTypeChar
        ((TypeTree.isTypeLexeme_lexemes _ (TypeTree.isWritable_of_isDeclared declared) l
          member).chars
          c inText)
    refine (Reads.of_eq_cons (Matcher.run1_append inBase isResult.parts.1 stops _)).bind ?_
    have accepted : ∀ c ∈ [','].intercalate pieces ++ '>' :: (b ++ (gap ++ (w ++ gap'))),
        Matcher.isTypeArgumentPart c = true := by
      intro c member
      have parted : c ∈ [] ++ base ++ (gap₁ ++ '<' :: ([','].intercalate pieces ++ ['>']) ++ b) ∨
          c ∈ gap ∨ c ∈ w ∨ c ∈ gap' := by
        simp only [List.mem_append, List.mem_cons] at member ⊢
        tauto
      rcases parted with inText | inGap | inName | inGap
      · exact inType c inText
      · exact isTypeArgumentPart_of_isBlank (blank c inGap)
      · exact isTypeArgumentPart_of_isDottedPart
          (Character.isDottedPart_of_isNamePart (name c inName))
      · exact isTypeArgumentPart_of_isBlank (blank' c inGap)
    have last : '>' ∉ b ++ (gap ++ (w ++ gap')) := by
      simp only [List.mem_append, not_or]
      exact ⟨not_mem_closing_of_brackets inBrackets, fun h => absurd (blank _ h) (by decide),
        fun h => absurd (name _ h) (by decide), fun h => absurd (blank' _ h) (by decide)⟩
    have arguments := reads_argumentPart (u := '(' :: u) blank₁ accepted last
      (Matcher.stops_cons.mpr (by decide)) (base.reverse ++ behind)
    refine Reads.bind (Reads.maybe (m := argumentPart) ?_)
      (reads_brackets inBrackets lacksBracket _)
    simpa using arguments

/-! ## The `throws` clause -/

/-- The lexemes of a `throws` clause.  Without thrown types there is none. -/
def throwsLexemes : List Text → List Lexeme
  | [] => []
  | first :: rest =>
      near "throws".toList :: partFirst (commaLexemes ((first :: rest).map fun name => [near name]))

/-- What a reader makes of a `throws` clause. -/
def ClauseReads (thrown : List Text) (clause : Option Text) : Prop :=
  (thrown = [] ∧ clause = none) ∨
    ∃ s, thrown ≠ [] ∧ clause = some s ∧ Covers (throwsLexemes thrown) s ∧ Stops isBlank s

theorem isList_throwsLexemes {thrown : List Text} (h : ∀ name ∈ thrown, isDottedName name = true) :
    IsList (throwsLexemes thrown) := by
  cases thrown with
  | nil => exact isList_nil
  | cons first rest =>
      refine (isList_commaLexemes ?_).word_cons ⟨by decide, by decide⟩
      intro item member
      obtain ⟨name, isThrown, rfl⟩ := List.mem_map.mp member
      exact isList_singleton (isPlain_of_isDottedName (h name isThrown)).1

theorem plain_commaLexemes {items : List (List Lexeme)}
    (each : ∀ item ∈ items, ∀ l ∈ item, IsPlain l) : ∀ l ∈ commaLexemes items, IsPlain l := by
  induction items with
  | nil => simp [commaLexemes]
  | cons item items ih =>
      have first := each item List.mem_cons_self
      have others := ih fun item' member => each item' (List.mem_cons_of_mem item member)
      cases items with
      | nil => exact first
      | cons second items =>
          exact List.forall_mem_append.mpr ⟨first,
            List.forall_mem_cons.mpr ⟨isPlain_mark (by decide), others⟩⟩

theorem plain_throwsLexemes {thrown : List Text} (h : ∀ name ∈ thrown, isDottedName name = true) :
    ∀ l ∈ throwsLexemes thrown, IsPlain l := by
  cases thrown with
  | nil => simp [throwsLexemes]
  | cons first rest =>
      refine List.forall_mem_cons.mpr ⟨⟨Or.inl ⟨by decide, by decide⟩, by decide⟩, ?_⟩
      apply plain_partFirst
      apply plain_commaLexemes
      intro item member l inItem
      obtain ⟨name, isThrown, rfl⟩ := List.mem_map.mp member
      rw [List.mem_singleton.mp inItem]
      exact isPlain_of_isDottedName (h name isThrown)

theorem isThrowsPart_of_isDottedPart {c : Char} (h : isDottedPart c = true) :
    Matcher.isThrowsPart c = true := by
  simp [Matcher.isThrowsPart, h]

theorem isThrowsPart_of_isBlank {c : Char} (h : isBlank c = true) :
    Matcher.isThrowsPart c = true := by
  simp [Matcher.isThrowsPart, h]

theorem isThrowsPart_of_mem_commaLexemes {items : List Text}
    (h : ∀ name ∈ items, isDottedName name = true) :
    ∀ l ∈ commaLexemes (items.map fun name => [near name]), ∀ c ∈ l.text,
      Matcher.isThrowsPart c = true := by
  induction items with
  | nil => simp [commaLexemes]
  | cons first rest ih =>
      have name : ∀ c ∈ first, Matcher.isThrowsPart c = true := fun c member =>
        isThrowsPart_of_isDottedPart
          (Declaration.isDottedPart_of_isDottedName (h first List.mem_cons_self) c member)
      have others := ih fun w member => h w (List.mem_cons_of_mem first member)
      cases rest with
      | nil => simpa [commaLexemes] using name
      | cons second rest =>
          simp only [List.map_cons] at others ⊢
          simp only [commaLexemes, List.forall_mem_append, List.forall_mem_cons, near_text]
          exact ⟨⟨name, by simp⟩, by decide, others⟩

/-- Behind the blanks in front of it a clause is read up to the end of the
declaration. -/
theorem reads_throwsClause {thrown : List Text} (h : ∀ name ∈ thrown, isDottedName name = true)
    {s gap : Text} {c : Char} (spelled : Spelled (throwsLexemes thrown) s) (blank : Blank gap)
    (last : c = '\x7b' ∨ c = ';') :
    ∃ gap' r, s ++ (gap ++ [c]) = gap' ++ r ∧ Blank gap' ∧ Stops isBlank r ∧ r.head? ≠ some '[' ∧
      ∀ behind, ∃ clause behind', Reads (Matcher.optional Matcher.throwsClause) ⟨behind, r⟩ clause
        ⟨behind', [c]⟩ ∧ ClauseReads thrown (clause.map Stretch.text) := by
  have ends : ∀ d ∈ ['\x7b', ';'], isBlank d = false ∧ Matcher.isThrowsPart d = false ∧ d ≠ '[' ∧
      d ≠ 't' := by decide
  obtain ⟨visible, notPart, notBracket, notThrows⟩ := ends c (by simpa using last)
  cases thrown with
  | nil =>
      cases spelled
      refine ⟨gap, [c], rfl, blank, Matcher.stops_cons.mpr visible, by simpa using notBracket,
        fun behind => ⟨none, behind, ?_, Or.inl ⟨rfl, rfl⟩⟩⟩
      apply Reads.of_eq_cons
      apply Matcher.optional_of_nil
      apply Matcher.stretch_of_nil
      apply Matcher.bind_of_nil
      apply Matcher.word_eq_nil
      rintro ⟨rest, same⟩
      exact notThrows (List.cons.inj same).1.symm
  | cons first rest =>
      obtain ⟨gap₁, r, rfl, blank₁, -, others⟩ := spelled
      have dotted := h first List.mem_cons_self
      have parts : ∀ d ∈ r, Matcher.isThrowsPart d = true := by
        refine others.of_part_first.forall_mem (P := fun d => Matcher.isThrowsPart d = true) ?_ ?_
        · exact fun d blankD => isThrowsPart_of_isBlank blankD
        · exact isThrowsPart_of_mem_commaLexemes h
      obtain ⟨more, shape⟩ : ∃ more,
          commaLexemes ((first :: rest).map fun name => [near name]) = near first :: more := by
        cases rest with
        | nil => exact ⟨[], rfl⟩
        | cons second rest => exact ⟨_, rfl⟩
      rw [shape] at others
      obtain ⟨gap₂, r', rfl, blank₂, some₂, -⟩ := others.exists_behind
      obtain ⟨b, gap₂, rfl⟩ := List.exists_cons_of_ne_nil some₂
      have blankB : isBlank b = true := blank₂ b List.mem_cons_self
      have text : "throws".toList ++ (b :: (gap₂ ++ (first ++ r'))) ++ (gap ++ [c]) =
          "throws".toList ++ b :: ((gap₂ ++ (first ++ r') ++ gap) ++ [c]) := by simp
      refine ⟨gap₁, "throws".toList ++ b :: ((gap₂ ++ (first ++ r') ++ gap) ++ [c]), ?_, blank₁,
        Matcher.stops_cons.mpr (by decide), by simp, fun behind => ?_⟩
      · rw [← text]
        simp
      · have accepted : ∀ d ∈ gap₂ ++ (first ++ r') ++ gap, Matcher.isThrowsPart d = true := by
          intro d member
          rcases List.mem_append.mp member with inNames | inGap
          · exact parts d (List.mem_cons_of_mem b inNames)
          · exact isThrowsPart_of_isBlank (blank d inGap)
        have nonempty : gap₂ ++ (first ++ r') ++ gap ≠ [] := by
          simp [Declaration.isDottedName_ne_nil dotted]
        have taken :
            Reads (Matcher.word "throws".toList >>= fun _ => Matcher.one isBlank >>= fun _ =>
            Matcher.run1 Matcher.isThrowsPart)
            ⟨behind, "throws".toList ++ b :: ((gap₂ ++ (first ++ r') ++ gap) ++ [c])⟩ ()
            ⟨(gap₂ ++ (first ++ r') ++ gap).reverse ++ b :: ("throws".toList.reverse ++ behind),
              [c]⟩ := by
          refine (Reads.of_eq_cons (Matcher.word_append _ _ _)).bind ?_
          refine (Reads.of_eq_cons (Matcher.one_of_true blankB _ _)).bind ?_
          exact Reads.of_eq_cons (Matcher.run1_append accepted nonempty
            (Matcher.stops_cons.mpr notPart) _)
        refine ⟨_, _, Reads.optional_some taken.stretch, Or.inr ⟨"throws".toList ++
          b :: (gap₂ ++ (first ++ r') ++ gap), by simp, ?_, ?_, Matcher.stops_cons.mpr (by decide)⟩⟩
        · have shape' : "throws".toList ++ b :: ((gap₂ ++ (first ++ r') ++ gap) ++ [c]) =
              ("throws".toList ++ b :: (gap₂ ++ (first ++ r') ++ gap)) ++ [c] := by simp
          rw [Option.map_some, shape', Matcher.text_mk]
        · exact ⟨"throws".toList ++ b :: (gap₂ ++ (first ++ r')), gap, by simp,
            ⟨[], _, rfl, Text.blank_nil, by simp, shape ▸ others⟩, blank⟩

/-! ## What stands behind the type variables -/

/-- The rest of a signature, from the result type on. -/
def declarator : Matcher SignatureParts := do
  let returnType ← Matcher.returnType
  Matcher.run1 isBlank
  let name ← Matcher.stretch (Matcher.run1 isNamePart)
  Matcher.run isBlank
  let parameters ← Matcher.parenthesized
  Matcher.run isBlank
  Matcher.many do
    Matcher.char '['
    Matcher.run isBlank
    Matcher.char ']'
    Matcher.run isBlank
  let throwsClause ← Matcher.optional Matcher.throwsClause
  Matcher.run isBlank
  Matcher.one fun c => c == '\x7b' || c == ';'
  Matcher.textEnd
  return { returnType, name, parameters, throwsClause }

theorem signatureShape_eq : Matcher.signatureShape = (do
    Matcher.textStart
    Matcher.run isBlank
    Matcher.many (choice Matcher.qualifiers)
    Matcher.maybe TypeVariable.angled
    declarator) := rfl

/-- The lexemes from the result type on. -/
def declaratorLexemes (type : TypeTree) (name : Text) (parameters : List Lexeme)
    (thrown : List Text) (last : Char) : List Lexeme :=
  type.lexemes ++ (behindBlank name :: near ['('] :: (parameters ++ (near [')'] ::
    (throwsLexemes thrown ++ [near [last]]))))

/-- What a reading of a signature shape says of the declaration. -/
structure SignatureOf (type : TypeTree) (name : Text) (parameters : List Lexeme)
    (thrown : List Text) (parts : SignatureParts) : Prop where
  result : Spelled type.lexemes parts.returnType.text
  front : Stops isBlank parts.returnType.text
  name_eq : parts.name.text = name
  inside : Spelled (parameters ++ [near [')']]) (parts.parameters.text ++ [')'])
  clause : ClauseReads thrown (parts.throwsClause.map Stretch.text)

section

variable {type : TypeTree} {name : Text} {parameters : List Lexeme} {thrown : List Text} {c : Char}

/-- From the result type on a signature is read part by part, whatever stands
between the parentheses. -/
theorem reads_declarator_of_undivided (isResult : IsResult type) (nonempty : name ≠ [])
    (nameParts : ∀ d ∈ name, isNamePart d = true)
    (dotted : ∀ name ∈ thrown, isDottedName name = true) (last : c = '\x7b' ∨ c = ';')
    {ty gap₁ gap₂ inner s gap₄ : Text} (inType : Spelled type.lexemes ty) (front : Stops isBlank ty)
    (blank₁ : Blank gap₁) (some₁ : gap₁ ≠ []) (blank₂ : Blank gap₂)
    (undivided : Text.Undivided inner) (inThrows : Spelled (throwsLexemes thrown) s)
    (blank₄ : Blank gap₄) (behind : Text) :
    ∃ parts later, Reads declarator
      ⟨behind, ty ++ (gap₁ ++ (name ++ (gap₂ ++ '(' :: (inner ++ ')' :: (s ++ (gap₄ ++ [c]))))))⟩
        parts later ∧
      parts.returnType.text = ty ∧ parts.name.text = name ∧ parts.parameters.text = inner ∧
      ClauseReads thrown (parts.throwsClause.map Stretch.text) := by
  obtain ⟨gap₅, r, tail, blank₅, stops₅, noBracket, readsClause⟩ :=
    reads_throwsClause dotted inThrows blank₄ last
  rw [tail]
  obtain ⟨clause, behind', clauseReads, isClause⟩ := readsClause (gap₅.reverse ++ ')' ::
    (inner.reverse ++ '(' :: (gap₂.reverse ++ (name.reverse ++ (gap₁.reverse ++
      (ty.reverse ++ behind))))))
  have stopsName : Stops isBlank (name ++ (gap₂ ++ '(' :: (inner ++ ')' :: (gap₅ ++ r)))) := by
    obtain ⟨d, name, rfl⟩ := List.exists_cons_of_ne_nil nonempty
    exact Character.not_isBlank_of_isNamePart (nameParts d List.mem_cons_self)
  have stopsBehind : Stops isNamePart (gap₂ ++ '(' :: (inner ++ ')' :: (gap₅ ++ r))) := by
    cases gap₂ with
    | nil => exact Matcher.stops_cons.mpr (by decide)
    | cons d gap₂ => exact Character.not_isNamePart_of_isBlank (blank₂ d List.mem_cons_self)
  have ends : ∀ d ∈ ['\x7b', ';'], isBlank d = false := by decide
  have visible := ends c (by simpa using last)
  have noBrackets : ∀ place, r = place.ahead → Matcher.many (do
      Matcher.char '['
      Matcher.run isBlank
      Matcher.char ']'
      Matcher.run isBlank) place = [((), place)] := by
    rintro ⟨_, _⟩ rfl
    exact Matcher.many_of_nil (Matcher.bind_of_nil (Matcher.char_of_ne noBracket))
  refine (reads_returnType isResult inType front blank₁ some₁ nonempty nameParts blank₂
    behind).exists_bind ?_
  refine (Reads.of_eq_cons (Matcher.run1_append blank₁ some₁ stopsName _)).exists_bind ?_
  refine (Reads.stretch (Reads.of_eq_cons
    (Matcher.run1_append nameParts nonempty stopsBehind _))).exists_bind ?_
  refine (Reads.of_eq_cons
    (Matcher.run_append blank₂ (Matcher.stops_cons.mpr (by decide)) _)).exists_bind ?_
  refine (Reads.of_eq_cons (Text.parenthesized_append undivided _ _)).exists_bind ?_
  refine (Reads.of_eq_cons (Matcher.run_append blank₅ stops₅ _)).exists_bind ?_
  refine (Reads.of_eq_cons (noBrackets _ rfl)).exists_bind ?_
  refine clauseReads.exists_bind ?_
  refine (Reads.of_eq_cons (Matcher.run_of_stops (Matcher.stops_cons.mpr visible) _)).exists_bind ?_
  refine (Reads.of_eq_cons (Matcher.one_of_true (by simpa using last) _ _)).exists_bind ?_
  refine (Reads.of_eq_cons rfl : Reads Matcher.textEnd _ () _).exists_bind ?_
  exact ⟨_, _, Reads.pure _ _, by simp, by simp, Matcher.text_mk _ _ _ _, isClause⟩

theorem reads_declarator (isResult : IsResult type) (nonempty : name ≠ [])
    (nameParts : ∀ d ∈ name, isNamePart d = true) (inner : ∀ l ∈ parameters, IsInner l)
    (dotted : ∀ name ∈ thrown, isDottedName name = true) (last : c = '\x7b' ∨ c = ';') {t : Text}
    (spelled : Spelled (declaratorLexemes type name parameters thrown c) t)
    (front : Stops isBlank t) (behind : Text) :
    ∃ parts later, Reads declarator ⟨behind, t⟩ parts later ∧
      SignatureOf type name parameters thrown parts := by
  obtain ⟨ty, _, rfl, inType, gap₁, _, rfl, blank₁, some₁, gap₂, _, rfl, blank₂, -, inList⟩ :=
    spelled_append.mp spelled
  obtain ⟨inner₀, _, rfl, inParameters, gap₃, _, rfl, blank₃, -, inTail⟩ := spelled_append.mp inList
  obtain ⟨s, _, rfl, inThrows, atEnd⟩ := spelled_append.mp inTail
  obtain ⟨gap₄, rfl, blank₄, -⟩ := spelled_singleton.mp atEnd
  simp only [behindBlank_text, near_text] at front ⊢
  have frontType : Stops isBlank ty := Matcher.stops_of_append front
  have undivided : Text.Undivided (inner₀ ++ gap₃) :=
    List.forall_mem_append.mpr ⟨undivided_of_spelled inner inParameters,
      fun d member => not_divides (by decide) (blank₃ d member)⟩
  obtain ⟨parts, later, reads, result, name_eq, parameters_eq, clause⟩ :=
    reads_declarator_of_undivided isResult
    nonempty nameParts dotted last inType frontType blank₁
      (some₁ rfl) blank₂ undivided inThrows blank₄ behind
  have shape : ty ++ (gap₁ ++ (name ++ (gap₂ ++ (['('] ++ (inner₀ ++ (gap₃ ++ ([')'] ++
      (s ++ (gap₄ ++ [c]))))))))) =
      ty ++ (gap₁ ++
        (name ++ (gap₂ ++ '(' :: ((inner₀ ++ gap₃) ++ ')' :: (s ++ (gap₄ ++ [c])))))) := by
    simp
  refine ⟨parts, later, by rwa [shape], ?_⟩
  constructor
  · rwa [result]
  · rwa [result]
  · exact name_eq
  · rw [parameters_eq, List.append_assoc]
    exact spelled_append.mpr ⟨inner₀, _, rfl, inParameters, gap₃, [], by simp, blank₃, by simp, rfl⟩
  · exact clause

/-! ## The whole shape -/

theorem IsSound.append_mark {first second : List Lexeme} {mark : Lexeme} (h : IsSound first)
    (isMark : IsMark mark) (h' : IsSound second) : IsSound (first ++ mark :: second) where
  kinds := List.forall_mem_append.mpr ⟨h.kinds, List.forall_mem_cons.mpr ⟨Or.inr isMark, h'.kinds⟩⟩
  chain := isChain_before (Loose.before_mark isMark) h.chain
    (isChain_behind (Loose.behind_mark isMark) h'.chain)

theorem isList_result (isResult : IsResult type) : IsList type.lexemes := by
  rcases isResult with declared | rfl
  · exact TypeTree.isList_lexemes (TypeTree.isSpellable_of_isDeclared declared)
  · exact isList_singleton (Or.inl ⟨by decide, by decide⟩)

theorem isMark_parenthesis : IsMark (near ['(']) ∧ IsMark (near [')']) :=
  ⟨⟨by decide, by decide⟩, ⟨by decide, by decide⟩⟩

theorem isMark_last (last : c = '\x7b' ∨ c = ';') : IsMark (near [c]) := by
  rcases last with rfl | rfl
  · exact ⟨by decide, by decide⟩
  · exact ⟨by decide, by decide⟩

theorem isSound_declaratorLexemes (isResult : IsResult type) (nonempty : name ≠ [])
    (nameParts : ∀ d ∈ name, isNamePart d = true) (inside : IsList parameters)
    (dotted : ∀ name ∈ thrown, isDottedName name = true) (last : c = '\x7b' ∨ c = ';') :
    IsSound (declaratorLexemes type name parameters thrown c) := by
  have tail := (isList_throwsLexemes dotted).sound.append_mark (isMark_last last) isSound_nil
  have list := inside.sound.append_mark isMark_parenthesis.2 tail
  have word : IsSound [behindBlank name] :=
    isSound_singleton (Or.inl (isWord_of_isKeyword ⟨nonempty, nameParts⟩))
  have named := word.append_mark isMark_parenthesis.1 list
  exact (isList_result isResult).sound.append named fun _ _ b head => Or.inl (by cases head; rfl)

theorem isSound_signature {list : List TypeVariable} (h : ∀ v ∈ list, v.isWellFormed = true)
    {rest : List Lexeme} (sound : IsSound rest) :
    IsSound (TypeVariable.listLexemes list ++ rest) := by
  refine (TypeVariable.isList_listLexemes h).sound.append sound fun a final _ _ => ?_
  cases list with
  | nil => cases final
  | cons first variables_ =>
      have closing : (TypeVariable.listLexemes (first :: variables_)).getLast? =
          some (near ['>']) := by
        rw [TypeVariable.listLexemes, ← List.cons_append, List.getLast?_concat]
      rw [closing] at final
      cases final
      exact Loose.behind_mark (isBracket_near (by decide) (by decide)).mark _

theorem declarator_eq_nil {d : Char} (notDotted : isDottedPart d = false) (behind r : Text) :
    declarator ⟨behind, d :: r⟩ = [] := by
  apply Matcher.bind_of_nil
  apply Matcher.stretch_of_nil
  exact Matcher.bind_of_nil (Matcher.run1_of_stops (Matcher.stops_cons.mpr notDotted) _)

theorem head_result (isResult : IsResult type) :
    ∃ more, type.lexemes = near type.name :: more := by
  obtain ⟨base, arguments, dimensions, token⟩ := type
  have single := isResult.nameLexemes
  cases arguments with
  | nil => exact ⟨_, by rw [TypeTree.lexemes, single]; rfl⟩
  | cons first rest => exact ⟨_, by rw [TypeTree.lexemes, single]; rfl⟩

/-- A declaration with its qualifiers has the shape of a signature. -/
theorem reads_signatureShape {words : List Text}
    (areQualifiers : ∀ w ∈ words, w ∈ Matcher.qualifiers) {list : List TypeVariable}
    (h : ∀ v ∈ list, v.isWellFormed = true) (isResult : IsResult type)
    (other : type.name ∉ Matcher.qualifiers) (nonempty : name ≠ [])
    (nameParts : ∀ d ∈ name, isNamePart d = true) (inside : IsList parameters)
    (dotted : ∀ name ∈ thrown, isDottedName name = true) (last : c = '\x7b' ∨ c = ';') {t : Text}
    (spelled : Spelled
      (led words (TypeVariable.listLexemes list ++ declaratorLexemes type name parameters thrown c))
        t) :
    ∃ parts later, Reads Matcher.signatureShape ⟨[], t⟩ parts later ∧
      SignatureOf type name parameters thrown parts := by
  have sound := isSound_signature h (isSound_declaratorLexemes isResult nonempty nameParts inside
    dotted last)
  rw [signatureShape_eq]
  refine (Reads.of_eq_cons rfl : Reads Matcher.textStart ⟨[], t⟩ () ⟨[], t⟩).exists_bind ?_
  obtain ⟨more, shape⟩ := head_result isResult
  have stopsResult : ∀ r, Stops isBlank (type.name ++ r) := fun r =>
    stops_of_visible (l := near type.name) ⟨isResult.parts.1, fun d member =>
      Character.not_isBlank_of_isDottedPart (isResult.parts.2 d member)⟩ r
  cases list with
  | nil =>
      rw [TypeVariable.listLexemes, List.nil_append] at sound spelled
      rw [declaratorLexemes, shape, List.cons_append] at sound spelled
      obtain ⟨gap, lead, r, rfl, blank, -, stops, inMore, -, reads⟩ :=
        exists_lead areDistinct_qualifiers areQualifiers other sound spelled
      refine (Reads.of_eq_cons (Matcher.run_append blank stops _)).exists_bind ?_
      refine (reads _).exists_bind ?_
      have noAngle : (type.name ++ r).head? ≠ some '<' := by
        obtain ⟨d, base, text⟩ := List.exists_cons_of_ne_nil isResult.parts.1
        have part := isResult.parts.2 d (by simp [text])
        rw [text]
        rintro head
        rw [Option.some.inj head] at part
        exact absurd part (by decide)
      refine (Reads.of_eq_cons
        (Matcher.maybe_of_nil (Matcher.bind_of_nil (Matcher.char_of_ne noAngle)))).exists_bind ?_
      refine reads_declarator isResult nonempty nameParts inside.inner dotted last ?_
        (stopsResult r) _
      rw [declaratorLexemes, shape]
      exact ⟨[], r, rfl, Text.blank_nil, by simp, inMore⟩
  | cons first list =>
      rw [TypeVariable.listLexemes, List.cons_append] at sound spelled
      obtain ⟨gap, lead, r, rfl, blank, -, stops, inMore, -, reads⟩ :=
        exists_lead areDistinct_qualifiers areQualifiers (by decide) sound spelled
      refine (Reads.of_eq_cons (Matcher.run_append blank stops _)).exists_bind ?_
      refine (reads _).exists_bind ?_
      obtain ⟨a, b, rfl, inList, inDeclarator⟩ := spelled_append.mp inMore
      rw [declaratorLexemes, shape] at inDeclarator
      obtain ⟨gap', r, rfl, blank', -, inRest⟩ := inDeclarator
      have spelled' :
          Spelled (declaratorLexemes type name parameters thrown c) (type.name ++ r) := by
        rw [declaratorLexemes, shape]
        exact ⟨[], r, rfl, Text.blank_nil, by simp, inRest⟩
      obtain ⟨parts, later, readsDeclarator, isSignature⟩ :=
        reads_declarator isResult nonempty nameParts
        inside.inner dotted last spelled' (stopsResult r)
        (('<' :: (a ++ gap')).reverse ++ (lead.reverse ++ (gap.reverse ++ [])))
      have listed : Reads (Matcher.maybe TypeVariable.angled >>= fun _ => declarator)
          ⟨lead.reverse ++ (gap.reverse ++ []), '<' :: (a ++ (gap' ++ (type.name ++ r)))⟩
            parts later :=
        TypeVariable.reads_list (fun behind d r notDotted =>
          declarator_eq_nil notDotted behind r) h inList
          blank' (stopsResult r) readsDeclarator
      exact ⟨parts, later, listed, isSignature⟩

end

end Lexeme
end Testwright
