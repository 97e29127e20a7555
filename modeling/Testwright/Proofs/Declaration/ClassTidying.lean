import Testwright.Proofs.Declaration.MemberReading
import Testwright.Proofs.Text.Mention
import Testwright.Source.Normalized

namespace Testwright

/-!
# Written classes, normalized

Normalizing a plain source leaves its lexemes and changes the blanks between
them.  So the normalized text of a written class is that class again, written
otherwise and with its bodies normalized.
-/

open Lexeme (IsInner Spelled behindBlank freeFirst led listedLexemes near partFirst)

namespace Text

open Character (isBlank)

/-- A body as a normalized source shows it, without the brace behind it. -/
def shown (body : Text) : Text :=
  (normalize (body ++ ['}'])).dropLast

theorem tidy_terminated_append {s : Text} (h : Terminated s) (t : Text) :
    tidy (s ++ t) = tidy s ++ tidy t := by
  rcases h with rfl | ⟨s, c, rfl, terminator⟩
  · rfl
  · have visible : isBlank c = false := by
      cases blank : isBlank c with
      | false => rfl
      | true =>
          rw [unterminated_of_blank (blank_singleton blank) c List.mem_cons_self] at terminator
          cases terminator
    rw [List.append_assoc, List.singleton_append]
    exact tidy_append s visible t

theorem isSafe_of_isTerminator {c : Char} (terminator : isTerminator c = true) :
    isSafe c = true := by
  simp only [isTerminator, Bool.or_eq_true, beq_iff_eq] at terminator
  rcases terminator with (rfl | rfl) | rfl <;> decide

theorem isPlain_terminated_append {s t : Text} (h : Terminated s) (first : isPlain s = true)
    (second : isPlain t = true) : isPlain (s ++ t) = true := by
  rcases h with rfl | ⟨s, c, rfl, terminator⟩
  · exact second
  · rw [List.append_assoc, List.singleton_append]
    exact isPlain_append (isSafe_of_isTerminator terminator) first second

theorem isPlain_closed {body : Text} (plain : isPlain body = true) :
    isPlain (body ++ ['}']) = true := by
  induction body with
  | nil => decide
  | cons c body ih =>
      simp only [List.cons_append, isPlain, Bool.and_eq_true] at plain ⊢
      refine ⟨⟨plain.1.1, ?_⟩, ih plain.2⟩
      cases body with
      | nil => cases slash : c == '/' <;> simp
      | cons d body => exact plain.1.2

/-- The brace behind a body stays behind it. -/
theorem shown_closed {body : Text} (plain : isPlain body = true) :
    shown body ++ ['}'] = tidy (body ++ ['}']) := by
  obtain ⟨s, same⟩ := exists_tidy_concat body (c := '}') (by decide)
  rw [shown, normalize_of_isPlain (isPlain_closed plain), same, List.dropLast_concat]

/-- A normalized body mentions no other words. -/
theorem mentions_shown {body w : Text} (plain : isPlain body = true) (nonempty : w ≠ [])
    (unmentioned : mentions body w = false) : mentions (shown body) w = false := by
  cases mentioned : mentions (shown body) w with
  | false => rfl
  | true =>
      have behind : ∀ b : Text, wordRuns (b ++ ['}']) = wordRuns b ++ [[]] := fun b =>
        wordRuns_append b (by decide) []
      have closed : mentions (tidy (body ++ ['}'])) w = true := by
        rw [← shown_closed plain]
        apply List.contains_iff_mem.mpr
        rw [behind]
        exact List.mem_append_left _ (List.contains_iff_mem.mp mentioned)
      have inBody := List.contains_iff_mem.mp (mentions_of_mentions_tidy nonempty closed)
      rw [behind, List.mem_append, List.mem_singleton] at inBody
      have inRuns := List.contains_iff_mem.mpr (inBody.resolve_right nonempty)
      rw [mentions, inRuns] at unmentioned
      cases unmentioned

end Text
namespace Lexeme

open Character (isBlank isDottedPart)
open Declaration (isDottedName)

/-- The lexemes of declarations and statements that are neither words nor inner
marks. -/
def outerMarks : List Text :=
  [['('], [')'], ['\x7b'], [';'], ".*".toList]

/-- A lexeme of a class. -/
def IsPart (l : Lexeme) : Prop :=
  IsInner l ∨ l.text ∈ outerMarks

theorem IsPart.isVisible {l : Lexeme} (part : IsPart l) : l.IsVisible := by
  rcases part with inner | member
  · exact isVisible_of_kind inner.kind
  · exact (by decide : ∀ t ∈ outerMarks, t ≠ [] ∧ ∀ c ∈ t, isBlank c = false) l.text member

theorem isSafe_of {accept : Char → Bool} (none : ∀ d ∈ ['"', '\x27', '@', '/'], accept d = false)
    {c : Char} (h : accept c = true) : Text.isSafe c = true := by
  have other : ∀ d ∈ ['"', '\x27', '@', '/'], c ≠ d := by
    rintro d member rfl
    rw [none c member] at h
    cases h
  simp only [List.forall_mem_cons, List.not_mem_nil, false_imp_iff, implies_true, and_true] at other
  simp [Text.isSafe, other]

theorem isSafe_of_isBlank {c : Char} (blank : isBlank c = true) : Text.isSafe c = true :=
  isSafe_of (by decide) blank

theorem IsPart.isSafe {l : Lexeme} (part : IsPart l) : ∀ c ∈ l.text, Text.isSafe c = true := by
  rcases part with (word | member) | member
  · exact fun c inText => isSafe_of (by decide) (word.2 c inText)
  · exact (by decide : ∀ t ∈ innerMarks, ∀ c ∈ t, Text.isSafe c = true) l.text member
  · exact (by decide : ∀ t ∈ outerMarks, ∀ c ∈ t, Text.isSafe c = true) l.text member

theorem isPlain_of_spelled {lexemes : List Lexeme} (parts : ∀ l ∈ lexemes, IsPart l) {t : Text}
    (spelled : Spelled lexemes t) : Text.isPlain t = true :=
  Text.isPlain_of_isSafe (spelled.forall_mem (fun _ => isSafe_of_isBlank)
    fun l member => (parts l member).isSafe)

theorem part_listed {heading parameters : List Lexeme} {thrown : List Text} {last : Char}
    (inHeading : ∀ l ∈ heading, IsInner l) (inner : ∀ l ∈ parameters, IsInner l)
    (dotted : ∀ name ∈ thrown, isDottedName name = true) (isLast : last = '\x7b' ∨ last = ';') :
    ∀ l ∈ listedLexemes heading parameters thrown last, IsPart l := by
  simp only [listedLexemes, List.forall_mem_append, List.forall_mem_cons, List.not_mem_nil,
    false_imp_iff, implies_true, and_true]
  refine ⟨fun l member => Or.inl (inHeading l member), Or.inr (by decide),
    fun l member => Or.inl (inner l member), Or.inr (by decide),
    fun l member => Or.inl ((isList_throwsLexemes dotted).inner l member), Or.inr ?_⟩
  rcases isLast with rfl | rfl <;> decide

end Lexeme

namespace Member

open Declaration (isIdentifier)
open Text (Terminated)

theorem part_lexemes {className : Text} (isClass : isIdentifier className = true) {member : Member}
    (h : member.isWellFormed className = true) :
    ∀ l ∈ member.lexemes className, Lexeme.IsPart l := by
  cases member with
  | field type name =>
      simp only [isWellFormed, Bool.and_eq_true] at h
      have inType := Lexeme.plain_partFirst (TypeTree.plain_lexemes type
        (TypeTree.isSpellable_of_isDeclared h.1.1)).1
      simp only [lexemes, List.forall_mem_cons, List.forall_mem_append, List.not_mem_nil,
        false_imp_iff, implies_true, and_true]
      exact ⟨Or.inl (Or.inl ⟨by decide, by decide⟩), fun l member => Or.inl (inType l member).1,
        Or.inl (Lexeme.isPlain_of_isIdentifier h.1.2).1, Or.inr (by decide)⟩
  | constructor form =>
      simp only [isWellFormed, Bool.and_eq_true] at h
      have parts := ConstructorForm.parts h.1
      exact Lexeme.part_listed (ConstructorForm.inner_headingLexemes h.1 isClass)
        (ParameterForm.isList_listLexemes parts.parameters).inner parts.thrown (Or.inl rfl)
  | method form =>
      simp only [isWellFormed, Bool.and_eq_true] at h
      have parts := MethodForm.parts h.1.1
      exact Lexeme.part_listed (MethodForm.inner_headingLexemes h.1.1)
        (ParameterForm.isList_listLexemes parts.parameters).inner parts.thrown form.last_eq

/-- Whether the body has no comments, quotes and annotations. -/
def hasPlainBody (member : Member) : Bool :=
  member.body.all Text.isPlain

theorem isWellFormed_mapBody {className : Text} {member : Member}
    (h : member.isWellFormed className = true) (plain : member.hasPlainBody = true) :
    (member.mapBody Text.shown).isWellFormed className = true := by
  have shown : ∀ {body : Text}, Text.isPlain body = true → (∀ w ∈ statementWords,
      Text.mentions body w = false) → ∀ w ∈ statementWords,
      Text.mentions (Text.shown body) w = false :=
    fun plain unmentioned w member => Text.mentions_shown plain
      ((by decide : ∀ w ∈ statementWords, w ≠ []) w member) (unmentioned w member)
  cases member with
  | field type name => exact h
  | constructor form =>
      simp only [isWellFormed, mapBody, Bool.and_eq_true, List.all_eq_true,
        Bool.not_eq_true'] at h ⊢
      exact ⟨h.1, shown plain h.2⟩
  | method form =>
      simp only [isWellFormed, mapBody, Bool.and_eq_true, List.all_eq_true] at h ⊢
      refine ⟨h.1, fun w isWord => ?_⟩
      cases body : form.body with
      | none => rfl
      | some b =>
          have unmentioned : ∀ w ∈ statementWords, Text.mentions b w = false := fun w isWord => by
            simpa [body] using h.2 w isWord
          have plainBody : Text.isPlain b = true := by
            simpa [hasPlainBody, Member.body, body] using plain
          simpa using shown plainBody unmentioned w isWord

theorem closing_mapBody {member : Member} (plain : member.hasPlainBody = true) :
    (member.mapBody Text.shown).closing = Text.tidy member.closing := by
  cases member with
  | field type name => rfl
  | constructor form => exact Text.shown_closed plain
  | method form =>
      rw [closing, closing, body, mapBody, body]
      cases body : form.body with
      | none => rfl
      | some b => exact Text.shown_closed (by simpa [hasPlainBody, Member.body, body] using plain)

theorem lexemes_mapBody (className : Text) (change : Text → Text) (member : Member) :
    (member.mapBody change).lexemes className = member.lexemes className := by
  cases member with
  | field type name => rfl
  | constructor form => rfl
  | method form =>
      simp only [mapBody, lexemes, MethodForm.lexemes, MethodForm.namedLexemes,
        MethodForm.resultType, MethodForm.last, Option.isSome_map]

theorem isPlain_closing {member : Member} (plain : member.hasPlainBody = true) :
    Text.isPlain member.closing = true := by
  rw [hasPlainBody] at plain
  rw [closing]
  cases body : member.body with
  | none => rfl
  | some b =>
      rw [body] at plain
      exact Text.isPlain_closed plain

/-- Members, normalized. -/
theorem written_tidy {className : Text} (isClass : isIdentifier className = true)
    {members : List Member} (h : ∀ member ∈ members, member.isWellFormed className = true)
    (plain : ∀ member ∈ members, member.hasPlainBody = true) {t : Text}
    (written : Written className members t) (rest : Text) :
    ∃ s, Text.tidy (t ++ rest) = s ++ Text.tidy rest ∧
      Written className (members.map (mapBody Text.shown)) s ∧
      (Text.isPlain rest = true → Text.isPlain (t ++ rest) = true) := by
  induction members generalizing t with
  | nil =>
      cases written
      exact ⟨[], rfl, rfl, id⟩
  | cons member members ih =>
      obtain ⟨s, later, rfl, spelled, others⟩ := written
      obtain ⟨s', tidied, writtenRest, plainRest⟩ := ih
        (fun other inRest => h other (List.mem_cons_of_mem member inRest))
        (fun other inRest => plain other (List.mem_cons_of_mem member inRest)) others
      have parts := part_lexemes isClass (h member List.mem_cons_self)
      have plainBody := plain member List.mem_cons_self
      have front := terminated_lexemes spelled
      have shape : s ++ (member.closing ++ later) ++ rest =
          s ++ (member.closing ++ (later ++ rest)) := by
        simp
      rw [shape]
      refine ⟨Text.tidy s ++ (Text.tidy member.closing ++ s'), ?_,
        ⟨Text.tidy s, s', ?_, ?_, writtenRest⟩, fun isPlain => ?_⟩
      · rw [Text.tidy_terminated_append front,
          Text.tidy_terminated_append member.terminated_closing, tidied]
        simp
      · rw [closing_mapBody plainBody]
      · rw [lexemes_mapBody]
        exact spelled.tidy fun l inLexemes => (parts l inLexemes).isVisible
      · exact Text.isPlain_terminated_append front (Lexeme.isPlain_of_spelled parts spelled)
          (Text.isPlain_terminated_append member.terminated_closing (isPlain_closing plainBody)
            (plainRest isPlain))

end Member
namespace ClassForm

open Text (Terminated)

/-- Whether the bodies have no comments, quotes and annotations. -/
def hasPlainBodies (form : ClassForm) : Bool :=
  form.members.all Member.hasPlainBody

theorem isWellFormed_mapBodies {form : ClassForm} (h : form.isWellFormed = true)
    (plain : form.hasPlainBodies = true) : (form.mapBodies Text.shown).isWellFormed = true := by
  simp only [isWellFormed, hasPlainBodies, mapBodies, Bool.and_eq_true, List.all_map,
    List.all_eq_true] at h plain ⊢
  exact ⟨h.1, fun member inMembers => Member.isWellFormed_mapBody (h.2 member inMembers)
    (plain member inMembers)⟩

theorem part_statementLexemes {form : ClassForm} (h : form.isWellFormed = true) :
    ∀ l ∈ form.statementLexemes, Lexeme.IsPart l := by
  intro l member
  refine (inner_statementLexemes h l member).imp_right fun isMark => ?_
  exact (by decide : ∀ t ∈ [[';'], ".*".toList], t ∈ Lexeme.outerMarks) l.text isMark

/-- The normalized text of a class is the class with its bodies normalized. -/
theorem written_tidy {form : ClassForm} (h : form.isWellFormed = true)
    (plain : form.hasPlainBodies = true) {t : Text} (written : form.Written t) :
    (form.mapBodies Text.shown).Written (Text.tidy t) ∧ Text.isPlain t = true := by
  obtain ⟨a, b, c, gap, gap', rfl, inStatements, inHeader, inMembers, blank, blank'⟩ := written
  have partsOf := part_statementLexemes h
  have partsHeader : ∀ l ∈ form.headerLexemes, Lexeme.IsPart l :=
    List.forall_mem_append.mpr ⟨fun l member => Or.inl (inner_headerLexemes h l member),
      List.forall_mem_singleton.mpr (Or.inr (by decide))⟩
  have endStatements := terminated_statements inStatements
  have endHeader : Terminated b := Member.terminated_of_last (by decide) inHeader
  obtain ⟨c', tidied, inMembers', plainMembers⟩ :=
    Member.written_tidy (parts h).name (parts h).members
    (List.all_eq_true.mp plain) inMembers (gap ++ '}' :: gap')
  obtain ⟨gap'', behind, blank'', -⟩ := Text.tidy_blanks_append blank (c := '}') (by decide) gap'
  rw [Text.tidy_visible (by decide)] at behind
  have plainEnd : Text.isPlain (gap ++ '}' :: gap') = true := by
    refine Text.isPlain_of_isSafe (List.forall_mem_append.mpr ⟨fun d member => ?_,
      List.forall_mem_cons.mpr ⟨by decide, fun d member => ?_⟩⟩)
    · exact Lexeme.isSafe_of_isBlank (blank d member)
    · exact Lexeme.isSafe_of_isBlank (blank' d member)
  refine ⟨⟨Text.tidy a, Text.tidy b, c', gap'', Text.tidy gap', ?_, ?_, ?_, inMembers', blank'',
    Text.blank_tidy blank'⟩, ?_⟩
  · rw [Text.tidy_terminated_append endStatements, Text.tidy_terminated_append endHeader,
      tidied, behind]
  · exact inStatements.tidy fun l member => (partsOf l member).isVisible
  · exact inHeader.tidy fun l member => (partsHeader l member).isVisible
  · exact Text.isPlain_terminated_append endStatements
      (Lexeme.isPlain_of_spelled partsOf inStatements)
      (Text.isPlain_terminated_append endHeader (Lexeme.isPlain_of_spelled partsHeader inHeader)
        (plainMembers plainEnd))

end ClassForm
end Testwright
