import Testwright.Proofs.Declaration.ClassSpelling

namespace Testwright

/-!
# No statement among the members

A reader of package or import statements finds none in a header or in a member.
Where the lexemes end with a brace, no semicolon comes first.  Where they end with
a semicolon, a bracket or a parenthesis stands in front of what is left to
consider; a field with a bare type has none, and its type must not end in the
word.  Bodies do not mention the word.
-/

open Lexeme (Spelled behindBlank near partFirst)

namespace TypeTree

/-- A declared type is a bare name, or it ends with a bracket. -/
theorem bare_or_bracket {type : TypeTree} (h : type.isDeclared = true) :
    (type.lexemes = [near type.name] ∧ type.arguments = [] ∧ type.dimensions = 0) ∨
      ∃ first more d, type.lexemes = first :: (more ++ [near [d]]) ∧ (d = '>' ∨ d = ']') := by
  obtain ⟨name, arguments, dimensions, token⟩ := type
  have single := Declaration.nameLexemes_of_isDottedName (Bool.and_eq_true_iff.mp h).1
  have brackets : ∀ dimensions, ∃ more, bracketLexemes (dimensions + 1) = more ++ [near [']']] := by
    intro dimensions
    induction dimensions with
    | zero => exact ⟨[near ['[']], rfl⟩
    | succ dimensions ih =>
        obtain ⟨more, shape⟩ := ih
        exact ⟨near ['['] :: near [']'] :: more, by rw [bracketLexemes, shape]; rfl⟩
  have front : ∃ more, lexemes ⟨name, arguments, dimensions, token⟩ =
      near name :: (more ++ bracketLexemes dimensions) ∧
        (arguments = [] ∧ more = [] ∨ ∃ inside, more = inside ++ [near ['>']]) := by
    cases arguments with
    | nil => exact ⟨[], by rw [lexemes, single]; rfl, Or.inl ⟨rfl, rfl⟩⟩
    | cons first rest =>
        refine ⟨near ['<'] :: (first.lexemes ++ lexemesRest rest ++ [near ['>']]), ?_,
          Or.inr ⟨near ['<'] :: (first.lexemes ++ lexemesRest rest), rfl⟩⟩
        rw [lexemes, single]
        simp
  obtain ⟨more, shape, inside⟩ := front
  cases dimensions with
  | succ dimensions =>
      obtain ⟨last, brackets⟩ := brackets dimensions
      exact Or.inr ⟨near name, more ++ last, ']',
        by rw [shape, brackets, List.append_assoc], Or.inr rfl⟩
  | zero =>
      rcases inside with ⟨rfl, rfl⟩ | ⟨inside, rfl⟩
      · exact Or.inl ⟨shape, rfl, rfl⟩
      · exact Or.inr ⟨near name, inside, '>', by simpa [bracketLexemes] using shape, Or.inl rfl⟩

end TypeTree

namespace Lexeme

open Character (isBlank isNamePart isWord)
open Declaration (isDottedName isIdentifier)
open Matcher (Silent Stops)
open Text (Blank)

theorem not_isWord_of_mem_statementMarks {d : Char} (isMark : d ∈ statementMarks) :
    isWord d = false :=
  (by decide : ∀ d ∈ statementMarks, isWord d = false) d isMark

/-- Only the last lexemes of a declaration have a semicolon. -/
theorem not_mem_semicolon {l : Lexeme} (inner : IsInner l) : ';' ∉ l.text := fun member =>
  absurd (inner.undivided _ member) (by decide)

section

variable {α : Type} {m : Matcher α} {w : Text} {opens passes : Char → Bool}
  (statement : IsStatement m w opens passes)
include statement

theorem silent_of_last {lexemes : List Lexeme} (noEnd : ∀ l ∈ lexemes, ';' ∉ l.text) {d : Char}
    (isMark : d ∈ statementMarks) (other : d ≠ ';') {t : Text}
    (spelled : Spelled (lexemes ++ [near [d]]) t) (behind rest : Text) :
    Silent m behind t rest := by
  obtain ⟨s, _, rfl, inS, atEnd⟩ := spelled_append.mp spelled
  obtain ⟨gap, rfl, blank, -⟩ := spelled_singleton.mp atEnd
  have absent : ';' ∉ s ++ gap := by
    simp only [List.mem_append, not_or]
    refine ⟨fun member => ?_, fun member => absurd (blank _ member) (by decide)⟩
    exact inS.forall_mem (P := (· ≠ ';')) (fun c blankC same => by subst same; cases blankC)
      (fun l inLexemes c inText same => noEnd l inLexemes (same ▸ inText)) _ member rfl
  rw [near_text, ← List.append_assoc]
  exact silent_through_mark statement absent (statement.marks d isMark).1 other
    (not_isWord_of_mem_statementMarks isMark) behind rest

variable (isStatementWord : w ∈ Member.statementWords)
include isStatementWord

theorem silent_of_semicolon {lexemes : List Lexeme} (sound : IsSound lexemes)
    (chain : lexemes.IsChain (Guards [w] opens)) {t : Text}
    (spelled : Spelled (lexemes ++ [near [';']]) t) (behind rest : Text) :
    Silent m behind t rest := by
  have mark : IsMark (near [';']) := isMark_last (Or.inr rfl)
  have closed : Text.endsIn [';'] w = false := by
    have none : ∀ w ∈ Member.statementWords, Text.endsIn [';'] w = false := by decide
    exact none w isStatementWord
  refine silent_of_guarded statement.opened (sound.append_mark mark isSound_nil) ?_ spelled
    (fun l member => ?_) behind
  · refine List.isChain_append.mpr ⟨chain, List.isChain_singleton _, fun a _ b head => Or.inr ?_⟩
    intro c first
    rw [← Option.some.inj head] at first
    rw [← Option.some.inj first]
    exact (statement.marks ';' (by decide)).2
  · rw [List.getLast?_concat, Option.mem_some_iff] at member
    subst member
    exact ⟨Or.inl mark, by simpa using closed⟩

omit statement in
theorem guards_of_text {first : Lexeme}
    (text : first.text ∈ [[')'], [','], "throws".toList, "private".toList]) (second : Lexeme) :
    Guards [w] opens first second := by
  have none : ∀ w ∈ Member.statementWords,
      ∀ t ∈ [[')'], [','], "throws".toList, "private".toList], Text.endsIn t w = false := by decide
  refine Or.inl fun v isWord => ?_
  rw [List.mem_singleton.mp isWord]
  exact none w isStatementWord first.text text

omit isStatementWord in
theorem guards_before_comma (first : Lexeme) {second : Lexeme} (text : second.text = [',']) :
    Guards [w] opens first second := by
  refine Or.inr fun c head => ?_
  rw [text] at head
  rw [← Option.some.inj head]
  exact (statement.marks ',' (by decide)).2

theorem chain_names (names : List Text) :
    (commaLexemes (names.map fun name => [near name])).IsChain (Guards [w] opens) := by
  induction names with
  | nil => exact List.isChain_nil
  | cons first names ih =>
      cases names with
      | nil => exact List.isChain_singleton _
      | cons second names =>
          exact List.isChain_cons_cons.mpr ⟨guards_before_comma statement _ rfl,
            isChain_behind (guards_of_text isStatementWord (by decide)) ih⟩

theorem chain_throwsLexemes (thrown : List Text) :
    (near [')'] :: throwsLexemes thrown).IsChain (Guards [w] opens) := by
  refine isChain_behind (guards_of_text isStatementWord (by decide)) ?_
  cases thrown with
  | nil => exact List.isChain_nil
  | cons first rest =>
      refine isChain_behind (guards_of_text isStatementWord (by decide)) ?_
      have names := chain_names statement isStatementWord (first :: rest)
      cases rest with
      | nil => exact List.isChain_singleton _
      | cons second rest =>
          exact List.isChain_cons_cons.mpr ⟨guards_before_comma statement _ rfl,
            (List.isChain_cons_cons.mp names).2⟩

/-- No statement begins in a declaration with a parameter list. -/
theorem silent_listed {heading parameters : List Lexeme} {thrown : List Text} {last : Char}
    (inHeading : ∀ l ∈ heading, IsInner l) (inner : ∀ l ∈ parameters, IsInner l)
    (dotted : ∀ name ∈ thrown, isDottedName name = true) (isLast : last = '\x7b' ∨ last = ';')
    {t : Text} (spelled : Spelled (listedLexemes heading parameters thrown last) t)
    (behind rest : Text) : Silent m behind t rest := by
  have noEnd : ∀ l ∈ heading ++ near ['('] :: parameters, ';' ∉ l.text := by
    simp only [List.forall_mem_append, List.forall_mem_cons]
    exact ⟨fun l member => not_mem_semicolon (inHeading l member), by decide,
      fun l member => not_mem_semicolon (inner l member)⟩
  have clause := isList_throwsLexemes dotted
  rcases isLast with rfl | rfl
  · have shape : listedLexemes heading parameters thrown '\x7b' =
        (heading ++ near ['('] :: parameters ++ near [')'] :: throwsLexemes thrown) ++
          [near ['\x7b']] := by
      simp [listedLexemes]
    rw [shape] at spelled
    refine silent_of_last statement (List.forall_mem_append.mpr ⟨noEnd, ?_⟩) (by decide) (by decide)
      spelled behind rest
    exact List.forall_mem_cons.mpr ⟨by decide, fun l member =>
      not_mem_semicolon (clause.inner l member)⟩
  · have shape : listedLexemes heading parameters thrown ';' =
        (heading ++ near ['('] :: parameters ++ [near [')']]) ++
          (throwsLexemes thrown ++ [near [';']]) := by
      simp [listedLexemes]
    rw [shape] at spelled
    obtain ⟨s, u, rfl, front, back⟩ := spelled_append.mp spelled
    refine Matcher.silent_append.mpr
      ⟨silent_of_last statement noEnd (by decide) (by decide) front _ _, ?_⟩
    exact silent_of_semicolon statement isStatementWord clause.sound
      (List.IsChain.tail (chain_throwsLexemes statement isStatementWord thrown)) back _ _

/-- No statement begins in a field. -/
theorem silent_field {type : TypeTree} {name : Text} (h : type.isDeclared = true)
    (isName : isIdentifier name = true) (unlike : Member.isUnlikeStatement type = true)
    {className t : Text} (spelled : Spelled (Member.lexemes className (.field type name)) t)
    (behind rest : Text) : Silent m behind t rest := by
  have word : IsWord (behindBlank name) :=
    isWord_of_isKeyword (ConstructorForm.isKeyword_of_isIdentifier isName)
  have private' : IsWord (near "private".toList) := ⟨by decide, by decide⟩
  have guard : ∀ l, Guards [w] opens (near "private".toList) l :=
    guards_of_text isStatementWord (by decide)
  rcases type.bare_or_bracket h with
    ⟨bare, noArguments, noDimensions⟩ | ⟨first, more, d, shape, isMark⟩
  · have typeWord : IsWord (behindBlank type.name) :=
      ⟨Declaration.isDottedName_ne_nil (Bool.and_eq_true_iff.mp h).1,
        Declaration.isDottedPart_of_isDottedName (Bool.and_eq_true_iff.mp h).1⟩
    have sound : IsSound [near "private".toList, behindBlank type.name, behindBlank name] :=
      ⟨by simp only [List.forall_mem_cons, List.not_mem_nil, false_imp_iff, implies_true, and_true,
          private', typeWord, word, true_or],
        List.isChain_cons_cons.mpr ⟨Or.inl rfl, List.isChain_pair.mpr (Or.inl rfl)⟩⟩
    have ends : Text.endsIn type.name w = false := by
      simp only [Member.isUnlikeStatement, noArguments, noDimensions, List.isEmpty_nil,
        Bool.not_true, Nat.lt_irrefl, decide_false, Bool.false_or, List.all_eq_true,
        Bool.not_eq_true'] at unlike
      exact unlike w isStatementWord
    have chain : [near "private".toList, behindBlank type.name, behindBlank name].IsChain
        (Guards [w] opens) :=
      List.isChain_cons_cons.mpr ⟨guard _, List.isChain_pair.mpr (Or.inl (by simpa using ends))⟩
    rw [Member.lexemes, bare] at spelled
    exact silent_of_semicolon statement isStatementWord sound chain spelled behind rest
  · have parted : Member.lexemes className (.field type name) =
        (near "private".toList :: behindBlank first.text :: more ++ [near [d]]) ++
          ([behindBlank name] ++ [near [';']]) := by
      simp [Member.lexemes, shape, partFirst]
    rw [parted] at spelled
    obtain ⟨s, u, rfl, front, back⟩ := spelled_append.mp spelled
    have inner := (TypeTree.isList_lexemes (TypeTree.isSpellable_of_isDeclared h)).inner
    rw [shape] at inner
    have noEnd : ∀ l ∈ near "private".toList :: behindBlank first.text :: more, ';' ∉ l.text := by
      simp only [List.forall_mem_cons]
      refine ⟨by decide, not_mem_semicolon (inner first List.mem_cons_self), fun l member => ?_⟩
      exact not_mem_semicolon (inner l (by simp [member]))
    have mark : d ∈ statementMarks ∧ d ≠ ';' := by
      rcases isMark with rfl | rfl <;> decide
    exact Matcher.silent_append.mpr ⟨silent_of_last statement noEnd mark.1 mark.2 front _ _,
      silent_of_semicolon statement isStatementWord (isSound_singleton (Or.inl word))
        (List.isChain_singleton _) back _ _⟩

/-- No statement begins in a member, with its body and all. -/
theorem silent_member {className : Text} (isClass : isIdentifier className = true) {member : Member}
    (h : member.isWellFormed className = true) {t : Text}
    (spelled : Spelled (member.lexemes className) t) (behind rest : Text) :
    Silent m behind (t ++ member.closing) rest := by
  have body : ∀ b : Text, Text.mentions b w = false → ∀ behind,
      Silent m behind (b ++ ['}']) rest := by
    intro b unmentioned behind
    refine Matcher.silent_append.mpr
      ⟨silent_of_unmentioned statement unmentioned (by decide) _ _, ?_⟩
    exact silent_of_not_word statement.opened (by decide) _ _
  cases member with
  | field type name =>
      simp only [Member.isWellFormed, Bool.and_eq_true] at h
      simpa [Member.closing, Member.body] using
        silent_field statement isStatementWord h.1.1 h.1.2 h.2 spelled behind rest
  | constructor form =>
      simp only [Member.isWellFormed, Bool.and_eq_true, List.all_eq_true, Bool.not_eq_true'] at h
      have parts := ConstructorForm.parts h.1
      exact Matcher.silent_append.mpr ⟨silent_listed statement isStatementWord
        (ConstructorForm.inner_headingLexemes h.1 isClass)
        (ParameterForm.isList_listLexemes parts.parameters).inner parts.thrown
          (Or.inl rfl) spelled _ _,
        body form.body (h.2 w isStatementWord) _⟩
  | method form =>
      simp only [Member.isWellFormed, Bool.and_eq_true, List.all_eq_true] at h
      have parts := MethodForm.parts h.1.1
      refine Matcher.silent_append.mpr ⟨silent_listed statement isStatementWord
        (MethodForm.inner_headingLexemes h.1.1)
        (ParameterForm.isList_listLexemes parts.parameters).inner parts.thrown form.last_eq
          spelled _ _, ?_⟩
      have unmentioned := h.2 w isStatementWord
      rw [Member.closing, Member.body]
      cases bodyOf : form.body with
      | none => exact Matcher.silent_nil m _ rest
      | some b =>
          rw [bodyOf] at unmentioned
          exact body b (by simpa using unmentioned) _

omit isStatementWord in
/-- No statement begins in the header of a class. -/
theorem silent_header {form : ClassForm} (h : form.isWellFormed = true) {t : Text}
    (spelled : Spelled form.headerLexemes t) (behind rest : Text) : Silent m behind t rest := by
  exact silent_of_last statement
    (fun l member => not_mem_semicolon (ClassForm.inner_headerLexemes h l member))
      (by decide) (by decide)
    spelled behind rest

/-- No statement begins behind the statements of a class. -/
theorem silent_members {className : Text} (isClass : isIdentifier className = true)
    {members : List Member} (h : ∀ member ∈ members, member.isWellFormed className = true)
    {t : Text} (written : Member.Written className members t) (behind rest : Text) :
    Silent m behind t rest := by
  induction members generalizing t behind with
  | nil =>
      cases written
      exact Matcher.silent_nil m behind rest
  | cons member members ih =>
      obtain ⟨s, later, rfl, spelled, others⟩ := written
      rw [← List.append_assoc]
      exact Matcher.silent_append.mpr
        ⟨silent_member statement isStatementWord isClass (h member List.mem_cons_self) spelled _ _,
          ih (fun other inRest => h other (List.mem_cons_of_mem member inRest)) others _⟩

end

end Lexeme
end Testwright
