import Testwright.Proofs.Testing.Declaration
import Testwright.Proofs.Testing.Statement
import Testwright.Proofs.Text.Continuation
import Testwright.Proofs.Text.Scanning

namespace Testwright
namespace TestPlan

/-!
# What the scan makes of rendered tests

The lines of a generated body are ordinary code, character literals aside, and a line
comment may stand in front of them; so the scan is in code behind each line and leaves
no annotation sign in a body.  What is left of rendered tests declares every one of
them, and no annotation in it depends on what follows (`exists_scanned_renderTests`).
-/

open Character (isBlank isDottedPart isNamePart)
open Region (Calm Writes isCalm isQuiet)
open Text (Blank Drops NoArguments Opens Scanned Seam blank_nil scanned_separator)

/-! ## Ordinary code -/

/-- The scan may be cut anywhere around the text, and writes something without an
annotation sign for it. -/
structure Ordinary (t : Text) : Prop where
  calm : ∀ c ∈ t, isCalm c = true ∧ c ≠ '\r' ∧ c ≠ '\n'
  written : ∃ w, Writes t w ∧ '@' ∉ w

theorem ordinary_of_code {t : Text} (code : ∀ c ∈ t, isCodePart c = true) : Ordinary t where
  calm := fun c member => by
    have other := fun d => ne_of_isCodePart (d := d) (code c member)
    simp [isCalm, other '/' (by decide), other '*' (by decide), other '"' (by decide),
      other '\r' (by decide), other '\n' (by decide)]
  written := by
    refine ⟨t, Region.writes_quiet fun c member => ?_, fun member => ?_⟩
    · have other := fun d => ne_of_isCodePart (d := d) (code c member)
      simp [isQuiet, other '/' (by decide), other '\x27' (by decide), other '"' (by decide)]
    · exact ne_of_isCodePart (code '@' member) (by decide) rfl

theorem Ordinary.append {s t : Text} (first : Ordinary s) (second : Ordinary t) :
    Ordinary (s ++ t) where
  calm := List.forall_mem_append.mpr ⟨first.calm, second.calm⟩
  written := by
    rcases first.written with ⟨w, writes, absent⟩
    rcases second.written with ⟨w', writes', absent'⟩
    refine ⟨w ++ w', writes.append writes' (Or.inl fun c last => ?_), by simp [absent, absent']⟩
    exact (first.calm c (List.mem_of_getLast? last)).1

theorem Ordinary.scanned {t : Text} (h : Ordinary t) : ∃ w, Scanned t w ∧ '@' ∉ w := by
  rcases h.written with ⟨w, writes, absent⟩
  refine ⟨w, ?_, absent⟩
  rwa [Scanned, Text.unifyLineBreaks_of_not_mem fun member => (h.calm '\r' member).2.1 rfl]

theorem Ordinary.seam {t : Text} (h : Ordinary t) (s : Text) : Seam s t :=
  Text.seam_of_head (fun c head =>
    have calm := h.calm c (List.mem_of_head? head)
    ⟨calm.1, calm.2.2⟩) s

/-- What statements are composed of, the literals of characters included, is ordinary
code. -/
theorem Composed.ordinary {t : Text} (h : Composed t) : Ordinary t := by
  have quoted : Ordinary "'\\u0000'".toList :=
    ⟨by decide, ['\x27', '\x27'], ⟨by decide, by decide⟩, by decide⟩
  induction h with
  | code code => exact ordinary_of_code code
  | placeholder type =>
      rcases placeholder_cases type with literal | code
      · rw [literal]
        exact quoted
      · exact ordinary_of_code code
  | append _ _ first second => exact first.append second

/-! ## The parts of a test method -/

/-- What stands in front of the word `public` of a test method. -/
def leadOf (style : TestStyle) (separator : Text) : Convention → Text
  | .modern => style.indent ++ ("@Test".toList ++ (separator ++ style.indent))
  | .legacy => style.indent

/-- What stands behind the opening brace of a test method, with the empty line behind
the method. -/
def remainderOf (style : TestStyle) (target : ClassSurface) (separator : Text)
    (test : PlannedTest) : Text :=
  separator ++ (joinLines separator ((style.todoComment.toList ++ bodyLines target test.subject).map
    fun line => style.indent ++ style.indent ++ line) ++
      (style.indent ++ ['}'] ++ separator ++ separator))

/-- What stands between the word `public` of a test method and the line behind it. -/
def headingOf (name : Text) : Text :=
  " void ".toList ++ (name ++ "() throws Exception \x7b".toList)

/-! ## Lines -/

section Lines

variable {separator : Text} (isBreak : separator = ['\n'] ∨ separator = ['\r', '\n'])
include isBreak

theorem seam_behind_separator (s t : Text) : Seam (s ++ separator) t := by
  apply Text.seam_of_last
  intro c last
  have newline : (s ++ separator).getLast? = some '\n' := by
    rcases isBreak with rfl | rfl <;> simp
  rw [newline] at last
  rcases Option.some.inj last with rfl
  exact ⟨by decide, by decide⟩

theorem seam_of_joinLines (lines : List Text) (t : Text) : Seam (joinLines separator lines) t := by
  rcases List.eq_nil_or_concat lines with rfl | ⟨front, line, rfl⟩
  · exact Text.seam_of_last (by simp [joinLines]) t
  · have whole : joinLines separator (front ++ [line]) =
        joinLines separator front ++ line ++ separator := by
      simp [joinLines]
    rw [List.concat_eq_append, whole]
    exact seam_behind_separator isBreak _ t

theorem seam_behind_remainderOf {style : TestStyle} {target : ClassSurface} {test : PlannedTest}
    (s t : Text) :
    Seam (s ++ remainderOf style target separator test) t := by
  have whole : s ++ remainderOf style target separator test =
      s ++ (separator ++ (joinLines separator
      ((style.todoComment.toList ++ bodyLines target test.subject).map
        fun line => style.indent ++ style.indent ++ line) ++
          (style.indent ++ ['}'] ++ separator))) ++ separator := by
    simp [remainderOf]
  rw [whole]
  exact seam_behind_separator isBreak _ t

theorem blank_separator : Blank separator := by
  rcases isBreak with rfl | rfl <;> decide

theorem Ordinary.exists_scanned_line {gap line : Text} (blank : Blank gap) (h : Ordinary line) :
    ∃ w, Scanned (gap ++ line ++ separator) w ∧ '@' ∉ w := by
  by_cases some : line = []
  · subst some
    rcases Text.exists_scanned_blank (blank.append (blank_separator isBreak)) with
      ⟨w, scanned, blank'⟩
    exact ⟨w, by rwa [List.append_nil], Text.not_mem_sign_of_blank blank'⟩
  · rcases Text.exists_scanned_blank blank with ⟨g, front, blank'⟩
    rcases h.scanned with ⟨w, middle, absent⟩
    have ends : Seam (gap ++ line) separator := by
      apply Text.seam_of_last
      intro c last
      rw [List.getLast?_append_of_ne_nil _ some] at last
      have calm := h.calm c (List.mem_of_getLast? last)
      exact ⟨calm.1, calm.2.1⟩
    refine ⟨g ++ w ++ ['\n'],
      (front.append middle (h.seam gap)).append (scanned_separator isBreak) ends, ?_⟩
    simp [absent, Text.not_mem_sign_of_blank blank']

theorem exists_scanned_comment {gap line : Text} (blank : Blank gap)
    (comment : Text.IsLineComment line) :
    ∃ w, Scanned (gap ++ line ++ separator) (w ++ ['\n']) ∧ Blank w := by
  rcases comment with ⟨rest, rfl, noNewline, noReturn⟩
  rcases Text.exists_scanned_blank blank with ⟨g, front, blank'⟩
  have scanned : Scanned ('/' :: '/' :: (rest ++ separator)) [' ', '\n'] := by
    have unified : Text.unifyLineBreaks ('/' :: '/' :: (rest ++ separator)) =
        '/' :: '/' :: (rest ++ ['\n']) := by
      have absent : '\r' ∉ '/' :: '/' :: rest := by simp [noReturn]
      have parted : '/' :: '/' :: (rest ++ separator) = ('/' :: '/' :: rest) ++ separator := by simp
      rw [parted, Text.unifyLineBreaks_append fun last => absurd (List.mem_of_getLast? last) absent,
        Text.unifyLineBreaks_of_not_mem absent]
      rcases isBreak with rfl | rfl <;> rfl
    rw [Scanned, unified]
    exact Region.writes_lineComment noNewline
  have seam : Seam gap ('/' :: '/' :: (rest ++ separator)) :=
    { breaks := fun _ => by simp
      calm := Or.inl fun c last => Text.isCalm_of_isBlank (blank c (List.mem_of_getLast? last)) }
  refine ⟨g ++ [' '], ?_, blank'.append (by decide)⟩
  simpa using front.append scanned seam

theorem exists_scanned_joinLines {lines : List Text}
    (each : ∀ line ∈ lines, ∃ w, Scanned (line ++ separator) w ∧ '@' ∉ w) :
    ∃ w, Scanned (joinLines separator lines) w ∧ '@' ∉ w := by
  induction lines with
  | nil => exact ⟨[], Text.scanned_nil, List.not_mem_nil⟩
  | cons line lines ih =>
      rcases each line List.mem_cons_self with ⟨w, first, absent⟩
      rcases ih fun other member => each other (List.mem_cons_of_mem line member) with
        ⟨w', rest, absent'⟩
      exact ⟨w ++ w', first.append rest (seam_behind_separator isBreak line _),
        by simp [absent, absent']⟩

end Lines

theorem renderTest_append (style : TestStyle) (target : ClassSurface) (convention : Convention)
    (separator : Text) (test : PlannedTest) :
    renderTest style target convention separator test ++ separator =
      leadOf style separator convention ++ ("public".toList ++
        (headingOf (methodName style convention test) ++
          remainderOf style target separator test)) := by
  cases convention <;>
    simp [renderTest, testLines, joinLines, leadOf, remainderOf, headingOf, List.flatMap_append]

/-- What the scan makes of the text in front of the word `public`. -/
def IsLead (w : Text) : Convention → Prop
  | .modern => ∃ gap gap', w = gap ++ ("@Test".toList ++ gap') ∧ Blank gap ∧ Blank gap' ∧ gap' ≠ []
  | .legacy => Blank w

theorem IsLead.exists_drops {convention : Convention} {lead : Text} (h : IsLead lead convention) :
    ∃ w, Blank w ∧ ∀ t, Drops lead ("public".toList ++ t) w := by
  cases convention with
  | legacy => exact ⟨lead, h, fun t => Text.drops_of_not_mem (Text.not_mem_sign_of_blank h) _⟩
  | modern =>
      rcases h with ⟨gap, gap', rfl, blank, blank', some⟩
      refine ⟨gap ++ ' ' :: gap', blank.append (List.forall_mem_cons.mpr ⟨by decide, blank'⟩),
        fun t => ?_⟩
      have stops : Matcher.Stops isDottedPart (gap' ++ ("public".toList ++ t)) := by
        rcases List.exists_cons_of_ne_nil some with ⟨c, gap', rfl⟩
        exact Character.not_isDottedPart_of_isBlank (blank' c List.mem_cons_self)
      have none : NoArguments (gap' ++ ("public".toList ++ t)) :=
        Text.noArguments_of_visible blank' (by decide) (by decide) _
      have mark : Text.IsMark ('@' :: ([] ++ "Test".toList)) (gap' ++ ("public".toList ++ t)) :=
        .bare blank_nil (by decide) (by decide) stops none
      have after := Text.drops_of_not_mem (Text.not_mem_sign_of_blank blank') ("public".toList ++ t)
      have marked : Drops ("@Test".toList ++ gap') ("public".toList ++ t) (' ' :: gap') :=
        .mark mark after
      exact (Text.drops_of_not_mem (Text.not_mem_sign_of_blank blank) _).append marked

theorem IsLead.plain {convention : Convention} {lead : Text} (h : IsLead lead convention) :
    ∀ c ∈ lead, Matcher.isParenthesis c = false := by
  have ofBlank : ∀ gap : Text, Blank gap → ∀ c ∈ gap, Matcher.isParenthesis c = false := by
    intro gap blank c member
    cases parenthesis : Matcher.isParenthesis c with
    | false => rfl
    | true =>
        simp only [Matcher.isParenthesis, Bool.or_eq_true, beq_iff_eq] at parenthesis
        rcases parenthesis with rfl | rfl <;> exact absurd (blank _ member) (by decide)
  cases convention with
  | legacy => exact ofBlank lead h
  | modern =>
      rcases h with ⟨gap, gap', rfl, blank, blank', -⟩
      exact List.forall_mem_append.mpr ⟨ofBlank gap blank, List.forall_mem_append.mpr
        ⟨by decide, ofBlank gap' blank'⟩⟩

theorem isNamePart_of_mem_methodName {style : TestStyle} (usual : style.IsUsual)
    {convention : Convention} {test : PlannedTest} (inName : ∀ c ∈ test.name, isNamePart c = true) :
    ∀ c ∈ methodName style convention test, isNamePart c = true := by
  cases convention with
  | modern => exact inName
  | legacy => exact List.forall_mem_append.mpr ⟨usual.legacyPrefix, inName⟩

theorem declares_headingOf (style : TestStyle) (convention : Convention) (test : PlannedTest)
    (t : Text) :
    Declares style.legacyPrefix test.name (headingOf (methodName style convention test) ++ t) := by
  refine ⟨[' '], "void".toList ++ ([' '] ++ (methodName style convention test ++ ([] ++ ['(']))),
    ") throws Exception \x7b".toList ++ t, by simp [headingOf],
    ⟨[' '], _, [], rfl, by decide, by decide, ?_,
      blank_nil⟩, by decide⟩
  cases convention with
  | modern => exact Or.inl rfl
  | legacy => exact Or.inr rfl

theorem opens_headingOf {name : Text} (inName : ∀ c ∈ name, isNamePart c = true) (t : Text) :
    Opens (headingOf name ++ t) := by
  refine ⟨" void ".toList ++ name, ") throws Exception \x7b".toList ++ t, by simp [headingOf], ?_,
    'v', by simp, by decide⟩
  refine List.forall_mem_append.mpr ⟨by decide, fun c member => ?_⟩
  have other : ∀ d, isNamePart d = false → c ≠ d := by
    rintro d noName rfl
    rw [inName c member] at noName
    cases noName
  simp [Matcher.isParenthesis, other '(' (by decide), other ')' (by decide)]

section Methods

variable {style : TestStyle} (usual : style.IsUsual) {target : ClassSurface}
  (named : target.IsNamed) {separator : Text}
  (isBreak : separator = ['\n'] ∨ separator = ['\r', '\n'])
include usual isBreak

theorem exists_scanned_leadOf (convention : Convention) :
    ∃ w, Scanned (leadOf style separator convention) w ∧ IsLead w convention := by
  rcases Text.exists_scanned_blank usual.indent with ⟨gap, scanned, blank⟩
  cases convention with
  | legacy => exact ⟨gap, scanned, blank⟩
  | modern =>
      have mark : Scanned "@Test".toList "@Test".toList := Text.scanned_quiet (by decide)
      have behind := (scanned_separator isBreak).append scanned (seam_behind_separator isBreak [] _)
      have marked :=
        mark.append behind (Text.seam_of_concat (c := 't') (by decide) (by decide) (by decide) _)
      have seam : Seam style.indent ("@Test".toList ++ (separator ++ style.indent)) :=
        Text.seam_of_cons (by decide) (by decide) style.indent
          ("Test".toList ++ (separator ++ style.indent))
      refine ⟨gap ++ ("@Test".toList ++ (['\n'] ++ gap)), scanned.append marked seam, gap,
        ['\n'] ++ gap, rfl, blank, ?_, by simp⟩
      exact Blank.append (by decide) blank

include named

theorem exists_scanned_remainderOf {test : PlannedTest} (subject : test.subject.IsNamed) :
    ∃ w, Scanned (remainderOf style target separator test) (w ++ ['\n']) ∧ '@' ∉ w := by
  have each : ∀ line ∈ (style.todoComment.toList ++ bodyLines target test.subject).map
      (fun line => style.indent ++ style.indent ++ line), ∃ w,
      Scanned (line ++ separator) w ∧ '@' ∉ w := by
    intro line member
    rcases List.mem_map.mp member with ⟨content, inside, rfl⟩
    rcases List.mem_append.mp inside with comment | body
    · rcases exists_scanned_comment isBreak (usual.indent.append usual.indent)
        (usual.todoComment content (Option.mem_toList.mp comment)) with ⟨w, scanned, blank⟩
      exact ⟨w ++ ['\n'], scanned, by simp [Text.not_mem_sign_of_blank blank]⟩
    · exact (composed_of_mem_bodyLines named subject content body).ordinary.exists_scanned_line
        isBreak
        (usual.indent.append usual.indent)
  rcases exists_scanned_joinLines isBreak each with ⟨body, scannedBody, noBody⟩
  have brace : Ordinary ['}'] := ordinary_of_code (by decide)
  rcases brace.exists_scanned_line isBreak usual.indent with ⟨close, scannedClose, noClose⟩
  have closed := scannedClose.append (scanned_separator isBreak) (seam_behind_separator isBreak _ _)
  have inside := scannedBody.append closed (seam_of_joinLines isBreak _ _)
  have whole := (scanned_separator isBreak).append inside (seam_behind_separator isBreak [] _)
  refine ⟨['\n'] ++ (body ++ close), by simpa [remainderOf] using whole, by simp [noBody, noClose]⟩

/-- What the scan makes of a test method from its heading on, with the empty line
behind it. -/
theorem exists_scanned_heading (convention : Convention) {test : PlannedTest}
    (subject : test.subject.IsNamed) (inName : ∀ c ∈ test.name, isNamePart c = true) :
    ∃ w, Scanned
      (headingOf (methodName style convention test) ++ remainderOf style target separator test)
        (headingOf (methodName style convention test) ++ (w ++ ['\n'])) ∧
      '@' ∉ headingOf (methodName style convention test) ++ (w ++ ['\n']) := by
  rcases exists_scanned_remainderOf usual named isBreak subject with ⟨w, remainder, absent⟩
  have inHeading : ∀ c ∈ headingOf (methodName style convention test), isCodePart c = true := by
    have inMethodName : ∀ c ∈ methodName style convention test, isNamePart c = true :=
      isNamePart_of_mem_methodName usual inName
    exact List.forall_mem_append.mpr ⟨by decide, List.forall_mem_append.mpr
      ⟨fun c member => isCodePart_of_isNamePart (inMethodName c member), by decide⟩⟩
  have ordinary := ordinary_of_code inHeading
  have noSign : '@' ∉ headingOf (methodName style convention test) := fun member =>
    ne_of_isCodePart (inHeading '@' member) (by decide) rfl
  have heading : Scanned (headingOf (methodName style convention test))
      (headingOf (methodName style convention test)) := by
    apply Text.scanned_quiet
    intro c member
    have other := fun d => ne_of_isCodePart (d := d) (inHeading c member)
    simp [isQuiet, other '/' (by decide), other '\x27' (by decide), other '"' (by decide),
      other '\r' (by decide)]
  refine ⟨w, heading.append remainder (Text.seam_of_last ?_ _), by simp [noSign, absent]⟩
  intro c last
  have calm := ordinary.calm c (List.mem_of_getLast? last)
  exact ⟨calm.1, calm.2.1⟩

/-- Rendered tests from the first heading on keep their annotations to themselves, and
what is left of them declares each of them. -/
theorem exists_scanned_renderTests (convention : Convention) {test : PlannedTest}
    {tests : List PlannedTest} (subjects : ∀ other ∈ test :: tests, other.subject.IsNamed)
    (names : ∀ other ∈ test :: tests, ∀ c ∈ other.name, isNamePart c = true) :
    ∃ v w, Scanned
      (headingOf (methodName style convention test) ++ remainderOf style target separator test ++
          renderTests style target convention separator tests)
        (headingOf (methodName style convention test) ++ v) ∧
      (∀ t, Drops (headingOf (methodName style convention test) ++ v) t w) ∧ w.head? = some ' ' ∧
      ∀ other ∈ test :: tests, Declares style.legacyPrefix other.name w := by
  induction tests generalizing test with
  | nil =>
      rcases exists_scanned_heading usual named isBreak convention
        (subjects test List.mem_cons_self)
        (names test List.mem_cons_self) with ⟨r, heading, noSign⟩
      refine ⟨r ++ ['\n'], _, ?_, Text.drops_of_not_mem noSign, rfl, ?_⟩
      · simpa [renderTests] using heading
      · rw [List.forall_mem_singleton]
        exact declares_headingOf style convention test _
  | cons next tests ih =>
      rcases exists_scanned_heading usual named isBreak convention
        (subjects test List.mem_cons_self)
        (names test List.mem_cons_self) with ⟨r, heading, noSign⟩
      rcases exists_scanned_leadOf usual isBreak convention with ⟨lead, scannedLead, isLead⟩
      rcases ih (fun other member => subjects other (List.mem_cons_of_mem test member))
        (fun other member => names other (List.mem_cons_of_mem test member)) with
        ⟨v, w, behind, drops, first, declared⟩
      have word : Scanned "public".toList "public".toList := Text.scanned_quiet (by decide)
      have inner :=
        word.append behind (Text.seam_of_concat (c := 'c') (by decide) (by decide) (by decide) _)
      have marked :=
        scannedLead.append inner (Text.seam_of_cons (by decide) (by decide) _ ("ublic".toList ++ _))
      have whole := heading.append marked (seam_behind_remainderOf isBreak _ _)
      rcases isLead.exists_drops with ⟨lead', -, leadDrops⟩
      have noSign' : '@' ∉ "public".toList := by decide
      refine ⟨r ++ ['\n'] ++
        (lead ++ ("public".toList ++ (headingOf (methodName style convention next) ++ v))),
        headingOf (methodName style convention test) ++ (r ++ ['\n']) ++
          (lead' ++ ("public".toList ++ w)),
        ?_, fun t => ?_, rfl, ?_⟩
      · have tests : renderTests style target convention separator (next :: tests) =
            leadOf style separator convention ++ ("public".toList ++
              (headingOf (methodName style convention next) ++
                remainderOf style target separator next ++
                renderTests style target convention separator tests)) := by
          have first := renderTest_append style target convention separator next
          simp only [renderTests, List.flatMap_cons, first, List.append_assoc]
        rw [tests]
        simpa using whole
      · have inPublic :
            Drops ("public".toList ++ (headingOf (methodName style convention next) ++ v)) t
            ("public".toList ++ w) := (Text.drops_of_not_mem noSign' _).append (drops t)
        have inLead := leadDrops (headingOf (methodName style convention next) ++ v ++ t)
        rw [← List.append_assoc] at inLead
        have behind := inLead.append inPublic
        have front := (Text.drops_of_not_mem noSign (lead ++ ("public".toList ++
          (headingOf (methodName style convention next) ++ v)) ++ t)).append behind
        simpa using front
      · rw [List.forall_mem_cons]
        refine ⟨?_, fun other member => ?_⟩
        · rw [List.append_assoc]
          exact declares_headingOf style convention test _
        · have apart : w.head?.any Character.isWord = false := by rw [first]; decide
          rw [← List.append_assoc]
          rw [← List.append_assoc]
          exact (declared other member).append_left (Or.inr apart)

end Methods

end TestPlan
end Testwright
