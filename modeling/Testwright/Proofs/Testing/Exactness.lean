import Testwright.Proofs.Testing.ReadBack

namespace Testwright
namespace TestPlan

/-!
# The tests that a rendered source lacks

A rendered source declares the tests it was rendered for and no others.  It is
normalized to lines (`lined_render`), each ends with a mark that no declaration holds,
so it declares what its lines declare (`declares_lined_iff`).  A heading declares its
own name and nothing else (`declares_heading_iff`); a statement of a body declares
nothing, since in front of a parenthesis it has no blank, or a `v` or a parenthesis is
lacking (`not_declares_of_mem_bodyLines`).  So the tests that are lacking are those of the
plan whose names are not among the rendered ones (`lacking_render`).
-/

open Character (isBlank isNamePart isWord)
open Text (Blank Lined NormalizesTo Terminated Visible)

variable {legacyPrefix name : Text} (inPrefix : ∀ c ∈ legacyPrefix, isNamePart c = true)
  (inName : ∀ c ∈ name, isNamePart c = true)

/-! ## Lines -/

theorem not_isNamePart_of_isTerminator {c : Char} (terminator : Text.isTerminator c = true) :
    isNamePart c = false ∧ isBlank c = false ∧ c ≠ '(' := by
  simp only [Text.isTerminator, Bool.or_eq_true, beq_iff_eq] at terminator
  rcases terminator with (rfl | rfl) | rfl <;> decide

theorem not_declares_of_not_mem {t : Text} (none : '(' ∉ t ∨ 'v' ∉ t) :
    ¬ Declares legacyPrefix name t := by
  intro h
  rcases none with noParenthesis | noLetter
  · exact noParenthesis h.mem.2.1
  · exact noLetter h.mem.1

include inPrefix inName in
/-- A text declares what its lines declare, if a mark ends each of them. -/
theorem declares_lined_iff {lines : List Text} {t : Text} (ended : ∀ line ∈ lines, Terminated line)
    (h : Lined lines t) :
    Declares legacyPrefix name t ↔ ∃ line ∈ lines, Declares legacyPrefix name line := by
  have newline : Blank ['\n'] := by decide
  induction h with
  | nil => exact iff_of_false (not_declares_of_not_mem (Or.inl List.not_mem_nil)) (by simp)
  | @gap gap lines t blank later ih =>
      have wide := blank.append newline
      have cut : gap ++ '\n' :: t = (gap ++ ['\n']) ++ t := by simp
      refine Iff.trans ?_ (ih ended)
      rw [cut]
      exact ⟨fun h => h.of_blank_append wide,
        fun h => h.append_left (Or.inl (Text.not_word_last_of_blank wide))⟩
  | @line gap line lines t blank later ih =>
      have here := ended line List.mem_cons_self
      have rest := ih fun other member => ended other (List.mem_cons_of_mem line member)
      have inFront : (gap ++ line ++ ['\n']).getLast?.any isWord = false := by simp; decide
      constructor
      · intro h
        have inLine : Declares legacyPrefix name line ∨ Declares legacyPrefix name ('\n' :: t) := by
          rcases here with rfl | ⟨a, c, rfl, terminator⟩
          · exact Or.inr (h.of_blank_append blank)
          · have mark := not_isNamePart_of_isTerminator terminator
            have cut := h.of_blank_append blank
            rw [List.append_assoc] at cut
            exact (cut.of_cut inPrefix inName mark.1 mark.2.1 mark.2.2).imp_left fun h =>
              h.append_right [c]
        rcases inLine with declared | behind
        · exact ⟨line, List.mem_cons_self, declared⟩
        · rcases rest.mp (behind.of_blank_append newline) with ⟨other, member, declared⟩
          exact ⟨other, List.mem_cons_of_mem line member, declared⟩
      · rintro ⟨other, member, declared⟩
        rcases List.mem_cons.mp member with rfl | member
        · exact (declared.append_right _).append_left (Or.inl (Text.not_word_last_of_blank blank))
        · have behind :=
            (rest.mpr ⟨other, member, declared⟩).append_left (u := gap ++ line ++ ['\n'])
              (Or.inl inFront)
          simpa using behind

/-! ## Statements -/

include inPrefix inName in
/-- Nothing is declared by a call whose name has no blanks in it. -/
theorem not_declares_call {called rest : Text} (visible : Visible called)
    (none : '(' ∉ rest ∨ 'v' ∉ rest) :
    ¬ Declares legacyPrefix name (called ++ '(' :: rest) := by
  intro h
  rcases h.of_parenthesis inPrefix inName with front | behind
  · rcases front.mem.2.2 with ⟨c, member, blank⟩
    have shown : Visible (called ++ ['(']) := List.forall_mem_append.mpr ⟨visible, by decide⟩
    rw [shown c member] at blank
    cases blank
  · exact not_declares_of_not_mem none behind

include inPrefix inName in
/-- An assignment declares nothing if its right side does not. -/
theorem not_declares_assignment {front value : Text} (left : '(' ∉ front)
    (right : ¬ Declares legacyPrefix name value) :
    ¬ Declares legacyPrefix name (front ++ '=' :: value) := by
  intro h
  rcases h.of_cut inPrefix inName (by decide) (by decide) (by decide) with inFront | behind
  · exact not_declares_of_not_mem (Or.inl left) inFront
  · exact right behind

include inPrefix inName in
/-- A declaration holds no literal, so one that is left between empty literals was there
before. -/
theorem declares_of_blanked {s w : Text} (blanked : Blanked s w) {a b : Text}
    (h : Declares legacyPrefix name (a ++ (w ++ b))) :
    Declares legacyPrefix name (a ++ (s ++ b)) := by
  induction blanked generalizing a b with
  | code code => exact h
  | literal =>
      have quote : isNamePart '\x27' = false ∧ isBlank '\x27' = false ∧ '\x27' ≠ '(' := by decide
      have parts : Declares legacyPrefix name a ∨ Declares legacyPrefix name b := by
        refine (h.of_cut inPrefix inName quote.1 quote.2.1 quote.2.2).imp_right fun behind => ?_
        exact behind.of_append_left (u := ['\x27']) (by decide)
      rcases parts with inFront | behind
      · exact inFront.append_right _
      · rw [← List.append_assoc]
        exact behind.append_left
          (Or.inl (by rw [List.getLast?_append_of_ne_nil _ (by decide)]; decide))
  | @append s t w v first second ih ih' =>
      rw [List.append_assoc] at h ⊢
      have front := ih h
      rw [← List.append_assoc] at front ⊢
      exact ih' front

section Body

variable {target : ClassSurface} (named : target.IsNamed)

theorem not_mem_parenthesis_of_isWritten {t : Text}
    (written : ∀ c ∈ t, TypeTree.isWritten c = true) : '(' ∉ t :=
  fun member => absurd (written _ member) (by decide)

theorem visible_of_isNamePart {t : Text} (inText : ∀ c ∈ t, isNamePart c = true) : Visible t :=
  fun c member => Character.not_isBlank_of_isNamePart (inText c member)

theorem not_mem_parenthesis_of_isNamePart {t : Text} (inText : ∀ c ∈ t, isNamePart c = true) :
    '(' ∉ t :=
  fun member => absurd (inText _ member) (by decide)

/-- The placeholders of parameter types hold no letter `v`. -/
theorem not_mem_letter_placeholder (type : TypeTree) : 'v' ∉ type.placeholder :=
  (by decide : ∀ t ∈ "null".toList :: TypeTree.primitivePlaceholders.map Prod.snd, 'v' ∉ t)
    _ (placeholder_mem type)

theorem not_mem_letter_placeholders (types : List TypeTree) : 'v' ∉ placeholders types := by
  intro member
  rcases Text.mem_intercalate member with between | ⟨part, isPart, inside⟩
  · exact absurd between (by decide)
  · rcases List.mem_map.mp isPart with ⟨type, -, rfl⟩
    exact not_mem_letter_placeholder type inside

theorem not_declares_comparisonLine (type : TypeTree) :
    ¬ Declares legacyPrefix name (comparisonLine type) := by
  have either : ∀ inexact : Bool,
      ¬ Declares legacyPrefix name ("assertEquals(expected, actual".toList ++
      (if inexact then ", 0.0".toList else []) ++ ");".toList) := by
    rintro (_ | _)
    · exact not_declares_of_not_mem (Or.inr (by decide))
    · exact not_declares_of_not_mem (Or.inr (by decide))
  exact either _

include inPrefix inName

theorem not_declares_variableLine {type : TypeTree} (isNamed : type.isNamed = true)
    {variableName : Text} (inVariable : ∀ c ∈ variableName, isNamePart c = true) :
    ¬ Declares legacyPrefix name (variableLine type variableName) := by
  have shape : variableLine type variableName =
      (type.render ++ (' ' :: variableName ++ [' '])) ++
        '=' :: (' ' :: type.placeholder ++ [';']) := by
    have parted : " = ".toList = [' ', '=', ' '] := by decide
    have ended : ";".toList = [';'] := by decide
    simp only [variableLine, parted, ended, List.append_assoc, List.cons_append, List.nil_append]
  rw [shape]
  refine not_declares_assignment inPrefix inName ?_ (not_declares_of_not_mem (Or.inr ?_))
  · simp [not_mem_parenthesis_of_isWritten (TypeTree.isWritten_of_mem_render isNamed),
      not_mem_parenthesis_of_isNamePart inVariable]
  · simp [not_mem_letter_placeholder type]

include named

theorem not_declares_instantiationLine :
    ¬ Declares legacyPrefix name (instantiationLine target) := by
  let values := placeholders ((target.preferredConstructor?.map Constructor.parameterTypes).getD [])
  have shape : instantiationLine target =
      (target.name ++ " target ".toList) ++
        '=' :: (" new ".toList ++ (target.name ++ '(' :: (values ++ ");".toList))) := by
    have parted : " target = new ".toList = " target ".toList ++ '=' :: " new ".toList := by decide
    simp only [instantiationLine, values, parted, List.append_assoc, List.cons_append]
  rw [shape]
  refine not_declares_assignment inPrefix inName ?_ fun made => ?_
  · simp [not_mem_parenthesis_of_isNamePart named.name]
  · have letters : 'v' ∉ values ++ ");".toList := by
      simp [values, not_mem_letter_placeholders]
    exact not_declares_call inPrefix inName (visible_of_isNamePart named.name) (Or.inr letters)
      (made.of_append_left (by decide))

theorem not_declares_callOf {method : Method} (isNamed : method.IsNamed) :
    ¬ Declares legacyPrefix name (callOf target method ++ [';']) := by
  have shape : callOf target method ++ [';'] = (receiverOf target method ++ '.' :: method.name) ++
      '(' :: (", ".toList.intercalate method.parameterNames ++ [')', ';']) := by
    simp [callOf]
  have called : Visible (receiverOf target method ++ '.' :: method.name) :=
    List.forall_mem_append.mpr ⟨visible_of_isNamePart (isNamePart_of_mem_receiverOf named method),
      List.forall_mem_cons.mpr ⟨by decide, visible_of_isNamePart isNamed.name⟩⟩
  have arguments : '(' ∉ ", ".toList.intercalate method.parameterNames ++ [')', ';'] := by
    intro member
    rcases List.mem_append.mp member with inside | last
    · rcases Text.mem_intercalate inside with between | ⟨part, isPart, inPart⟩
      · exact absurd between (by decide)
      · exact not_mem_parenthesis_of_isNamePart (isNamed.parameterNames part isPart) inPart
    · exact absurd last (by decide)
  rw [shape]
  exact not_declares_call inPrefix inName called (Or.inl arguments)

theorem not_declares_of_mem_methodLines {method : Method} (isNamed : method.IsNamed) :
    ∀ line ∈ methodLines target method, ¬ Declares legacyPrefix name line := by
  intro line member
  rcases mem_methodLines member with
    rfl | ⟨parameter, inside, rfl⟩ | ⟨-, rfl⟩ | ⟨type, returned, rfl | rfl | rfl⟩
  · exact not_declares_instantiationLine inPrefix inName named
  · have parts := isNamed_of_mem_parameters isNamed inside
    exact not_declares_variableLine inPrefix inName parts.1 parts.2
  · exact not_declares_callOf inPrefix inName named isNamed
  · have shape : type.render ++ " actual = ".toList ++ callOf target method ++ ";".toList =
        (type.render ++ " actual ".toList) ++
          '=' :: ([' '] ++ (callOf target method ++ [';'])) := by
      have parted : " actual = ".toList = " actual ".toList ++ '=' :: [' '] := by decide
      have ended : ";".toList = [';'] := by decide
      simp only [parted, ended, List.append_assoc, List.cons_append, List.nil_append]
    rw [shape]
    refine not_declares_assignment inPrefix inName ?_ fun called => ?_
    · simp [not_mem_parenthesis_of_isWritten
        (TypeTree.isWritten_of_mem_render (isNamed.returnType type returned))]
    · exact not_declares_callOf inPrefix inName named isNamed (called.of_append_left (by decide))
  · exact not_declares_variableLine inPrefix inName (isNamed.returnType type returned) (by decide)
  · exact not_declares_comparisonLine type

/-- No statement of a body declares anything. -/
theorem not_declares_of_mem_bodyLines {subject : Subject} (isNamed : subject.IsNamed) :
    ∀ line ∈ bodyLines target subject, ¬ Declares legacyPrefix name line := by
  intro line member
  cases subject with
  | type =>
      rw [bodyLines, List.mem_singleton] at member
      have shape : line = "assertNotNull".toList ++ '(' :: (target.name ++ ".class);".toList) := by
        rw [member]
        simp
      have arguments : '(' ∉ target.name ++ ".class);".toList := by
        simp [not_mem_parenthesis_of_isNamePart named.name]
      rw [shape]
      exact not_declares_call inPrefix inName (by decide) (Or.inl arguments)
  | instantiation =>
      rw [bodyLines, List.mem_cons, List.mem_singleton] at member
      rcases member with rfl | rfl
      · exact not_declares_instantiationLine inPrefix inName named
      · exact not_declares_of_not_mem (Or.inr (by decide))
  | method place method =>
      exact not_declares_of_mem_methodLines inPrefix inName named isNamed line member

end Body

/-! ## Headings -/

/-- In front of a parenthesis the blank behind the word `void` is the only one here, so a
declaration begins with that word. -/
theorem eq_of_void_append {x r written : Text} {c : Char} (visible : Visible written)
    (blank : isBlank c = true)
    (same : x ++ ("void".toList ++ c :: r) = "void".toList ++ ' ' :: (written ++ ['('])) :
    r = written ++ ['('] := by
  have shown : Visible (written ++ ['(']) := List.forall_mem_append.mpr ⟨visible, by decide⟩
  rw [← List.append_assoc] at same
  rcases List.append_eq_append_iff.mp same with ⟨v, front, back⟩ | ⟨v, front, back⟩
  · have empty : v = [] := by
      have lengths := congrArg List.length front
      simp only [List.length_append] at lengths
      exact List.length_eq_zero_iff.mp (by omega)
    subst empty
    exact (List.cons.inj back).2
  · cases v with
    | nil => exact (List.cons.inj back).2.symm
    | cons d v =>
        have inside : c ∈ written ++ ['('] := by
          rw [(List.cons.inj back).2]
          simp
        rw [shown c inside] at blank
        cases blank

include inPrefix inName in
/-- The heading of a test method declares the tests that the method is named after, with
or without the prefix. -/
theorem declares_heading_iff {written : Text} (inWritten : ∀ c ∈ written, isNamePart c = true) :
    Declares legacyPrefix name (heading written) ↔
    written = name ∨ written = legacyPrefix ++ name := by
  have shape : heading written = "public ".toList ++ ("void".toList ++ ' ' :: written) ++
      '(' :: ") throws Exception \x7b".toList := by
    simp [heading, headingOf]
  have solid := visible_of_isNamePart inWritten
  rw [shape]
  constructor
  · intro h
    have front :=
      (h.of_parenthesis inPrefix inName).resolve_right
        (not_declares_of_not_mem (Or.inl (by decide)))
    rw [List.append_assoc] at front
    rcases front.of_append_left (by decide) with
      ⟨x, s, y, whole, ⟨gap, named, gap', rfl, some, blank, whether, blank'⟩, -⟩
    rcases List.exists_cons_of_ne_nil some with ⟨c, gap, rfl⟩
    have rest : gap ++ (named ++ (gap' ++ '(' :: y)) = written ++ ['('] :=
      eq_of_void_append (x := x) (c := c) solid (blank c List.mem_cons_self) (by
        simp only [List.append_assoc, List.cons_append, List.nil_append] at whole ⊢
        exact whole.symm)
    have shown : Visible (gap ++ (named ++ (gap' ++ '(' :: y))) := by
      rw [rest]
      exact List.forall_mem_append.mpr ⟨solid, by decide⟩
    have noBlank : ∀ {g : Text},
        Blank g → (∀ d ∈ g, d ∈ gap ++ (named ++ (gap' ++ '(' :: y))) → g = [] :=
      fun blanks inside => List.eq_nil_iff_forall_not_mem.mpr fun d member => by
        have hidden := shown d (inside d member)
        rw [blanks d member] at hidden
        cases hidden
    have first : gap = [] :=
      noBlank (fun d member => blank d (List.mem_cons_of_mem c member)) (by simp +contextual)
    have second : gap' = [] := noBlank blank' (by simp +contextual)
    subst first second
    have same :=
      (Text.eq_of_run_append (isNamePart_of_mem_written inPrefix inName whether)
        inWritten (by decide)
      (by decide) rest).1
    rwa [same] at whether
  · intro whether
    refine ⟨"public ".toList, "void".toList ++ ([' '] ++ (written ++ ([] ++ ['(']))),
      ") throws Exception \x7b".toList, by simp,
      ⟨[' '], written, [], rfl, by decide, by decide, whether, Text.blank_nil⟩, by decide⟩

/-! ## Rendered sources -/

section Render

variable {style : TestStyle} (usual : style.IsUsual) {target : ClassSurface}
  (named : target.IsNamed) {separator : Text}
  (isBreak : separator = ['\n'] ∨ separator = ['\r', '\n'])
include usual named isBreak

/-- A rendered test is normalized to lines that declare its name and no other. -/
theorem exists_declaring_test (convention : Convention) {test : PlannedTest}
    (subject : test.subject.IsNamed)
    (inWritten : ∀ c ∈ methodName style convention test, isNamePart c = true) :
    ∃ lines, NormalizesTo (renderTest style target convention separator test ++ separator) lines ∧
      (∀ line ∈ lines, Terminated line) ∧ ∀ name, (∀ c ∈ name, isNamePart c = true) →
        ((∃ line ∈ lines, Declares style.legacyPrefix name line) ↔
          methodName style convention test = name ∨
          methodName style convention test = style.legacyPrefix ++ name) := by
  rcases exists_lines_test usual named isBreak convention subject inWritten with
    ⟨body, normalizes, statements⟩
  refine ⟨_, normalizes, ?_, fun name inName => ?_⟩
  · refine List.forall_mem_cons.mpr ⟨Or.inr ⟨_, '\x7b', heading_eq_concat _, rfl⟩,
      List.forall_mem_append.mpr
      ⟨fun line member => ?_, List.forall_mem_singleton.mpr (Or.inr ⟨[], '}', rfl, rfl⟩)⟩⟩
    rcases statements line member with ⟨s, -, -, isStatement⟩
    exact isStatement.terminated
  · have silent : ∀ line ∈ body ++ [['}']], ¬ Declares style.legacyPrefix name line := by
      refine List.forall_mem_append.mpr ⟨fun line member h => ?_, List.forall_mem_singleton.mpr
        (not_declares_of_not_mem (Or.inl (by decide)))⟩
      rcases statements line member with ⟨s, inBody, blanked, -⟩
      have source : Declares style.legacyPrefix name ([] ++ (s ++ [])) :=
        declares_of_blanked usual.legacyPrefix inName blanked (by simpa using h)
      rw [List.nil_append, List.append_nil] at source
      exact not_declares_of_mem_bodyLines usual.legacyPrefix inName named subject s inBody source
    rw [← declares_heading_iff usual.legacyPrefix inName inWritten]
    constructor
    · rintro ⟨line, member, h⟩
      rcases List.mem_cons.mp member with rfl | member
      · exact h
      · exact absurd h (silent line member)
    · exact fun h => ⟨_, List.mem_cons_self, h⟩

/-- Rendered tests are normalized to lines that declare their names and no others. -/
theorem exists_declaring_tests (convention : Convention) {tests : List PlannedTest}
    (subjects : ∀ test ∈ tests, test.subject.IsNamed)
    (names : ∀ test ∈ tests, ∀ c ∈ test.name, isNamePart c = true) :
    ∃ lines, NormalizesTo (renderTests style target convention separator tests) lines ∧
      (∀ line ∈ lines, Terminated line) ∧ ∀ name, (∀ c ∈ name, isNamePart c = true) →
        ((∃ line ∈ lines, Declares style.legacyPrefix name line) ↔ ∃ test ∈ tests,
          methodName style convention test = name ∨
          methodName style convention test = style.legacyPrefix ++ name) := by
  induction tests with
  | nil => exact ⟨[], Text.normalizesTo_nil, List.forall_mem_nil _, by simp⟩
  | cons test tests ih =>
      have inWritten : ∀ c ∈ methodName style convention test, isNamePart c = true :=
        isNamePart_of_mem_methodName usual (names test List.mem_cons_self)
      rcases exists_declaring_test usual named isBreak convention
        (subjects test List.mem_cons_self) inWritten
        with ⟨here, first, endedHere, declaredHere⟩
      rcases ih (fun other member => subjects other (List.mem_cons_of_mem test member))
        (fun other member => names other (List.mem_cons_of_mem test member)) with
        ⟨later, rest, endedLater, declaredLater⟩
      refine ⟨here ++ later, first.append rest, List.forall_mem_append.mpr ⟨endedHere, endedLater⟩,
        fun name inName => ?_⟩
      have both := or_congr (declaredHere name inName) (declaredLater name inName)
      simpa only [List.mem_append, List.mem_cons, or_and_right, exists_or, exists_eq_left] using
        both

end Render

/-- A rendered source declares the names of its tests and no others. -/
theorem declares_render_iff {style : TestStyle} (usual : style.IsUsual) {plan : TestPlan}
    (named : plan.target.IsNamed) (package : plan.target.HasDottedPackage) (convention : Convention)
    (subjects : ∀ test ∈ plan.tests, test.subject.IsNamed)
    (names : ∀ test ∈ plan.tests, ∀ c ∈ test.name, isNamePart c = true) {name : Text}
    (inName : ∀ c ∈ name, isNamePart c = true) :
    Declares style.legacyPrefix name (Text.normalize (render style convention plan)) ↔
    ∃ test ∈ plan.tests,
      methodName style convention test = name ∨
      methodName style convention test = style.legacyPrefix ++ name := by
  rcases exists_declaring_tests usual named usual.lineSeparator convention subjects names
    with ⟨body, normalizes, ended, declared⟩
  let header := (statements convention plan.target).map Prod.snd ++ [classLine convention plan]
  have front : ∀ line ∈ header, Terminated line ∧ '(' ∉ line :=
    terminated_of_mem_header named package
  have brace : Terminated ['}'] := Or.inr ⟨[], '}', rfl, rfl⟩
  have lined :
      Lined (header ++ (body ++ [['}']])) (Text.normalize (render style convention plan)) := by
    simpa [header] using lined_render usual named package normalizes
  have each : ∀ line ∈ header ++ (body ++ [['}']]), Terminated line :=
    List.forall_mem_append.mpr ⟨fun line member => (front line member).1, List.forall_mem_append.mpr
      ⟨ended, List.forall_mem_singleton.mpr brace⟩⟩
  refine (declares_lined_iff usual.legacyPrefix inName each lined).trans
    (Iff.trans ?_ (declared name inName))
  constructor
  · rintro ⟨line, member, h⟩
    rcases List.mem_append.mp member with inHeader | member
    · exact absurd h (not_declares_of_not_mem (Or.inl (front line inHeader).2))
    · rcases List.mem_append.mp member with inBody | last
      · exact ⟨line, inBody, h⟩
      · rw [List.mem_singleton.mp last] at h
        exact absurd h (not_declares_of_not_mem (Or.inl (by decide)))
  · rintro ⟨line, inBody, h⟩
    exact ⟨line, List.mem_append_right header (List.mem_append_left _ inBody), h⟩

/-- A source that is rendered for some tests of a plan lacks the other ones, told by their
names, if no name is the prefix in front of another one. -/
theorem lacking_render {style : TestStyle} (usual : style.IsUsual) {target : ClassSurface}
    (named : target.IsNamed) (package : target.HasDottedPackage) (convention : Convention)
    (apart : ∀ test ∈ (ofSurface style target).tests, ∀ other ∈ (ofSurface style target).tests,
      style.legacyPrefix ≠ [] → test.name ≠ style.legacyPrefix ++ other.name)
    {kept : List PlannedTest} (ofPlan : kept ⊆ (ofSurface style target).tests) :
    (ofSurface style target).lacking style.legacyPrefix
        (render style convention { ofSurface style target with tests := kept }) =
      (ofSurface style target).tests.filter fun test => test.name ∉ kept.map PlannedTest.name := by
  have names := isNamePart_of_mem_tests usual named
  have named' : ({ ofSurface style target with tests := kept } : TestPlan).target.IsNamed := named
  rw [lacking]
  refine List.filter_congr fun test planned => ?_
  have declared := declares_render_iff usual named' package convention
    (fun other member => subject_isNamed named other (ofPlan member))
    (fun other member => names other (ofPlan member)) (names test planned)
  have sameName : ∀ other ∈ kept, (methodName style convention other = test.name ∨
      methodName style convention other = style.legacyPrefix ++ test.name) ↔
      other.name = test.name := by
    intro other member
    have forth := apart other (ofPlan member) test planned
    have back := apart test planned other (ofPlan member)
    by_cases none : style.legacyPrefix = []
    · cases convention <;> simp [methodName, none]
    · cases convention with
      | modern => simp [methodName, forth none]
      | legacy => simp [methodName, Ne.symm (back none)]
  have shown :
      declares (Text.normalize
        (render style convention { ofSurface style target with tests := kept }))
      style.legacyPrefix test = true ↔ test.name ∈ kept.map PlannedTest.name := by
    rw [declares, occursIn_voidMethod_iff, declared, List.mem_map]
    exact exists_congr fun other => and_congr_right (sameName other)
  rw [Bool.eq_iff_iff, Bool.not_eq_true', ← Bool.not_eq_true, decide_eq_true_iff]
  exact not_congr shown

/-- Overloads whose names begin alike, and a method without parameters: the source for the
first overload lacks the others. -/
theorem lacking_render_overloads :
    let int := TypeTree.named "int".toList
    let target := { ClassSurface.named "S".toList with
      methods := [TestPlan.overload "add".toList [int], TestPlan.overload "add".toList [int, int],
        Method.named "add".toList] }
    let plan := ofSurface .modern target
    let kept := plan.tests.filter fun test => test.name = "add_A$int".toList
    TestStyle.modern.IsUsual ∧ target.IsNamed ∧ target.HasDottedPackage ∧
      (∀ test ∈ plan.tests, ∀ other ∈ plan.tests, TestStyle.modern.legacyPrefix ≠ [] →
        test.name ≠ TestStyle.modern.legacyPrefix ++ other.name) ∧ kept ⊆ plan.tests ∧
      (plan.lacking TestStyle.modern.legacyPrefix
          (render .modern .legacy { plan with tests := kept })).map PlannedTest.name =
        ["type".toList, "instantiation".toList, "add_A$int$int".toList, "add".toList] := by
  intro int target plan kept
  have named : target.IsNamed := {
    name := by decide
    imports := by simp [target, Header.HasDottedImports, ClassSurface.named]
    constructors := by simp [target, ClassSurface.named]
    methods := by
      intro method member
      simp only [target, List.mem_cons, List.not_mem_nil, or_false] at member
      rcases member with rfl | rfl | rfl
      · exact ⟨by decide, by decide, by decide,
          by simp [TestPlan.overload, Method.withParameters, Method.named]⟩
      · exact ⟨by decide, by decide, by decide,
          by simp [TestPlan.overload, Method.withParameters, Method.named]⟩
      · exact ⟨by decide, by decide, by decide, by simp [Method.named]⟩ }
  have package : target.HasDottedPackage := by
    simp [target, ClassSurface.HasDottedPackage, ClassSurface.named]
  have apart : ∀ test ∈ plan.tests, ∀ other ∈ plan.tests, TestStyle.modern.legacyPrefix ≠ [] →
      test.name ≠ TestStyle.modern.legacyPrefix ++ other.name := by decide +kernel
  have ofPlan : kept ⊆ plan.tests := fun test member => List.mem_of_mem_filter member
  refine ⟨TestStyle.isUsual_modern, named, package, apart, ofPlan, ?_⟩
  have others := lacking_render TestStyle.isUsual_modern named package .legacy apart ofPlan
  rw [others]
  decide +kernel

/-- An import or a package that is no name may open a comment over the whole class. -/
theorem lacking_render_commented_out :
    let target := ClassSurface.named "S".toList
    let importing := { target with imports := ["/*".toList] }
    let packaged := { target with package := some "/*".toList }
    let lackingNames :=
      fun surface => ((ofSurface .modern surface).lacking TestStyle.modern.legacyPrefix
      (render .modern .modern (ofSurface .modern surface))).map PlannedTest.name
    let otherNames := fun surface => ((ofSurface .modern surface).tests.filter fun test =>
      test.name ∉ (ofSurface .modern surface).tests.map PlannedTest.name).map PlannedTest.name
    TestStyle.modern.IsUsual ∧ target.IsNamed ∧
      (∀ test ∈ (ofSurface .modern target).tests, ∀ other ∈ (ofSurface .modern target).tests,
        test.name ≠ TestStyle.modern.legacyPrefix ++ other.name) ∧
      lackingNames importing = ["type".toList, "instantiation".toList] ∧ otherNames importing = [] ∧
      lackingNames packaged = ["type".toList, "instantiation".toList] ∧ otherNames packaged = [] :=
  ⟨TestStyle.isUsual_modern, ClassSurface.isNamed_named (by decide), by decide +kernel⟩

end TestPlan
end Testwright
