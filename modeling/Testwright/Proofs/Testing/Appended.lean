import Testwright.Proofs.Testing.Rendered

namespace Testwright

/-!
# Tests appended to a source

What stands in front of the last closing brace keeps what it declares, and so does what
stands behind it, when rendered tests are put there; and the text declares these tests
(`declares_appended`).  The brace has to stand outside comments, literals and
annotations, for otherwise the tests would stand inside of these.
-/

open Character (isBlank isNamePart)

namespace Text

open Region (blankOut after code)

/-- The source without comments, contents of literals and annotations. -/
def bare (source : Text) : Text :=
  dropAnnotations (blankOut code 0 (unifyLineBreaks source))

/-- A closing brace between the two parts stands outside comments, literals and
annotations. -/
def StandsFree (front rest : Text) : Prop :=
  after code 0 (unifyLineBreaks front) = (code, 0) ∧
    ∃ w, Drops (blankOut code 0 (unifyLineBreaks front))
      ('}' :: blankOut code 0 (unifyLineBreaks rest)) w

theorem blankOut_append_cons {s : Text} (inCode : after code 0 (unifyLineBreaks s) = (code, 0))
    {c : Char} (quiet : Region.isQuiet c = true) (calm : Region.isCalm c = true)
    (noBreak : c ≠ '\n') (noReturn : c ≠ '\r') (t : Text) :
    blankOut code 0 (unifyLineBreaks (s ++ c :: t)) =
      blankOut code 0 (unifyLineBreaks s) ++ c :: blankOut code 0 (unifyLineBreaks t) := by
  have own : Region.step code c (unifyLineBreaks t) = ⟨[c], code, 0⟩ := by
    simp only [Region.isQuiet, Bool.not_eq_true', Bool.or_eq_false_iff,
      beq_eq_false_iff_ne] at quiet
    simp [Region.step, Region.stepInCode, quiet]
  rw [unifyLineBreaks_append (by simp [noBreak]), unifyLineBreaks_cons noReturn,
    (Region.blankOut_append inCode (Or.inr fun d head => by
      rcases Option.some.inj head with rfl
      exact calm)).1, blankOut, own]
  rfl

theorem blankOut_append_brace {s : Text} (inCode : after code 0 (unifyLineBreaks s) = (code, 0))
    (t : Text) :
    blankOut code 0 (unifyLineBreaks (s ++ '}' :: t)) =
      blankOut code 0 (unifyLineBreaks s) ++ '}' :: blankOut code 0 (unifyLineBreaks t) :=
  blankOut_append_cons inCode (by decide) (by decide) (by decide) (by decide) t

theorem dropAnnotations_brace (t : Text) :
    dropAnnotations ('}' :: blankOut code 0 (unifyLineBreaks t)) = '}' :: bare t :=
  dropAnnotations_cons (noMark_of_ne (by decide) (blankOut code 0 (unifyLineBreaks t)))

theorem bare_append_brace {s t w : Text} (inCode : after code 0 (unifyLineBreaks s) = (code, 0))
    (drops : Drops (blankOut code 0 (unifyLineBreaks s))
      ('}' :: blankOut code 0 (unifyLineBreaks t)) w) :
    bare (s ++ '}' :: t) = w ++ '}' :: bare t := by
  rw [bare, blankOut_append_brace inCode, drops.dropAnnotations_append, dropAnnotations_brace]

/-- A text that opens no comment, literal or annotation leaves what follows free. -/
theorem standsFree_of_quiet {front : Text} (quiet : ∀ c ∈ front, Region.isQuiet c = true)
    (noSign : '@' ∉ front) (rest : Text) : StandsFree front rest := by
  have scanned := scanned_unifyLineBreaks quiet
  have absent : '@' ∉ unifyLineBreaks front := fun member => by
    rcases mem_of_mem_unifyLineBreaks member with inside | same
    · exact noSign inside
    · exact absurd same (by decide)
  refine ⟨scanned.2, unifyLineBreaks front, ?_⟩
  rw [scanned.1]
  exact drops_of_not_mem absent _

theorem endsWithBreak_of_last {t : Text} (last : t.getLast? = some '\n') :
    endsWithBreak t = true := by
  rw [← List.head?_reverse] at last
  rcases List.head?_eq_some_iff.mp last with ⟨r, shape⟩
  rw [endsWithBreak, shape]
  rfl

theorem getLast?_ne_return_of_endsWithBreak {t : Text} (ends : endsWithBreak t = true) :
    t.getLast? ≠ some '\r' := by
  intro last
  rcases List.getLast?_eq_some_iff.mp last with ⟨front, rfl⟩
  simp [endsWithBreak] at ends

/-- A separator behind a text may make one line break with the end of it; what is left
of the separator stands apart. -/
theorem exists_apart {separator : Text} (isBreak : separator = ['\n'] ∨ separator = ['\r', '\n'])
    (front : Text) :
    ∃ gap, (gap = [] ∨ gap = separator) ∧ ∀ t,
      unifyLineBreaks (front ++ ((if endsWithBreak front then [] else separator) ++ t)) =
        unifyLineBreaks front ++ unifyLineBreaks (gap ++ t) := by
  by_cases ends : endsWithBreak front = true
  · refine ⟨[], Or.inl rfl, fun t => ?_⟩
    rw [if_pos ends]
    exact unifyLineBreaks_append fun last => absurd last (getLast?_ne_return_of_endsWithBreak ends)
  · rw [if_neg ends]
    by_cases last : front.getLast? = some '\r' ∧ separator = ['\n']
    · refine ⟨[], Or.inl rfl, fun t => ?_⟩
      rw [last.2]
      exact unifyLineBreaks_append_newline last.1 t
    · refine ⟨separator, Or.inr rfl, fun t => unifyLineBreaks_append fun final => ?_⟩
      rcases isBreak with rfl | rfl
      · exact absurd ⟨final, rfl⟩ last
      · simp

end Text

namespace TestPlan

open Region (blankOut after code)
open Text (Blank Drops Opens Scanned Seam StandsFree bare scanned_separator unifyLineBreaks)

section Appended

variable {style : TestStyle} (usual : style.IsUsual) {target : ClassSurface}
  (named : target.IsNamed) {separator : Text}
  (isBreak : separator = ['\n'] ∨ separator = ['\r', '\n'])
include usual isBreak

theorem calm_of_mem_leadOf {convention : Convention} :
    ∀ c ∈ leadOf style separator convention, Region.isCalm c = true := by
  have inIndent : ∀ c ∈ style.indent, Region.isCalm c = true := fun c member =>
    Text.isCalm_of_isBlank (usual.indent c member)
  have inSeparator : ∀ c ∈ separator, Region.isCalm c = true := fun c member =>
    Text.isCalm_of_isBlank (blank_separator isBreak c member)
  cases convention with
  | legacy => exact inIndent
  | modern =>
      simp only [leadOf, List.forall_mem_append]
      exact ⟨inIndent, by decide, inSeparator, inIndent⟩

theorem exists_scanned_gap_leadOf {gap : Text} (isGap : gap = [] ∨ gap = separator)
    (convention : Convention) :
    ∃ w, Scanned (gap ++ leadOf style separator convention) w ∧ IsLead w convention := by
  rcases exists_scanned_leadOf usual isBreak convention with ⟨w, scanned, isLead⟩
  rcases isGap with rfl | rfl
  · exact ⟨w, scanned, isLead⟩
  · refine ⟨['\n'] ++ w,
      (scanned_separator isBreak).append scanned (seam_behind_separator isBreak [] _), ?_⟩
    cases convention with
    | legacy => exact Text.Blank.append (by decide) isLead
    | modern =>
        rcases isLead with ⟨before, behind, rfl, blank, blank', some⟩
        exact ⟨['\n'] ++ before, behind, by simp, Text.Blank.append (by decide) blank, blank', some⟩

include named

/-- What the scan makes of a source with rendered tests in front of a closing brace. -/
theorem exists_blankOut_appended (convention : Convention) {test : PlannedTest}
    {tests : List PlannedTest} (subjects : ∀ other ∈ test :: tests, other.subject.IsNamed)
    (names : ∀ other ∈ test :: tests, ∀ c ∈ other.name, isNamePart c = true) {front : Text}
    (inCode : after code 0 (unifyLineBreaks front) = (code, 0)) (rest : Text) :
    ∃ lead v w, IsLead lead convention ∧
      blankOut code 0
        (unifyLineBreaks (front ++ ((if Text.endsWithBreak front then [] else separator) ++
          (renderTests style target convention separator (test :: tests) ++ '}' :: rest)))) =
        blankOut code 0 (unifyLineBreaks front) ++ (lead ++ ("public".toList ++
          (headingOf (methodName style convention test) ++ v ++
            '}' :: blankOut code 0 (unifyLineBreaks rest)))) ∧
      (∀ t, Drops (headingOf (methodName style convention test) ++ v) t w) ∧ w.head? = some ' ' ∧
      ∀ other ∈ test :: tests, Declares style.legacyPrefix other.name w := by
  rcases Text.exists_apart isBreak front with ⟨gap, isGap, apart⟩
  rcases exists_scanned_gap_leadOf usual isBreak isGap convention with ⟨lead, scannedLead, isLead⟩
  rcases exists_scanned_renderTests usual named isBreak convention subjects names with
    ⟨v, w, scannedTests, drops, first, declared⟩
  refine ⟨lead, v, w, isLead, ?_, drops, first, declared⟩
  have word : Scanned "public".toList "public".toList := Text.scanned_quiet (by decide)
  have inner :=
    word.append scannedTests (Text.seam_of_concat (c := 'c') (by decide) (by decide) (by decide) _)
  have marked :=
    scannedLead.append inner (Text.seam_of_cons (by decide) (by decide) _ ("ublic".toList ++ _))
  have tests' :
      gap ++ (renderTests style target convention separator (test :: tests) ++ '}' :: rest) =
      gap ++ leadOf style separator convention ++ ("public".toList ++
        (headingOf (methodName style convention test) ++ remainderOf style target separator test ++
          renderTests style target convention separator tests)) ++ '}' :: rest := by
    have expanded := renderTest_append style target convention separator test
    simp only [renderTests, List.flatMap_cons, expanded, List.append_assoc]
  have calm : Region.Calm front
      (gap ++ (renderTests style target convention separator (test :: tests) ++
      '}' :: rest)) := by
    have inGap : ∀ c ∈ gap, Region.isCalm c = true := by
      rcases isGap with rfl | rfl
      · simp
      · exact fun c member => Text.isCalm_of_isBlank (blank_separator isBreak c member)
    have inFront : ∀ c ∈ gap ++ leadOf style separator convention ++ "public".toList,
        Region.isCalm c = true :=
      List.forall_mem_append.mpr
        ⟨List.forall_mem_append.mpr ⟨inGap, calm_of_mem_leadOf usual isBreak⟩, by decide⟩
    rw [tests', ← List.append_assoc, List.append_assoc _ _ ('}' :: rest)]
    exact Region.calm_of_front inFront (by simp) front _
  rw [apart, (Region.blankOut_append inCode (Text.calm_unifyLineBreaks calm)).1, tests',
    Text.blankOut_append_brace marked.2, marked.1]
  simp

/-- A source with rendered tests in front of a free closing brace declares them, and
what it declared before. -/
theorem declares_appended (convention : Convention) {test : PlannedTest} {tests : List PlannedTest}
    (subjects : ∀ other ∈ test :: tests, other.subject.IsNamed)
    (names : ∀ other ∈ test :: tests, ∀ c ∈ other.name, isNamePart c = true) {front rest : Text}
    (free : StandsFree front rest) :
    let appended := front ++ ((if Text.endsWithBreak front then [] else separator) ++
      (renderTests style target convention separator (test :: tests) ++ '}' :: rest))
    (∀ name : Text, (∀ c ∈ name, isNamePart c = true) →
        Declares style.legacyPrefix name (bare (front ++ '}' :: rest)) →
          Declares style.legacyPrefix name (bare appended)) ∧
      ∀ other ∈ test :: tests, Declares style.legacyPrefix other.name (bare appended) := by
  rcases free with ⟨inCode, kept, keeps⟩
  rcases exists_blankOut_appended usual named isBreak convention subjects names inCode rest with
    ⟨lead, v, w, isLead, scanned, drops, first, declared⟩
  have opens : Opens (headingOf (methodName style convention test) ++ v ++
      '}' :: blankOut code 0 (unifyLineBreaks rest)) := by
    rw [List.append_assoc]
    exact opens_headingOf (isNamePart_of_mem_methodName usual (names test List.mem_cons_self)) _
  have last : ∀ c,
      (blankOut code 0 (unifyLineBreaks front) ++ (lead ++ "public".toList)).getLast? = some c →
      Character.isDottedPart c = true := by
    intro c final
    rw [List.getLast?_append_of_ne_nil _ (by simp),
      List.getLast?_append_of_ne_nil _ (by simp)] at final
    rcases Option.some.inj final with rfl
    decide
  -- No annotation of what stands in front reaches over the first heading.
  have reach : ∃ z, Drops (blankOut code 0 (unifyLineBreaks front) ++ (lead ++ "public".toList))
      (headingOf (methodName style convention test) ++ v ++
        '}' :: blankOut code 0 (unifyLineBreaks rest)) z :=
    Text.exists_drops (c := ' ') (by decide) opens last
  rcases reach with ⟨z, dropsFront⟩
  have parts : bare (front ++ ((if Text.endsWithBreak front then [] else separator) ++
      (renderTests style target convention separator (test :: tests) ++ '}' :: rest))) =
        z ++ (w ++ '}' :: bare rest) := by
    have behind := (drops ('}' :: blankOut code 0 (unifyLineBreaks rest))).dropAnnotations_append
    rw [Text.dropAnnotations_brace] at behind
    have whole := dropsFront.dropAnnotations_append.trans (congrArg (z ++ ·) behind)
    rw [bare, scanned]
    simpa only [List.append_assoc] using whole
  intro appended
  constructor
  · intro name inName declares
    rw [Text.bare_append_brace inCode keeps] at declares
    rcases declares.of_cut usual.legacyPrefix inName (by decide) (by decide) (by decide) with
      inFront | behind
    · have opens' := (opens.append_left (a := "public".toList) (by decide)).append_left isLead.plain
      rcases keeps.exists_front opens' with ⟨start, final, u, rfl, closed, cut⟩
      have begins : bare appended = start ++ u := by rw [bare, scanned, cut]
      rw [begins]
      exact (inFront.of_append_right closed).append_right u
    · have cut : bare appended = (z ++ w ++ ['}']) ++ bare rest := by
        rw [parts]
        simp
      rw [cut]
      exact behind.append_left (Or.inl (by rw [List.getLast?_append_of_ne_nil _ (by simp)]; decide))
  · intro other member
    rw [parts]
    have apart : (w ++ '}' :: bare rest).head?.any Character.isWord = false := by
      rw [List.head?_append, first, Option.some_or]
      decide
    exact ((declared other member).append_right _).append_left (Or.inr apart)

end Appended

end TestPlan
end Testwright
