import Testwright.Proofs.Header.RemovedImport

namespace Testwright

/-!
# Lines that are taken out of a source

Of the lines of a source the wanted ones are dropped.  A dropped line may take a
blank line along, so that no second blank line is left where one stood on each side.
An account of this tells for each line of the source what becomes of it, and which
lines go along is told from the lines in front alone (`IsAccount`).  All others stay
as they are (`dropLine_account`).
-/

open Text (EndsLine)

namespace Line

/-- A line of a text is a line by itself. -/
theorem ofText_text_of_mem {t : Text} : ∀ line ∈ ofText t, ofText line.text = [line] := by
  fun_induction ofText t with
  | case1 => exact List.forall_mem_nil _
  | case2 t ih => exact List.forall_mem_cons.mpr ⟨rfl, ih⟩
  | case3 t ih => exact List.forall_mem_cons.mpr ⟨rfl, ih⟩
  | case4 c t noFeed noReturn empty ih =>
      refine List.forall_mem_singleton.mpr ?_
      have alone : ofText [c] = [⟨[c], []⟩] := ofText_cons noFeed (by simp)
      simpa [text] using alone
  | case5 c t noFeed noReturn line lines found ih =>
      rw [found] at ih
      rcases List.forall_mem_cons.mp ih with ⟨here, others⟩
      refine List.forall_mem_cons.mpr ⟨?_, others⟩
      have whole : t = line.text ++ texts lines := by rw [← texts_cons, ← found, texts_ofText]
      have noPair : c = '\r' → line.text.head? ≠ some '\n' := by
        intro isReturn feed
        rcases List.head?_eq_some_iff.mp feed with ⟨rest, begins⟩
        exact noReturn (rest ++ texts lines) isReturn (by rw [whole, begins]; rfl)
      have longer : ofText (c :: line.text) = [⟨c :: line.content, line.ending⟩] := by
        rw [ofText_cons noFeed noPair, here]
      exact longer

/-- Lines of which all but the last end are the lines of what they make up. -/
theorem ofText_texts {lines : List Line} (alone : ∀ line ∈ lines, ofText line.text = [line])
    (ends : ∀ line ∈ lines.dropLast, EndsLine line.text) : ofText (texts lines) = lines := by
  induction lines with
  | nil => rfl
  | cons line lines ih =>
      rcases List.forall_mem_cons.mp alone with ⟨here, others⟩
      cases lines with
      | nil => simpa [texts] using here
      | cons next lines =>
          rcases List.forall_mem_cons.mp ends with ⟨isEnded, endsOthers⟩
          rw [texts_cons, ofText_append isEnded, here, ih others endsOthers]
          rfl

/-- Some lines of a text in their order are the lines of what they make up. -/
theorem ofText_texts_of_sublist {t : Text} {lines : List Line}
    (sublist : lines.Sublist (ofText t)) :
    ofText (texts lines) = lines := by
  have fronts : lines.dropLast.Sublist (ofText t).dropLast := by
    simpa [List.tail_reverse] using sublist.reverse.tail
  refine ofText_texts (fun line member => ofText_text_of_mem line (sublist.subset member))
    fun line member => ?_
  have inFront : line ∈ (ofText t).dropLast := fronts.subset member
  have isCut := (isCut_of_mem_ofText t line (List.dropLast_subset _ inFront)).2
  exact .inr (Text.getLast?_append_separator
    (isCut.resolve_left (ending_ne_nil_of_mem_dropLast t line inFront))
    line.content)

end Line

namespace Header

/-- What becomes of a line. -/
inductive Fate where
  | stays
  /-- The line is a wanted one. -/
  | isDropped
  /-- The line is blank and goes along with the one in front of it. -/
  | goesAlong
deriving DecidableEq

/-- The lines that stay. -/
def staying (account : List (Line × Fate)) : List Line :=
  (account.filter fun entry => entry.2 == .stays).map Prod.fst

/-- A blank line goes along with a dropped line right in front of it, if the last line
that stays in front of them is blank as well. -/
structure GoesAlong (front : List (Line × Fate)) (line : Line) : Prop where
  isBlank : line.isBlankLine = true
  isBehind : front.getLast?.any (fun entry => entry.2 == .isDropped) = true
  leavesBlank : (staying front).getLast?.any Line.isBlankLine = true

/-- Each line has the fate that it should have. -/
structure IsAccount (wanted : Text) (account : List (Line × Fate)) : Prop where
  isDropped_iff : ∀ entry ∈ account, entry.2 = .isDropped ↔ Text.trim entry.1.content = wanted
  goesAlong_iff : ∀ front entry back, account = front ++ entry :: back →
    (entry.2 = .goesAlong ↔ GoesAlong front entry.1)

/-- What becomes of each line, in step with `dropLines`. -/
def fates (wanted : Text) : Bool → Bool → List Line → List (Line × Fate)
  | _, _, [] => []
  | keptBlank, dropsBlank, line :: lines =>
      if dropsBlank && line.isBlankLine then
        (line, .goesAlong) :: fates wanted keptBlank false lines
      else if Text.trim line.content ≠ wanted then
        (line, .stays) :: fates wanted line.isBlankLine false lines
      else
        (line, .isDropped) :: fates wanted keptBlank
          (keptBlank && lines.head?.any Line.isBlankLine) lines

theorem map_fst_fates (wanted : Text) (keptBlank dropsBlank : Bool) (lines : List Line) :
    (fates wanted keptBlank dropsBlank lines).map Prod.fst = lines := by
  induction lines generalizing keptBlank dropsBlank with
  | nil => rfl
  | cons line lines ih =>
      rw [fates]
      split
      · rw [List.map_cons, ih]
      · split <;> rw [List.map_cons, ih]

theorem staying_fates (wanted : Text) (keptBlank dropsBlank : Bool) (lines : List Line) :
    staying (fates wanted keptBlank dropsBlank lines) =
      dropLines wanted keptBlank dropsBlank lines := by
  induction lines generalizing keptBlank dropsBlank with
  | nil => rfl
  | cons line lines ih =>
      rw [fates, dropLines]
      unfold staying at ih ⊢
      split
      · simp [ih]
      · split <;> simp [ih]

/-! ## One line after another -/

/-- The flags behind the lines of an account, in front of other lines. -/
structure AreFlags (front : List (Line × Fate)) (lines : List Line) (keptBlank dropsBlank : Bool) :
  Prop where
  kept : keptBlank = (staying front).getLast?.any Line.isBlankLine
  drops : dropsBlank =
    (front.getLast?.any (fun entry => entry.2 == .isDropped) && keptBlank &&
      lines.head?.any Line.isBlankLine)

theorem goesAlong_iff_of_areFlags {front : List (Line × Fate)} {line : Line} {lines : List Line}
    {keptBlank dropsBlank : Bool} (flags : AreFlags front (line :: lines) keptBlank dropsBlank) :
    GoesAlong front line ↔ (dropsBlank && line.isBlankLine) = true := by
  rw [flags.drops, List.head?_cons, Option.any_some]
  constructor
  · intro along
    rw [along.isBehind, flags.kept, along.leavesBlank, along.isBlank]
    rfl
  · intro both
    simp only [Bool.and_eq_true] at both
    exact ⟨both.2, both.1.1.1, flags.kept.symm.trans both.1.1.2⟩

theorem trim_eq_nil_of_isBlankLine {line : Line} (blank : line.isBlankLine = true) :
    Text.trim line.content = [] :=
  Text.trim_of_blank (List.all_eq_true.mp blank)

/-- What becomes of a line is told from the lines in front of it, and the flags are
carried on. -/
theorem exists_fate {wanted : Text} (visible : wanted ≠ []) {front : List (Line × Fate)}
    {line : Line} {lines : List Line} {keptBlank dropsBlank : Bool}
    (flags : AreFlags front (line :: lines) keptBlank dropsBlank) :
    ∃ fate keptBlank' dropsBlank',
      fates wanted keptBlank dropsBlank (line :: lines) =
        (line, fate) :: fates wanted keptBlank' dropsBlank' lines ∧
      AreFlags (front ++ [(line, fate)]) lines keptBlank' dropsBlank' ∧
      (fate = .isDropped ↔ Text.trim line.content = wanted) ∧
      (fate = .goesAlong ↔ GoesAlong front line) := by
  rw [goesAlong_iff_of_areFlags flags]
  by_cases along : (dropsBlank && line.isBlankLine) = true
  · have other : Text.trim line.content ≠ wanted := by
      rw [trim_eq_nil_of_isBlankLine (Bool.and_eq_true_iff.mp along).2]
      exact visible.symm
    refine ⟨.goesAlong, keptBlank, false, by rw [fates, if_pos along], ⟨?_, ?_⟩, ?_, ?_⟩
    · simpa [staying] using flags.kept
    · simp
    · simp [other]
    · simp [along]
  · by_cases wantedHere : Text.trim line.content = wanted
    · refine ⟨.isDropped, keptBlank, _,
        by rw [fates, if_neg along, if_neg (not_not.mpr wantedHere)], ⟨?_, ?_⟩, ?_, ?_⟩
      · simpa [staying] using flags.kept
      · simp
      · simp [wantedHere]
      · simp [along]
    · refine ⟨.stays, line.isBlankLine, false, by rw [fates, if_neg along, if_pos wantedHere],
        ⟨?_, ?_⟩, ?_, ?_⟩
      · simp [staying]
      · simp
      · simp [wantedHere]
      · simp [along]

/-- The fates of lines behind an account go on with it. -/
theorem fates_spec {wanted : Text} (visible : wanted ≠ []) {front : List (Line × Fate)}
    {lines : List Line} {keptBlank dropsBlank : Bool}
    (flags : AreFlags front lines keptBlank dropsBlank) :
    (∀ entry ∈ fates wanted keptBlank dropsBlank lines,
      entry.2 = .isDropped ↔ Text.trim entry.1.content = wanted) ∧
    ∀ between entry back, fates wanted keptBlank dropsBlank lines = between ++ entry :: back →
      (entry.2 = .goesAlong ↔ GoesAlong (front ++ between) entry.1) := by
  induction lines generalizing front keptBlank dropsBlank with
  | nil => exact ⟨List.forall_mem_nil _, fun between entry back cut => by simp [fates] at cut⟩
  | cons line lines ih =>
      rcases exists_fate visible flags with
        ⟨fate, keptBlank', dropsBlank', step, flags', dropped, along⟩
      rcases ih flags' with ⟨areDropped, goAlong⟩
      rw [step]
      refine ⟨List.forall_mem_cons.mpr ⟨dropped, areDropped⟩, fun between entry back cut => ?_⟩
      cases between with
      | nil =>
          rcases List.cons.inj cut with ⟨rfl, -⟩
          rw [List.append_nil]
          exact along
      | cons first between =>
          rcases List.cons.inj cut with ⟨rfl, rest⟩
          have behind := goAlong between entry back rest
          rwa [List.append_assoc, List.singleton_append] at behind

theorem isAccount_fates {wanted : Text} (visible : wanted ≠ []) (lines : List Line) :
    IsAccount wanted (fates wanted false false lines) := by
  have flags : AreFlags [] lines false false := ⟨rfl, rfl⟩
  rcases fates_spec visible flags with ⟨dropped, along⟩
  exact ⟨dropped, fun front entry back cut => along front entry back cut⟩

/-- Each line that goes along has a dropped one in front of it for itself. -/
theorem count_goesAlong_le (wanted : Text) (keptBlank dropsBlank : Bool) (lines : List Line) :
    (fates wanted keptBlank dropsBlank lines).countP (fun entry => entry.2 == .goesAlong) ≤
      (fates wanted keptBlank dropsBlank lines).countP (fun entry => entry.2 == .isDropped) +
        dropsBlank.toNat := by
  induction lines generalizing keptBlank dropsBlank with
  | nil => simp [fates]
  | cons line lines ih =>
      rw [fates]
      split
      · next along =>
          have rest := ih keptBlank false
          have flag : dropsBlank = true := (Bool.and_eq_true_iff.mp along).1
          simp only [List.countP_cons, flag, Bool.toNat_true, Bool.toNat_false] at rest ⊢
          simpa using rest
      · split
        · have rest := ih line.isBlankLine false
          simp only [List.countP_cons, Bool.toNat_false] at rest ⊢
          simp only [reduceCtorEq, beq_iff_eq, if_false]
          omega
        · have rest := ih keptBlank (keptBlank && lines.head?.any Line.isBlankLine)
          have small := Bool.toNat_le (keptBlank && lines.head?.any Line.isBlankLine)
          simp only [List.countP_cons]
          simp only [reduceCtorEq, beq_iff_eq, beq_self_eq_true, if_false, if_true]
          omega

/-! ## The lines of the result -/

theorem filter_dropLines (wanted : Text) (keptBlank dropsBlank : Bool) (lines : List Line) :
    (dropLines wanted keptBlank dropsBlank lines).filter (fun line => !line.isBlankLine) =
      lines.filter fun line => !line.isBlankLine && Text.trim line.content != wanted := by
  induction lines generalizing keptBlank dropsBlank with
  | nil => rfl
  | cons line lines ih =>
      rw [dropLines]
      split
      · next along => simp [ih, (Bool.and_eq_true_iff.mp along).2]
      · split
        · next other => cases blank : line.isBlankLine <;> simp [ih, blank, other]
        · next wantedHere => simp [ih, not_not.mp wantedHere]

theorem trim_ne_of_mem_dropLines {wanted : Text} {keptBlank dropsBlank : Bool} {lines : List Line} :
    ∀ line ∈ dropLines wanted keptBlank dropsBlank lines, Text.trim line.content ≠ wanted := by
  induction lines generalizing keptBlank dropsBlank with
  | nil => exact List.forall_mem_nil _
  | cons line lines ih =>
      rw [dropLines]
      split
      · exact ih
      · split
        · next other => exact List.forall_mem_cons.mpr ⟨other, ih⟩
        · exact ih

theorem ofText_dropLine (source line : Text) :
    Line.ofText (dropLine source line) =
      dropLines (Text.trim line) false false (Line.ofText source) := by
  have sublist : (dropLines (Text.trim line) false false (Line.ofText source)).Sublist
      (Line.ofText source) := by
    have whole := map_fst_fates (Text.trim line) false false (Line.ofText source)
    rw [← staying_fates]
    conv_rhs => rw [← whole]
    exact List.filter_sublist.map Prod.fst
  exact Line.ofText_texts_of_sublist sublist

theorem trim_ne_nil_of_visible {t : Text} (visible : Text.allBlank t = false) :
    Text.trim t ≠ [] := by
  intro empty
  rcases Text.exists_surround t with ⟨gap, gap', blank, blank', -, whole⟩
  rw [empty, List.nil_append] at whole
  rw [whole, Text.allBlank, List.all_eq_true.mpr (blank.append blank')] at visible
  cases visible

/-- A visible line is taken out of a source wherever it stands, blanks at the ends
aside: of the other lines no visible one goes, and of the blank ones go those that an
account tells.  Taken out once more, it takes nothing more along. -/
theorem dropLine_account (source : Text) {line : Text} (visible : Text.allBlank line = false) :
    (∃ account : List (Line × Fate), account.map Prod.fst = Line.ofText source ∧
      staying account = Line.ofText (dropLine source line) ∧ IsAccount (Text.trim line) account ∧
      account.countP (fun entry => entry.2 == .goesAlong) ≤ account.countP fun entry =>
        entry.2 == .isDropped) ∧
    (Line.ofText (dropLine source line)).filter (fun other => !other.isBlankLine) =
      (Line.ofText source).filter (fun other => !other.isBlankLine &&
        Text.trim other.content != Text.trim line) ∧
    dropLine (dropLine source line) line = dropLine source line := by
  have lines := ofText_dropLine source line
  refine ⟨⟨fates (Text.trim line) false false (Line.ofText source), map_fst_fates .., ?_, ?_, ?_⟩,
    ?_, ?_⟩
  · rw [lines, staying_fates]
  · exact isAccount_fates (trim_ne_nil_of_visible visible) _
  · exact count_goesAlong_le _ _ _ _
  · rw [lines, filter_dropLines]
  · have again : dropLine (dropLine source line) line =
        Line.texts (dropLines (Text.trim line) false false (Line.ofText (dropLine source line))) :=
          rfl
    rw [again, lines, dropLines_of_absent trim_ne_of_mem_dropLines]
    rfl

/-- A wanted line behind a blank one takes one of two blank lines along. -/
theorem dropLine_account_spaced :
    let source := "a\n\n x \n\n\nx".toList
    Text.allBlank "x".toList = false ∧ dropLine source "x".toList = "a\n\n\n".toList ∧
      ((Line.ofText (dropLine source "x".toList)).filter fun other =>
        !other.isBlankLine).map Line.text =
        ["a\n".toList] ∧
      dropLine (dropLine source "x".toList) "x".toList = dropLine source "x".toList := by
  intro source
  have visible : Text.allBlank "x".toList = false := by decide
  rcases dropLine_account source visible with ⟨-, others, again⟩
  refine ⟨visible, by decide +kernel, ?_, again⟩
  rw [others]
  decide +kernel

end Header
end Testwright
