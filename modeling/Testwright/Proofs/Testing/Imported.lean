import Testwright.Proofs.Header.Addition
import Testwright.Proofs.Testing.Appended

namespace Testwright

/-!
# Import lines and the tests of a source

A block of import lines changes no test that the source declares
(`declares_insertBlock`), if the statements of the header stand in code: no line of
the block opens a comment, a literal or an annotation, and where the block stands
inside the arguments of an annotation it goes with them.
-/

open Character (isBlank isNamePart isWord)
open HeaderStatement (header isWordingPart ofSource)
open Region (after blankOut code)
open Text (Blank Plain Scanned bare unifyLineBreaks)
open TestPlan (Declares joinLines)

namespace Header

section HeaderText

variable {t : Text} (h : IsHeaderText t)
include h

theorem IsHeaderText.quiet : ∀ c ∈ t, Region.isQuiet c = true := fun c member => by
  have other := fun d => IsHeaderText.ne h member (d := d)
  simp [Region.isQuiet, other '/' (by decide), other '\x27' (by decide), other '"' (by decide)]

theorem IsHeaderText.unifyLineBreaks : IsHeaderText (unifyLineBreaks t) := fun c member => by
  rcases Text.mem_of_mem_unifyLineBreaks member with inside | rfl
  · exact h c inside
  · decide

theorem IsHeaderText.plain : Plain t := fun c member => by
  have other := fun d => IsHeaderText.ne h member (d := d)
  simp [Matcher.isParenthesis, other '(' (by decide), other ')' (by decide)]

theorem IsHeaderText.noSign : '@' ∉ t := fun member => IsHeaderText.ne h member (by decide) rfl

/-- In front of anything, the scan leaves the text as it is, if it ends a line. -/
theorem IsHeaderText.blankOut_append (ends : t = [] ∨ t.getLast? = some '\n') (u : Text) :
    blankOut code 0 (Text.unifyLineBreaks (t ++ u)) =
      Text.unifyLineBreaks t ++ blankOut code 0 (Text.unifyLineBreaks u) := by
  have scanned := Text.scanned_unifyLineBreaks (IsHeaderText.quiet h)
  rcases ends with rfl | last
  · rfl
  · have calm : Region.Calm t u := Or.inl fun c final => by
      rw [last] at final
      rcases Option.some.inj final with rfl
      decide
    rw [Text.unifyLineBreaks_append (by simp [last]),
      (Region.blankOut_append scanned.2 (Text.calm_unifyLineBreaks calm)).1, scanned.1]

end HeaderText

/-- The statements of the header stand in code. -/
def StatementsInCode (source : Text) : Prop :=
  ∀ statement ∈ ofSource source,
    after code 0 (unifyLineBreaks (source.take statement.start)) = (code, 0)

/-- Whether the statements stand in code is settled by the header. -/
theorem statementsInCode_congr {source source' : Text} (same : header source = header source')
    (inCode : StatementsInCode source) : StatementsInCode source' := by
  have taken : ∀ {t : Text}, ∀ statement ∈ ofSource t,
      t.take statement.start = (header t).take statement.start := by
    intro t statement member
    rcases HeaderStatement.exists_wording_of_mem_ofSource member with
      ⟨x, s, b, isImport, path, whole, -, start, -, noBrace⟩
    have noBrace' : '\x7b' ∉ x := fun inside => noBrace (List.mem_append_left s inside)
    rw [whole, HeaderStatement.header_append noBrace', start]
    simp
  intro statement member
  have member' : statement ∈ ofSource source := by
    rw [ofSource, same]
    exact member
  rw [taken statement member, ← same, ← taken statement member']
  exact inCode statement member'

theorem isCalm_of_isWord {c : Char} (word : isWord c = true) : Region.isCalm c = true := by
  have other : ∀ d, isWord d = false → c ≠ d := by
    rintro d none rfl
    rw [word] at none
    cases none
  simp [Region.isCalm, other '/' (by decide), other '*' (by decide), other '"' (by decide)]

/-- The scan is in code in front of the semicolon of a statement that stands in code. -/
theorem after_of_statement {source a b : Text} (inCode : StatementsInCode source)
    (cut : source = a ++ ';' :: b)
    (statement : ∃ statement ∈ ofSource source, statement.stop = a.length + 1) :
    after code 0 (unifyLineBreaks a) = (code, 0) := by
  rcases statement with ⟨statement, member, stop⟩
  rcases HeaderStatement.exists_wording_of_mem_ofSource member with
    ⟨x, s, r, isImport, path, whole, wording, start, stop', -⟩
  rcases wording.exists_parts with ⟨c, u, rfl, word, parts⟩
  have front : a = x ++ c :: u := by
    have same : a ++ ';' :: b = (x ++ c :: u) ++ ';' :: r := by
      rw [← cut, whole]
      simp
    refine (List.append_inj same ?_).1
    simp only [List.length_append, List.length_cons, List.length_nil] at stop' ⊢
    omega
  have begins : after code 0 (unifyLineBreaks x) = (code, 0) := by
    have taken : source.take statement.start = x := by
      rw [whole, start]
      simp
    have here := inCode statement member
    rwa [taken] at here
  have isHeader : IsHeaderText (c :: u) := fun d member => by simp [isHeaderPart, parts d member]
  have notBreak : c ≠ '\n' := by
    rintro rfl
    exact absurd word (by decide)
  have seam : Text.Seam x (c :: u) := Text.seam_of_cons (isCalm_of_isWord word) notBreak x u
  have scanned := Text.scanned_unifyLineBreaks (IsHeaderText.quiet isHeader)
  rw [front, Text.unifyLineBreaks_append seam.breaks,
    (Region.blankOut_append begins (Text.calm_unifyLineBreaks seam.calm)).2, scanned.2]

theorem dropAnnotations_semicolon {g : Text} (noSign : '@' ∉ g) (t : Text) :
    Text.dropAnnotations (';' :: (g ++ t)) = ';' :: (g ++ Text.dropAnnotations t) := by
  rw [Text.dropAnnotations_cons (Text.noMark_of_ne (by decide) _),
    Text.dropAnnotations_append_of_not_mem noSign]

section Names

variable {legacyPrefix name : Text}

/-- Lines of a header in front of a source change no test that it declares. -/
theorem declares_lines_append {t : Text} (isHeader : IsHeaderText t)
    (final : t.getLast? = some '\n') {source : Text}
    (h : Declares legacyPrefix name (bare source)) :
    Declares legacyPrefix name (bare (t ++ source)) := by
  rw [bare, isHeader.blankOut_append (Or.inr final),
    Text.dropAnnotations_append_of_not_mem isHeader.unifyLineBreaks.noSign]
  refine h.append_left (Or.inl ?_)
  rw [Text.getLast?_unifyLineBreaks, final]
  decide

variable (inPrefix : ∀ c ∈ legacyPrefix, isNamePart c = true)
  (inName : ∀ c ∈ name, isNamePart c = true)
include inPrefix inName

/-- Behind a semicolon in code, lines of a header in the place of blanks change no
test that the source declares. -/
theorem declares_of_blank {a gap lines : Text}
    (inCode : after code 0 (unifyLineBreaks a) = (code, 0)) (blank : Blank gap)
    (ends : gap = [] ∨ gap.getLast? = some '\n') (isHeader : IsHeaderText lines)
    (final : lines.getLast? = some '\n') {t : Text}
    (h : Declares legacyPrefix name (bare (a ++ ';' :: (gap ++ t)))) :
    Declares legacyPrefix name (bare (a ++ ';' :: (lines ++ t))) := by
  have isGap := isHeaderText_of_blank blank
  have blank' : Blank (unifyLineBreaks gap) := fun c member => by
    rcases Text.mem_of_mem_unifyLineBreaks member with inside | rfl
    · exact blank c inside
    · decide
  have written : ∀ g : Text, IsHeaderText g → g = [] ∨ g.getLast? = some '\n' →
      blankOut code 0 (unifyLineBreaks (a ++ ';' :: (g ++ t))) =
        blankOut code 0 (unifyLineBreaks a) ++
          ';' :: (unifyLineBreaks g ++ blankOut code 0
            (unifyLineBreaks t)) := fun g isText ends => by
    rw [Text.blankOut_append_cons inCode (by decide) (by decide) (by decide) (by decide),
      isText.blankOut_append ends]
  rw [bare, written gap isGap ends] at h
  rw [bare, written lines isHeader (Or.inr final)]
  rcases Text.drops_or_eq isGap.unifyLineBreaks.plain isHeader.unifyLineBreaks.plain
      (blankOut code 0 (unifyLineBreaks a)) (blankOut code 0 (unifyLineBreaks t)) with
    ⟨w, drops, drops'⟩ | same
  · rw [drops.dropAnnotations_append, dropAnnotations_semicolon isGap.unifyLineBreaks.noSign] at h
    rw [drops'.dropAnnotations_append, dropAnnotations_semicolon isHeader.unifyLineBreaks.noSign]
    rcases h.of_cut inPrefix inName (by decide) (by decide) (by decide) with before | behind
    · exact before.append_right _
    · have shown := behind.of_blank_append blank'
      have lead := shown.append_left (u := w ++ ';' :: unifyLineBreaks lines) (Or.inl (by
        rw [List.getLast?_append, List.getLast?_cons, Text.getLast?_unifyLineBreaks, final]
        change isWord '\n' = false
        decide))
      simpa using lead
  · rwa [← same]

end Names

section Insertion

variable {separator : Text} (isBreak : separator = ['\n'] ∨ separator = ['\r', '\n'])
include isBreak

variable {lines : List Text} (each : ∀ line ∈ lines, IsImportLine line) {source : Text}
  (inCode : StatementsInCode source) {legacyPrefix name : Text}
  (inPrefix : ∀ c ∈ legacyPrefix, isNamePart c = true) (inName : ∀ c ∈ name, isNamePart c = true)
include each inCode inPrefix inName

/-- Import lines that are put into a source change no test that it declares. -/
theorem declares_insertBlock (h : Declares legacyPrefix name (bare source)) :
    Declares legacyPrefix name
      (bare (insertBlock source (joinLines separator lines) separator)) := by
  by_cases none : lines = []
  · rw [none]
    exact h
  have blank := (blank_of_isBreak isBreak).1
  have isHeader := isHeaderText_joinLines blank each
  have last := getLast?_joinLines isBreak none
  have nonempty : joinLines separator lines ≠ [] := fun empty => by simp [empty] at last
  have fits := slotOf_fits source separator
  rw [insertBlock_eq nonempty, Slot.fill, Slot.stretch]
  have whole := fits.whole
  rcases fits.place with top | ⟨a, gap, behind⟩
  · have isLines : IsHeaderText (joinLines separator lines ++ (slotOf source separator).trail) ∧
        (joinLines separator lines ++ (slotOf source separator).trail).getLast? = some '\n' := by
      rcases top.trail with trail | trail
      · rw [trail, List.append_nil]
        exact ⟨isHeader, last⟩
      · rw [trail]
        exact ⟨List.forall_mem_append.mpr ⟨isHeader, isHeaderText_of_blank blank⟩,
          Text.getLast?_append_separator isBreak _⟩
    rw [top.before, List.nil_append] at whole
    rw [top.before, top.lead, ← whole]
    exact declares_lines_append isLines.1 isLines.2 h
  · have cut : source = a ++ ';' :: (gap ++ (slotOf source separator).after) := by
      rw [behind.before] at whole
      simpa using whole
    have isGap := behind.blank
    have isLines :
        IsHeaderText (gap ++ (slotOf source separator).lead ++ joinLines separator lines) :=
      List.forall_mem_append.mpr ⟨List.forall_mem_append.mpr
        ⟨isHeaderText_of_blank isGap, isHeaderText_of_blank (behind.blank_lead blank)⟩, isHeader⟩
    have before := after_of_statement inCode cut behind.statement
    rw [cut] at h
    have filled :=
      declares_of_blank inPrefix inName before isGap (behind.ends.imp id And.right) isLines
      (by rw [List.getLast?_append, last]; rfl) h
    rw [behind.before, behind.trail]
    simpa using filled

end Insertion

end Header

end Testwright
