import Testwright.Proofs.Convention.BaseClass
import Testwright.Proofs.Convention.Rewriting
import Testwright.Proofs.Header.Removal
import Testwright.Proofs.Testing.Merging
import Testwright.Proofs.Testing.Unbroken

namespace Testwright

/-!
# Edits keep the line breaks of a source

What a source ends its lines with is read off the source before anything is put in, and
read off it again after tests were appended, so every line that is put in ends that way.
The places where lines are put in or text is taken out stand behind a semicolon, a
bracket, a name or a line feed, and never between a carriage return and its line feed.
So a source that breaks its lines in one way does so after every edit
(`TestSource.edits_keep_breaks`).
-/

open Text (Unbroken)

variable {breaks : BreakStyle}

/-! ## Imports put in and taken out -/

namespace Header

open HeaderStatement (ofSource)
open TestPlan (joinLines)

variable {source : Text} (holds : breaks.Holds source)

section Insertion

include holds

theorem holds_insertBlock {block : Text} (lines : breaks.Holds block) :
    breaks.Holds (insertBlock source block breaks.separator) := by
  by_cases none : block = []
  · rw [none, insertBlock_nil]
    exact holds
  · have fits := slotOf_fits source breaks.separator
    rw [insertBlock_eq none]
    set slot := slotOf source breaks.separator
    have noReturn : slot.before.getLast? ≠ some '\r' := fun last => by
      rcases fits.getLast?_before last with other | other <;> exact absurd other (by decide)
    have separator : breaks.Holds breaks.separator := BreakStyle.holds_separator
    have edges : breaks.Holds slot.lead ∧ breaks.Holds slot.trail := by
      rcases fits.place with top | ⟨a, gap, behind⟩
      · rw [top.lead]
        refine ⟨BreakStyle.holds_nil, ?_⟩
        rcases top.trail with trail | trail <;> rw [trail]
        · exact BreakStyle.holds_nil
        · exact separator
      · rw [behind.trail]
        refine ⟨?_, BreakStyle.holds_nil⟩
        rcases behind.lead with ⟨lead, -⟩ | lead | lead <;> rw [lead]
        · exact BreakStyle.holds_nil
        · exact separator
        · exact separator.append separator
    rw [fits.whole] at holds
    exact holds.insert (fun last => absurd last noReturn) ((edges.1.append lines).append edges.2)

theorem holds_withImports {target : Option ClassSurface} (convention : Convention)
    (imports : ∀ surface ∈ target, ∀ imported ∈ surface.imports, Unbroken imported) :
    breaks.Holds (Convention.withImports target convention breaks.separator source) := by
  rw [Convention.withImports, missingImports_eq]
  refine holds_insertBlock holds (BreakStyle.holds_joinLines fun line member => ?_)
  rcases List.mem_append.mp (List.mem_filter.mp member).1 with ofTarget | ofConvention
  · cases target with
    | none => cases ofTarget
    | some surface =>
        rcases List.mem_map.mp ofTarget with ⟨imported, inside, rfl⟩
        exact (Unbroken.append (by decide) (imports surface rfl imported inside)).append (by decide)
  · cases convention with
    | modern =>
        exact (by decide : ∀ line ∈ Convention.modern.imports, Unbroken line) line ofConvention
    | legacy =>
        exact (by decide : ∀ line ∈ Convention.legacy.imports, Unbroken line) line ofConvention

/-- The separator is read off the source once more. -/
theorem holds_addMissingImports (feed : '\n' ∈ source) {target : ClassSurface}
    (imports : ∀ imported ∈ target.imports, Unbroken imported) (convention : Convention) :
    breaks.Holds (addMissingImports source target convention) := by
  have ofTarget : ∀ surface ∈ some target, ∀ imported ∈ surface.imports, Unbroken imported := by
    rintro surface same
    rcases Option.some.inj same with rfl
    exact imports
  rw [addMissingImports, holds.lineSeparator_eq feed]
  exact holds_withImports holds convention ofTarget

end Insertion

theorem sublist_dropLines (wanted : Text) (keptBlank dropsBlank : Bool) (lines : List Line) :
    (dropLines wanted keptBlank dropsBlank lines).Sublist lines := by
  induction lines generalizing keptBlank dropsBlank with
  | nil => exact List.Sublist.slnil
  | cons line lines ih =>
      rw [dropLines]
      split
      · exact (ih _ _).cons line
      · split
        · exact (ih _ _).cons_cons line
        · exact (ih _ _).cons line

section Removal

include holds

theorem holds_dropLine (line : Text) : breaks.Holds (dropLine source line) := by
  have sublist := sublist_dropLines (Text.trim line) false false (Line.ofText source)
  exact Line.holds_texts fun other member =>
    Line.isEndedBy_of_mem_ofText holds other (sublist.subset member)

theorem holds_cutStatement? {wanted rest : Text} (cut : cutStatement? wanted source = some rest) :
    breaks.Holds rest := by
  rw [cutStatement?] at cut
  split at cut
  · cases cut
  · rename_i statement found
    rcases Option.some.inj cut with rfl
    rcases HeaderStatement.exists_wording_of_mem_ofSource (List.mem_of_find?_eq_some found) with
      ⟨x, s, b, isImport, path, rfl, wording, start, stop, -⟩
    rcases wording.exists_parts with ⟨c, u, rfl, -, -⟩
    have front : (x ++ (c :: (u ++ [';']) ++ b)).take statement.start = x :=
      List.take_left' start.symm
    have back : (x ++ (c :: (u ++ [';']) ++ b)).drop statement.stop = b := by
      rw [← List.append_assoc]
      exact List.drop_left' stop.symm
    rw [front, back]
    have parted : b = b.takeWhile isSpaceOrTab ++ b.dropWhile isSpaceOrTab :=
      List.takeWhile_append_dropWhile.symm
    have whole : x ++ (c :: (u ++ [';']) ++ b) =
        x ++ (c :: u ++ ';' :: b.takeWhile isSpaceOrTab) ++ b.dropWhile isSpaceOrTab := by
      conv_lhs => rw [parted]
      simp
    rw [whole] at holds
    refine holds.remove fun last => ?_
    rw [← List.append_assoc, List.getLast?_append_of_ne_nil _ (by simp)] at last
    rcases List.mem_cons.mp (List.mem_of_getLast? last) with semicolon | inSpaces
    · exact absurd semicolon (by decide)
    · exact absurd (List.mem_takeWhile_imp inSpaces) (by decide)

theorem holds_removeImport (line : Text) : breaks.Holds (removeImport source line) := by
  have dropped := holds_dropLine holds line
  rw [removeImport]
  split
  · exact dropped
  · exact Text.peel_induction (fun t rest cut ofText => holds_cutStatement? ofText cut) dropped

theorem holds_dropUnused (line name : Text) :
    breaks.Holds (Convention.dropUnused line name source) := by
  rw [Convention.dropUnused]
  split
  · exact holds
  · exact holds_removeImport holds line

end Removal

end Header

/-! ## The header of the class -/

namespace Convention

open Matcher (classHeader extendsTestCase markedLine voidLine)

section ClassHeader

variable {source : Text} {header : ClassHeader} (holds : breaks.Holds source)
  (found : classHeader.find? source = some header)
include holds found

/-- The clause that is taken out ends with the name of the base class. -/
theorem holds_dropBaseClass : breaks.Holds (dropBaseClass header) := by
  rcases ClassHeader.exists_of_find? found with ⟨x, parts, rest, rfl, -, -, rfl⟩
  rw [dropBaseClass, ClassHeader.Parts.header_clauses_text, ClassHeader.Parts.header_clauses_before,
    ClassHeader.Parts.header_clauses_after, List.reverse_reverse]
  set front := x ++ (parts.lead ++ (parts.heading ++ parts.angles)) with isFront
  have whole : x ++ (parts.text ++ '\x7b' :: rest) = front ++ parts.clauses ++ '\x7b' :: rest := by
    simp [isFront, ClassHeader.Parts.text]
  rw [whole] at holds
  cases read : extendsTestCase.find? parts.clauses with
  | none => exact holds
  | some clause =>
      rcases Matcher.exists_of_find?_extendsTestCase read with ⟨taken, cut⟩
      have parted : front ++ parts.clauses ++ '\x7b' :: rest =
          (front ++ clause.before) ++ (taken ++ ['e']) ++ (clause.after ++ '\x7b' :: rest) := by
        rw [cut]
        simp
      rw [parted] at holds
      have left := holds.remove fun last => by
        rw [← List.append_assoc, List.getLast?_concat] at last
        exact absurd last (by decide)
      simpa using left

/-- The clause that is put in goes behind a name or a closing bracket. -/
theorem holds_addBaseClass : breaks.Holds (addBaseClass header) := by
  rcases ClassHeader.exists_of_find? found with ⟨x, parts, rest, rfl, -, fits, rfl⟩
  rw [addBaseClass, ClassHeader.Parts.header_declaration_before,
    ClassHeader.Parts.header_declaration_text, ClassHeader.Parts.header_declaration_after,
    List.reverse_reverse]
  have whole : x ++ (parts.text ++ '\x7b' :: rest) =
      x ++ parts.lead ++ (parts.heading ++ parts.angles) ++ (parts.clauses ++ '\x7b' :: rest) := by
    simp [ClassHeader.Parts.text]
  rw [whole] at holds
  refine holds.insert (fun last => ?_) (BreakStyle.holds_of_unbroken (by decide))
  rcases fits.heading with ⟨lead, name, heading, -, nonempty, named⟩
  rcases fits.clauses with ⟨gap, inner, angles, -, -⟩ | ⟨angles, -⟩
  · have ends : x ++ parts.lead ++ (parts.heading ++ parts.angles) =
        (x ++ parts.lead ++ (parts.heading ++ (gap ++ '<' :: inner))) ++ ['>'] := by
      rw [angles]
      simp
    rw [ends, List.getLast?_concat] at last
    exact absurd last (by decide)
  · rw [angles, heading, List.append_nil, ← List.append_assoc,
      List.getLast?_append_of_ne_nil _ nonempty] at last
    exact absurd (named '\r' (List.mem_of_getLast? last)) (by decide)

end ClassHeader

/-! ## Lines that are rewritten -/

section Lines

variable {legacyPrefix : Text}

/-- A declaration that gets its mark or loses its prefix keeps its ending. -/
theorem holds_markLine {line : Line} (ended : line.IsEndedBy breaks) (marked : Bool) :
    breaks.Holds (markLine legacyPrefix breaks.separator marked line) := by
  rcases line with ⟨content, ending⟩
  cases isMarked : markedLine.read? content with
  | some _ =>
      have reads : markedLine.reads content = true := by
        rw [Matcher.reads, isMarked]
        rfl
      rw [markLine, if_pos reads]
      exact ended.holds
  | none =>
      cases read : voidLine.read? content with
      | none =>
          have plain : IsPlain ⟨content, ending⟩ := ⟨isMarked, read⟩
          rw [markLine_of_plain plain]
          exact ended.holds
      | some declared =>
          have inLine : ∀ c ∈ declared.text, breaks.isInline c = true := by
            rw [← (VoidLine.isFormed_of_read? read).1]
            exact ended.content
          by_cases prefixed : ∃ bare, declared.name = legacyPrefix ++ bare ∧ bare ≠ []
          · rcases prefixed with ⟨bare, name, nonempty⟩
            have indent : breaks.Holds declared.indent :=
              BreakStyle.holds_of_isInline fun c member =>
              inLine c (List.mem_append_left _ member)
            have unprefixed : breaks.Holds { declared with name := bare }.text :=
              BreakStyle.holds_of_isInline fun c member => inLine c (by
                simp only [VoidLine.text, name, List.mem_append] at member ⊢
                tauto)
            rw [markLine_of_declared isMarked read name nonempty]
            refine BreakStyle.Holds.append ?_ (unprefixed.append ended.holds_ending)
            split
            · exact BreakStyle.holds_nil
            · exact (indent.append (BreakStyle.holds_of_unbroken (by decide))).append
                BreakStyle.holds_separator
          · push Not at prefixed
            rw [markLine_of_other read prefixed]
            exact ended.holds

theorem holds_markLines {lines : List Line} (ended : ∀ line ∈ lines, line.IsEndedBy breaks)
    (marked : Bool) :
    breaks.Holds (markLines legacyPrefix breaks.separator marked lines) := by
  induction lines generalizing marked with
  | nil => exact BreakStyle.holds_nil
  | cons line lines ih =>
      rw [markLines_cons]
      exact (holds_markLine (ended line List.mem_cons_self) marked).append
        (ih (fun other member => ended other (List.mem_cons_of_mem line member)) _)

variable (unbroken : Unbroken legacyPrefix)
include unbroken

theorem isInline_prefixedLine {declared : VoidLine}
    (inLine : ∀ c ∈ declared.text, breaks.isInline c = true) :
    ∀ c ∈ prefixedLine legacyPrefix declared, breaks.isInline c = true := by
  intro c member
  have parts : c ∈ legacyPrefix ∨ c ∈ declared.text := by
    simp only [prefixedLine, VoidLine.text, List.mem_append] at member ⊢
    split at member
    · simp only [List.not_mem_nil] at member
      tauto
    · tauto
  exact parts.elim (BreakStyle.isInline_of_unbroken unbroken breaks c) (inLine c)

/-- A line that loses its mark or gets the prefix keeps its ending, and one with nothing
but a mark goes with its ending. -/
theorem holds_unmarkLine {line : Line} (ended : line.IsEndedBy breaks) (waiting : Bool) :
    breaks.Holds (unmarkLine legacyPrefix waiting line) := by
  have declaration : ∀ {t : Text} {declared : VoidLine}, (∀ c ∈ t, breaks.isInline c = true) →
      voidLine.read? t = some declared →
      breaks.Holds (prefixedLine legacyPrefix declared ++ line.ending) := by
    intro t declared inLine read
    rw [(VoidLine.isFormed_of_read? read).1] at inLine
    exact (BreakStyle.holds_of_isInline (isInline_prefixedLine unbroken inLine)).append
      ended.holds_ending
  rw [unmarkLine]
  split
  · rename_i marked read
    have noFeed : '\n' ∉ line.content := fun member =>
      BreakStyle.ne_feed_of_isInline (ended.content '\n' member) rfl
    rcases (MarkedLine.read?_eq_some_iff noFeed).mp read with ⟨arguments, spaces, formed⟩
    have inLine : ∀ c ∈ marked.indent ++ marked.rest, breaks.isInline c = true := fun c member =>
      ended.content c (by
        rw [formed.whole]
        simp only [List.mem_append] at member ⊢
        tauto)
    split
    · exact BreakStyle.holds_nil
    · split
      · exact declaration inLine ‹_›
      · exact (BreakStyle.holds_of_isInline inLine).append ended.holds_ending
  · split
    · split
      · exact declaration ended.content ‹_›
      · exact ended.holds
    · exact ended.holds

theorem holds_unmarkLines {lines : List Line} (ended : ∀ line ∈ lines, line.IsEndedBy breaks)
    (waiting : Bool) :
    breaks.Holds (unmarkLines legacyPrefix waiting lines) := by
  induction lines generalizing waiting with
  | nil => exact BreakStyle.holds_nil
  | cons line lines ih =>
      rw [unmarkLines_cons]
      exact (holds_unmarkLine unbroken (ended line List.mem_cons_self) waiting).append
        (ih (fun other member => ended other (List.mem_cons_of_mem line member)) _)

end Lines

/-- The separator is read off the source before anything of it is rewritten. -/
theorem holds_convert {style : TestStyle} (marks : style.IsUnbroken) {target : Option ClassSurface}
    (imports : ∀ surface ∈ target, ∀ imported ∈ surface.imports, Unbroken imported) {source : Text}
    (holds : breaks.Holds source) (feed : '\n' ∈ source) {wanted : Convention} {result : Text}
    (converted : convert style target wanted source = .ok result) : breaks.Holds result := by
  simp only [convert, holds.lineSeparator_eq feed] at converted
  split at converted
  · cases converted
  · split at converted
    · rw [← Except.ok.inj converted]
      exact holds
    · cases wanted with
      | modern =>
          simp only [toModern] at converted
          split at converted
          · cases converted
          · rename_i header found
            have ended := Line.isEndedBy_of_mem_ofText (holds_dropBaseClass holds found)
            rw [← Except.ok.inj converted]
            exact Header.holds_withImports
              (Header.holds_dropUnused (holds_markLines ended false) _ _) _ imports
      | legacy =>
          simp only [toLegacy] at converted
          split at converted
          · cases converted
          · rename_i header found
            have ended := Line.isEndedBy_of_mem_ofText (holds_addBaseClass holds found)
            have unmarked := holds_unmarkLines marks.legacyPrefix ended false
            split at converted
            · cases converted
            · rw [← Except.ok.inj converted]
              have removed := Header.holds_removeImport unmarked
              exact Header.holds_withImports (Header.holds_dropUnused (removed _) _ _) _ imports

end Convention

/-! ## Edits -/

namespace TestSource

open TestPlan (joinLines ofSurface)

section Merge

variable {style : TestStyle} (marks : style.IsUnbroken) {target : ClassSurface}
  (unbroken : target.IsUnbroken) {existing : Text} (holds : breaks.Holds existing)
  (feed : '\n' ∈ existing)
include marks unbroken holds feed

/-- The tests go between a line break that stands there or is put there and the brace. -/
theorem holds_withLackingTests {convention : Convention} {merged : Text}
    (appended : withLackingTests style target convention existing = .ok merged) :
    breaks.Holds merged := by
  rw [withLackingTests] at appended
  split at appended
  · rw [← Except.ok.inj appended]
    exact holds
  · rename_i test tests lacks
    have planned : ∀ other ∈ test :: tests, other ∈ (ofSurface style target).tests := by
      rw [← lacks]
      exact fun other member => (List.mem_filter.mp member).1
    rw [Text.appendMethods, holds.lineSeparator_eq feed] at appended
    split at appended
    · cases appended
    · rename_i cut found
      rw [Text.cutAtLast?_eq_some found] at holds
      rw [← Except.ok.inj appended, List.append_assoc cut.1]
      refine holds.insert (fun _ => by simp) (BreakStyle.Holds.append ?_
        (TestPlan.holds_renderTests marks unbroken convention planned))
      split
      · exact BreakStyle.holds_nil
      · exact BreakStyle.holds_separator

theorem holds_merge (visible : Text.allBlank existing = false) {result : Text}
    (merged : merge style target existing = .ok result) : breaks.Holds result := by
  rw [merge_of_visible visible] at merged
  cases appending : withLackingTests style target (shownConvention style existing) existing with
  | error refusal =>
      rw [appending] at merged
      cases merged
  | ok appended =>
      rw [appending] at merged
      have feed' : '\n' ∈ appended := by
        rcases exists_stretch_of_withLackingTests appending with ⟨a, s, b, rfl, rfl⟩
        simp only [List.mem_append] at feed ⊢
        tauto
      rw [← Except.ok.inj merged]
      exact Header.holds_addMissingImports
        (holds_withLackingTests marks unbroken holds feed appending) feed'
        unbroken.imports _

end Merge

/-- Where neither the style nor the class has a string with a line break in it, an edit
leaves each line feed of a source behind a carriage return if that is where they stand,
and brings no carriage return into a source without one; the separator of the style does
not matter. -/
theorem edits_keep_breaks {style : TestStyle} (marks : style.IsUnbroken) {target : ClassSurface}
    (unbroken : target.IsUnbroken) {existing : Text} (visible : Text.allBlank existing = false)
    (feed : '\n' ∈ existing) {breaks : BreakStyle} (holds : breaks.Holds existing) :
    (∀ result, merge style target existing = .ok result → breaks.Holds result) ∧
    breaks.Holds (addImports style target existing) ∧
    ∀ wanted result, unify style target wanted existing = .ok result → breaks.Holds result := by
  refine ⟨fun result => holds_merge marks unbroken holds feed visible,
    Header.holds_addMissingImports holds feed unbroken.imports _, fun wanted result unified => ?_⟩
  rw [unify, if_neg (by simp [visible])] at unified
  refine Convention.holds_convert marks (fun surface same => ?_) holds feed unified
  rcases Option.some.inj same with rfl
  exact unbroken.imports

/-- A class on two lines with carriage returns, edited in a style that separates lines by
line feeds. -/
theorem edits_keep_breaks_pairs :
    let target := ClassSurface.named "S".toList
    let existing :=
      joinLines BreakStyle.pairs.separator ["class S extends TestCase \x7b".toList, "\x7d".toList]
    TestStyle.legacy.lineSeparator = ['\n'] ∧ TestStyle.legacy.IsUnbroken ∧ target.IsUnbroken ∧
      Text.allBlank existing = false ∧ '\n' ∈ existing ∧ BreakStyle.pairs.Holds existing ∧
      ((∀ result, merge TestStyle.legacy target existing = .ok result →
        BreakStyle.pairs.Holds result) ∧
        BreakStyle.pairs.Holds (addImports TestStyle.legacy target existing) ∧
        ∀ wanted result, unify TestStyle.legacy target wanted existing = .ok result →
          BreakStyle.pairs.Holds result) ∧
      (merge TestStyle.legacy target existing).isOk = true ∧
      (unify TestStyle.legacy target .modern existing).isOk = true := by
  intro target existing
  have marks : TestStyle.legacy.IsUnbroken := { TestStyle.isUnbroken_modern with }
  have unbroken : target.IsUnbroken := ClassSurface.isUnbroken_named (by decide)
  have visible : Text.allBlank existing = false := by decide
  have feed : '\n' ∈ existing := by decide
  have holds : BreakStyle.pairs.Holds existing := BreakStyle.holds_joinLines (by decide)
  exact ⟨rfl, marks, unbroken, visible, feed, holds,
    edits_keep_breaks marks unbroken visible feed holds, by decide +kernel, by decide +kernel⟩

/-- A carriage return alone breaks a line too, but tells no separator: where it is the only
line break of a source, imports come with line feeds; and in the comment of a style it
gets into a source that has line feeds only. -/
theorem not_edits_keep_breaks :
    (let target := ClassSurface.named "S".toList
      let existing := "class T \x7b\r\x7d".toList
      TestStyle.modern.IsUnbroken ∧ target.IsUnbroken ∧ Text.allBlank existing = false ∧
      '\r' ∈ existing ∧
        BreakStyle.pairs.Holds existing ∧
        ¬ BreakStyle.pairs.Holds (addImports TestStyle.modern target existing)) ∧
    (let style := { TestStyle.modern with todoComment := some "// a\rb".toList }
      let target := ClassSurface.named "S".toList
      let existing := "class T \x7b\n\x7d\n".toList
      (∀ line, style.todoComment = some line → '\n' ∉ line) ∧ Text.allBlank existing = false ∧
      '\n' ∈ existing ∧
        BreakStyle.feeds.Holds existing ∧
        ∃ result, merge style target existing = .ok result ∧ ¬ BreakStyle.feeds.Holds result) := by
  refine ⟨⟨TestStyle.isUnbroken_modern,
    ClassSurface.isUnbroken_named (by decide), by decide, by decide,
    BreakStyle.holds_of_isInline (by decide), fun holds => ?_⟩, ?_⟩
  · have cut :
        addImports TestStyle.modern (ClassSurface.named "S".toList) "class T \x7b\r\x7d".toList =
        "import static org.junit.Assert.*;".toList ++
          '\n' :: "import org.junit.Test;\n\nclass T \x7b\r\x7d".toList := by
      decide +kernel
    exact absurd (holds _ _ cut) (by decide)
  · intro style target existing
    have inComment : ∀ line, style.todoComment = some line → '\n' ∉ line := by
      rintro line same
      rcases Option.some.inj same with rfl
      decide
    have returned : (merge style target existing).toOption.any
        (fun result => decide ('\r' ∈ result)) = true := by
      decide +kernel
    cases merged : merge style target existing with
    | error refusal => simp [merged, Except.toOption] at returned
    | ok result =>
        have inside : '\r' ∈ result := by simpa [merged, Except.toOption] using returned
        exact ⟨inComment, by decide, by decide, (by decide : '\r' ∉ existing), result, rfl,
          fun holds => holds inside⟩

end TestSource
end Testwright
