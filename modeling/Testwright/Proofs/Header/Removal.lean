import Testwright.Header.Removal
import Testwright.Proofs.Header.Lines
import Testwright.Proofs.Text.Lines
import Testwright.Proofs.Text.Standing

namespace Testwright
namespace Header

/-!
# Taking import lines out

Of the lines in front of one that stays, those that are equal to an import go, and
apart from blank ones all others stay in their order (`exists_dropLines`).  So rows
lose an import with its row and blank rows at most (`exists_removeImport_rowsText`),
and what is left behind shows every other statement.
-/

open HeaderStatement (BehindEdge IsWording canonicalText header keyword ofSource)
open Matcher (headerStatement)
open TestPlan (joinLines)
open Text (Blank EndsLine Unbroken)

/-! ## Whole lines -/

/-- Lines that are not the wanted one stay where no blank line is to go. -/
theorem exists_dropLines_of_absent {wanted : Text} {upper : List Line}
    (absent : ∀ line ∈ upper, Text.trim line.content ≠ wanted) (keptBlank : Bool)
    (lines : List Line) :
    ∃ keptBlank', dropLines wanted keptBlank false (upper ++ lines) =
      upper ++ dropLines wanted keptBlank' false lines := by
  induction upper generalizing keptBlank with
  | nil => exact ⟨keptBlank, rfl⟩
  | cons line upper ih =>
      rcases ih (fun other member => absent other (List.mem_cons_of_mem line member))
        line.isBlankLine
        with ⟨keptBlank', same⟩
      exact ⟨keptBlank', by simp [dropLines, absent line List.mem_cons_self, same]⟩

/-- Where no line is the wanted one, all stay. -/
theorem dropLines_of_absent {wanted : Text} {lines : List Line}
    (absent : ∀ line ∈ lines, Text.trim line.content ≠ wanted) (keptBlank : Bool) :
    dropLines wanted keptBlank false lines = lines := by
  rcases exists_dropLines_of_absent absent keptBlank [] with ⟨keptBlank', same⟩
  simpa [dropLines] using same

/-- In front of a visible line that stays, the wanted lines go and so may blank ones. -/
theorem exists_dropLines {α : Type} (f : α → Line) {wanted : Text} {stay : Line}
    (visible : stay.isBlankLine = false) (other : Text.trim stay.content ≠ wanted) (rows : List α)
    (keptBlank dropsBlank : Bool) :
    ∃ rows' : List α, rows'.Sublist rows ∧
      rows'.filter (fun row => !(f row).isBlankLine) =
        rows.filter (fun row => !(f row).isBlankLine && Text.trim (f row).content != wanted) ∧
      ∀ rest : List Line, (∀ line ∈ rest, Text.trim line.content ≠ wanted) →
        dropLines wanted keptBlank dropsBlank (rows.map f ++ stay :: rest) =
          rows'.map f ++ stay :: rest := by
  induction rows generalizing keptBlank dropsBlank with
  | nil =>
      refine ⟨[], .refl [], rfl, fun rest absent => ?_⟩
      simp [dropLines, visible, other, dropLines_of_absent absent]
  | cons row rows ih =>
      by_cases dropped : (dropsBlank && (f row).isBlankLine) = true
      · -- a blank line that goes along with the line in front of it
        rcases ih keptBlank false with ⟨rows', sublist, same, dropsTo⟩
        have blank : (f row).isBlankLine = true := (Bool.and_eq_true_iff.mp dropped).2
        exact ⟨rows', sublist.cons row, by simp [same, blank], fun rest absent => by
          simp [dropLines, dropped, dropsTo rest absent]⟩
      · by_cases wantedHere : Text.trim (f row).content = wanted
        · rcases ih keptBlank (keptBlank && (rows.map f ++ [stay]).head?.any Line.isBlankLine) with
            ⟨rows', sublist, same, dropsTo⟩
          refine ⟨rows', sublist.cons row, by simp [same, wantedHere], fun rest absent => ?_⟩
          have head : (rows.map f ++ stay :: rest).head? = (rows.map f ++ [stay]).head? := by
            cases rows <;> rfl
          rw [List.map_cons, List.cons_append, dropLines, if_neg dropped,
            if_neg (not_not.mpr wantedHere), head, dropsTo rest absent]
        · rcases ih (f row).isBlankLine false with ⟨rows', sublist, same, dropsTo⟩
          refine ⟨row :: rows', sublist.cons_cons row, ?_, fun rest absent => ?_⟩
          · cases blank : (f row).isBlankLine <;> simp [same, blank, wantedHere]
          · simp [dropLines, dropped, wantedHere, dropsTo rest absent]

/-! ## Statements -/

theorem cutStatement?_eq_none {wanted source : Text}
    (absent : ∀ entry ∈ entries (header source), entry.2 ≠ wanted) :
    cutStatement? wanted source = none := by
  have none : (ofSource source).find? (fun statement => statement.text == wanted) = none := by
    refine List.find?_eq_none.mpr fun statement member => ?_
    have entry : (statement.isImport, statement.text) ∈ entries (header source) := by
      rw [← HeaderStatement.map_ofSource]
      exact List.mem_map_of_mem member
    simpa using absent _ entry
  rw [cutStatement?, none]

/-- An import is taken out as a line, and then as a statement as often as it is found. -/
theorem removeImport_eq {line : Text} (isImport : IsImportLine line) (source : Text) :
    removeImport source line = (Text.peel (cutStatement? line) (dropLine source line)).1 := by
  rcases isImport with ⟨form, dotted, rfl⟩
  rcases HeaderStatement.reads_of_isWording (ImportForm.isWording_line dotted)
    HeaderStatement.behindEdge_nil []
    with ⟨found, reads, path⟩
  have trimmed : Text.trim form.line = form.line := (ImportForm.isTrimmed_line form).trim_eq
  rw [List.append_nil] at reads
  have here : headerStatement.find? (Text.trim form.line) = some (true, found) := by
    rw [trimmed]
    exact Matcher.findFrom_of_reads reads
  have canonical : canonicalText true found.text = form.line := by
    rw [path, ImportForm.canonicalText_declared dotted]
  rw [removeImport, here]
  exact congrArg (fun wanted => (Text.peel (cutStatement? wanted) (dropLine source form.line)).1)
    canonical

/-! ## Rows -/

/-- An import line holds no blank but single spaces. -/
theorem IsImportLine.unbroken {line : Text} (isImport : IsImportLine line) : Unbroken line := by
  rcases isImport with ⟨form, dotted, rfl⟩
  have path : Unbroken form.target := fun c member => by
    have visible := ImportForm.visible_target dotted c member
    constructor <;> rintro rfl <;> exact absurd visible (by decide)
  have lead : Unbroken (if form.isStatic then "static ".toList else []) := by split <;> decide
  have keyword : Unbroken "import ".toList := by decide
  have ends : Unbroken [';'] := by decide
  exact (keyword.append (lead.append path)).append ends

theorem Row.IsDotted.unbroken {row : Row} (dotted : row.IsDotted) : Unbroken row.text := by
  cases row with
  | blank => exact List.forall_mem_nil _
  | package name =>
      have path : Unbroken name := fun c member => by
        have visible := visible_of_isDottedPath dotted c member
        constructor <;> rintro rfl <;> exact absurd visible (by decide)
      have keyword : Unbroken "package ".toList := by decide
      have ends : Unbroken ";".toList := by decide
      exact (keyword.append path).append ends
  | imported line => exact IsImportLine.unbroken dotted

theorem Row.IsDotted.trim_eq {row : Row} (dotted : row.IsDotted) :
    Text.trim row.text = row.text := by
  cases row with
  | blank => rfl
  | package name =>
      have keyword :=
        Text.isTrimmed_of_visible (show Text.Visible (HeaderStatement.keyword false) by decide)
      have ends := Text.isTrimmed_of_visible (show Text.Visible [';'] by decide)
      rw [Row.text, packageLine_eq, List.append_assoc]
      exact (keyword.append ends (' ' :: name) (by decide) (by simp)).trim_eq
  | imported line =>
      rcases dotted with ⟨form, -, rfl⟩
      exact (ImportForm.isTrimmed_line form).trim_eq

/-- A row is blank exactly if it has no statement. -/
theorem Row.IsDotted.allBlank_eq {row : Row} (dotted : row.IsDotted) :
    Text.allBlank row.text = row.entry?.isNone := by
  have visible : ∀ {t : Text}, ';' ∈ t → Text.allBlank t = false := fun member =>
    List.all_eq_false.mpr ⟨';', member, by decide⟩
  cases row with
  | blank => rfl
  | package name =>
      have ends : ';' ∈ packageLine name := List.mem_append_right _ (List.mem_singleton.mpr rfl)
      rw [Row.text, Row.entry?, visible ends]
      rfl
  | imported line =>
      rcases dotted with ⟨form, -, rfl⟩
      have ends : ';' ∈ form.line := List.mem_append_right _ (List.mem_singleton.mpr rfl)
      rw [Row.text, Row.entry?, visible ends]
      rfl

theorem IsImportLine.ne_packageLine {line : Text} (isImport : IsImportLine line) (name : Text) :
    packageLine name ≠ line := by
  rcases isImport with ⟨form, -, rfl⟩
  intro same
  rw [packageLine_eq, ImportForm.line_eq] at same
  exact absurd (List.cons.inj same).1 (by decide)

section Rows

variable {separator : Text} (isBreak : separator = ['\n'] ∨ separator = ['\r', '\n'])
  {rows : List Row} (dotted : ∀ row ∈ rows, row.IsDotted) {line : Text}
  (isImport : IsImportLine line)
include isBreak dotted

/-- The lines of rows in front of a text. -/
theorem ofText_rowsText (t : Text) :
    Line.ofText (rowsText separator rows ++ t) =
      (rows.map fun row => ⟨row.text, separator⟩) ++ Line.ofText t := by
  have unbroken : ∀ content ∈ rows.map Row.text, Unbroken content := by
    intro content member
    rcases List.mem_map.mp member with ⟨row, inside, rfl⟩
    exact (dotted row inside).unbroken
  rw [rowsText, Line.ofText_append (Text.endsLine_joinLines isBreak),
    Line.ofText_joinLines isBreak unbroken, List.map_map]
  rfl

include isImport

omit isBreak in
/-- The rows that are neither blank nor the import have the other entries. -/
theorem filterMap_entry? {rows' : List Row} (dotted' : ∀ row ∈ rows', row.IsDotted)
    (same : rows'.filter (fun row => !Text.allBlank row.text) =
      rows.filter fun row => !Text.allBlank row.text && Text.trim row.text != line) :
    rows'.filterMap Row.entry? = (rows.filterMap Row.entry?).filter (· != (true, line)) := by
  have shown : rows'.filterMap Row.entry? =
      (rows'.filter fun row => !Text.allBlank row.text).filterMap Row.entry? := by
    rw [List.filterMap_filter]
    refine List.filterMap_congr fun row member => ?_
    rw [(dotted' row member).allBlank_eq]
    cases row.entry? <;> simp
  rw [shown, same, List.filterMap_filter, List.filter_filterMap]
  refine List.filterMap_congr fun row member => ?_
  rw [(dotted row member).allBlank_eq, (dotted row member).trim_eq]
  cases row with
  | blank => rfl
  | package name => simp [Row.entry?, Row.text, isImport.ne_packageLine name, Option.filter]
  | imported other =>
      by_cases equal : other = line <;> simp [Row.entry?, Row.text, equal, Option.filter]

/-- An import is taken out of the rows in front of a class: its row goes, and so may
blank ones. -/
theorem exists_removeImport_rowsText {t : Text} {stay : Line} {rest : List Line}
    (lines : Line.ofText t = stay :: rest) (visible : stay.isBlankLine = false)
    (absent : ∀ other ∈ stay :: rest, Text.trim other.content ≠ line)
    (none : entries (header t) = []) :
    ∃ rows' : List Row, rows'.Sublist rows ∧
      rows'.filterMap Row.entry? = (rows.filterMap Row.entry?).filter (· != (true, line)) ∧
      removeImport (rowsText separator rows ++ t) line = rowsText separator rows' ++ t := by
  have trimmed : Text.trim line = line := by
    rcases isImport with ⟨form, -, rfl⟩
    exact (ImportForm.isTrimmed_line form).trim_eq
  rcases exists_dropLines (fun row : Row => (⟨row.text, separator⟩ : Line)) visible
    (absent stay List.mem_cons_self) rows false false with ⟨rows', sublist, same, dropsTo⟩
  have dotted' : ∀ row ∈ rows', row.IsDotted := fun row member => dotted row (sublist.subset member)
  have statements := filterMap_entry? dotted isImport dotted' same
  have dropped : dropLine (rowsText separator rows ++ t) line = rowsText separator rows' ++ t := by
    rw [dropLine, ofText_rowsText isBreak dotted, lines, trimmed,
      dropsTo rest fun other member => absent other (List.mem_cons_of_mem stay member), ← lines,
      ← ofText_rowsText isBreak dotted', Line.texts_ofText]
  have blank := (blank_of_isBreak isBreak).1
  have noBrace : '\x7b' ∉ rowsText separator rows' := fun member =>
    (isHeaderText_rowsText blank dotted').ne member (by decide) rfl
  have gone : cutStatement? line (rowsText separator rows' ++ t) = .none := by
    apply cutStatement?_eq_none
    rw [HeaderStatement.header_append noBrace, entries_rowsText blank dotted', none,
      List.append_nil, statements]
    intro entry member equal
    have kept := List.mem_filter.mp member
    rcases List.mem_filterMap.mp kept.1 with ⟨row, inside, isEntry⟩
    cases row with
    | blank => cases isEntry
    | package name =>
        rcases Option.some.inj isEntry with rfl
        exact isImport.ne_packageLine name equal
    | imported other =>
        rcases Option.some.inj isEntry with rfl
        simp [show other = line from equal] at kept
  exact ⟨rows', sublist, statements,
    by rw [removeImport_eq isImport, dropped, Text.peel_of_none gone]⟩

end Rows

end Header
end Testwright
