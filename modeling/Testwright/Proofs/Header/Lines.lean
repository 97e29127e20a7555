import Testwright.Proofs.Header.Insertion
import Testwright.Proofs.Text.Lines

namespace Testwright
namespace Header

/-!
# The characters of header lines

Import lines, and the blanks between them, hold nothing but the characters of header
statements; an import line is one line.
-/

open Character (isBlank)
open HeaderStatement (IsWording isWordingPart keyword)
open TestPlan (joinLines)
open Text (Blank)

theorem blank_of_isBreak {separator : Text} (h : separator = ['\n'] ∨ separator = ['\r', '\n']) :
    Blank separator ∧ separator ≠ [] := by
  rcases h with rfl | rfl <;> decide

/-- A character of a header statement. -/
def isHeaderPart (c : Char) : Bool :=
  isWordingPart c || c == ';'

theorem isHeaderPart_of_isBlank {c : Char} (blank : isBlank c = true) : isHeaderPart c = true := by
  simp [isHeaderPart, HeaderStatement.isWordingPart_of_isBlank blank]

/-- Nothing but characters of header statements stands in the text. -/
abbrev IsHeaderText (t : Text) : Prop :=
  ∀ c ∈ t, isHeaderPart c = true

theorem IsHeaderText.ne {t : Text} (h : IsHeaderText t) {c d : Char} (member : c ∈ t)
    (other : isHeaderPart d = false) : c ≠ d := by
  rintro rfl
  rw [h c member] at other
  cases other

theorem isHeaderText_of_blank {gap : Text} (blank : Blank gap) : IsHeaderText gap :=
  fun c member => isHeaderPart_of_isBlank (blank c member)

/-- An import line is a keyword, a blank and a name, with a semicolon behind them; it
holds no line break. -/
theorem IsImportLine.exists_parts {line : Text} (h : IsImportLine line) :
    ∃ u, line = keyword true ++ ' ' :: u ++ [';'] ∧
      ∀ c ∈ keyword true ++ ' ' :: u, isWordingPart c = true ∧ c ≠ '\n' := by
  rcases h with ⟨form, dotted, rfl⟩
  have shape : form.line = keyword true ++ ' ' :: form.declared ++ [';'] := by
    rw [form.line_eq]
    generalize keyword true = word
    simp
  rcases (ImportForm.isWording_line dotted).exists_parts with ⟨c, u, whole, -, parts⟩
  have same : keyword true ++ ' ' :: form.declared = c :: u :=
    List.append_cancel_right (shape.symm.trans whole)
  have oneLine : ∀ d ∈ form.declared, d ≠ '\n' := by
    refine List.forall_mem_append.mpr ⟨?_, fun d member => ?_⟩
    · split
      · decide
      · simp
    · rintro rfl
      exact absurd (ImportForm.visible_target dotted _ member) (by decide)
  refine ⟨form.declared, shape, fun d member => ⟨parts d (same ▸ member), ?_⟩⟩
  rcases List.mem_append.mp member with inWord | member
  · exact (by decide : ∀ d ∈ keyword true, d ≠ '\n') d inWord
  · rcases List.mem_cons.mp member with rfl | inName
    · decide
    · exact oneLine d inName

/-! ## Package lines -/

/-- The statement of a package as a line. -/
def packageLine (package : Text) : Text :=
  "package ".toList ++ package ++ ";".toList

theorem packageLine_eq (package : Text) :
    packageLine package = keyword false ++ ' ' :: package ++ [';'] := by
  have shape : packageLine package = (keyword false ++ [' ']) ++ package ++ [';'] :=
    congrArg₂ (fun word final => word ++ package ++ final) (by decide) (by decide)
  rw [shape]
  generalize keyword false = word
  simp

section Package

variable {package : Text} (dotted : isDottedPath package = true)
include dotted

theorem isWording_packageLine : IsWording false package (packageLine package) := by
  let form : ImportForm := ⟨false, package, false⟩
  have shape : form.declared = package := by simp [form, ImportForm.declared]
  have wording : IsWording true form.declared form.line := ImportForm.isWording_line dotted
  rw [shape] at wording
  rcases wording with ⟨-, -, -, -, -, -, isPath⟩
  refine ⟨[' '], [], ?_, by decide, by decide, Text.blank_nil, isPath⟩
  rw [packageLine_eq]
  generalize keyword false = word
  simp

theorem canonicalText_package :
    HeaderStatement.canonicalText false package = packageLine package := by
  let form : ImportForm := ⟨false, package, false⟩
  have shape : form.declared = package := by simp [form, ImportForm.declared]
  have canonical : HeaderStatement.canonicalPath form.declared = form.declared :=
    ImportForm.canonicalPath_declared dotted
  rw [shape] at canonical
  rw [HeaderStatement.canonicalText, canonical]
  rfl

theorem entries_packageLine (t : Text) :
    entries (packageLine package ++ t) = (false, packageLine package) :: entries t := by
  rw [entries_append_of_isWording (isWording_packageLine dotted), canonicalText_package dotted]

theorem packageLine_parts :
    ∀ c ∈ keyword false ++ ' ' :: package, isWordingPart c = true ∧ c ≠ '\n' := by
  rcases (isWording_packageLine dotted).exists_parts with ⟨c, u, whole, -, parts⟩
  have same : keyword false ++ ' ' :: package = c :: u :=
    List.append_cancel_right ((packageLine_eq package).symm.trans whole)
  refine fun d member => ⟨parts d (same ▸ member), ?_⟩
  rcases List.mem_append.mp member with inWord | member
  · exact (by decide : ∀ d ∈ keyword false, d ≠ '\n') d inWord
  · rcases List.mem_cons.mp member with rfl | inName
    · decide
    · rintro rfl
      exact absurd (visible_of_isDottedPath dotted _ inName) (by decide)

end Package

/-! ## Headers in rows -/

/-- A line of a header: an empty line, or a statement on a line of its own. -/
inductive Row where
  | blank
  | package (name : Text)
  | imported (line : Text)
deriving DecidableEq

namespace Row

def text : Row → Text
  | blank => []
  | package name => packageLine name
  | imported line => line

/-- The statement of a row, if it has one. -/
def entry? : Row → Option (Bool × Text)
  | blank => none
  | package name => some (false, packageLine name)
  | imported line => some (true, line)

/-- The statement names a dotted path. -/
def IsDotted : Row → Prop
  | blank => True
  | package name => isDottedPath name = true
  | imported line => IsImportLine line

variable {row : Row}

/-- A row is empty or a keyword, a blank and a name with a semicolon behind them. -/
theorem IsDotted.exists_parts (dotted : row.IsDotted) : row.text = [] ∨
    ∃ isImport u, row.text = keyword isImport ++ ' ' :: u ++ [';'] ∧
      ∀ c ∈ keyword isImport ++ ' ' :: u, isWordingPart c = true ∧ c ≠ '\n' := by
  cases row with
  | blank => exact Or.inl rfl
  | package name => exact Or.inr ⟨false, name, packageLine_eq name, packageLine_parts dotted⟩
  | imported line =>
      rcases IsImportLine.exists_parts dotted with ⟨u, shape, parts⟩
      exact Or.inr ⟨true, u, shape, parts⟩

theorem IsDotted.isHeaderText (dotted : row.IsDotted) : IsHeaderText row.text := by
  rcases dotted.exists_parts with none | ⟨isImport, u, shape, parts⟩
  · rw [none]
    exact isHeaderText_of_blank Text.blank_nil
  · rw [shape]
    exact List.forall_mem_append.mpr
      ⟨fun c member => by simp [isHeaderPart, (parts c member).1], by decide⟩

theorem entries_append (dotted : row.IsDotted) (t : Text) :
    entries (row.text ++ t) = row.entry?.toList ++ entries t := by
  cases row with
  | blank => rfl
  | package name => exact entries_packageLine dotted t
  | imported line => exact IsImportLine.entries_append dotted t

end Row

/-- The rows as lines. -/
def rowsText (separator : Text) (rows : List Row) : Text :=
  joinLines separator (rows.map Row.text)

theorem rowsText_cons (separator : Text) (row : Row) (rows : List Row) :
    rowsText separator (row :: rows) = row.text ++ separator ++ rowsText separator rows := rfl

theorem rowsText_append (separator : Text) (rows rows' : List Row) :
    rowsText separator (rows ++ rows') = rowsText separator rows ++ rowsText separator rows' := by
  simp [rowsText, joinLines]

/-- Import lines are rows. -/
theorem rowsText_imported (separator : Text) (lines : List Text) :
    rowsText separator (lines.map Row.imported) = joinLines separator lines := by
  simp [rowsText, Function.comp_def, Row.text]

theorem isDotted_of_mem_imported {lines : List Text} (each : ∀ line ∈ lines, IsImportLine line) :
    ∀ row ∈ lines.map Row.imported, row.IsDotted := by
  intro row member
  rcases List.mem_map.mp member with ⟨line, isLine, rfl⟩
  exact each line isLine

section Rows

variable {separator : Text} (blank : Blank separator) {rows : List Row}
  (dotted : ∀ row ∈ rows, row.IsDotted)
include blank dotted

theorem entries_rowsText (t : Text) :
    entries (rowsText separator rows ++ t) = rows.filterMap Row.entry? ++ entries t := by
  induction rows with
  | nil => rfl
  | cons row rows ih =>
      have others := ih fun other member => dotted other (List.mem_cons_of_mem row member)
      rw [rowsText_cons, List.append_assoc, List.append_assoc,
        Row.entries_append (dotted row List.mem_cons_self), entries_gap blank, others,
        List.filterMap_cons]
      cases row.entry? <;> simp

theorem isHeaderText_rowsText : IsHeaderText (rowsText separator rows) := by
  intro c member
  rcases List.mem_flatMap.mp member with ⟨line, isLine, inside⟩
  rcases List.mem_map.mp isLine with ⟨row, isRow, rfl⟩
  rcases List.mem_append.mp inside with inLine | inSeparator
  · exact (dotted row isRow).isHeaderText c inLine
  · exact isHeaderPart_of_isBlank (blank c inSeparator)

end Rows

theorem isHeaderText_joinLines {separator : Text} (blank : Blank separator) {lines : List Text}
    (each : ∀ line ∈ lines, IsImportLine line) : IsHeaderText (joinLines separator lines) := by
  rw [← rowsText_imported]
  exact isHeaderText_rowsText blank (isDotted_of_mem_imported each)

section Break

variable {separator : Text} (isBreak : separator = ['\n'] ∨ separator = ['\r', '\n'])
include isBreak

theorem getLast?_joinLines {lines : List Text} (nonempty : lines ≠ []) :
    (joinLines separator lines).getLast? = some '\n' := by
  rcases List.eq_nil_or_concat lines with rfl | ⟨front, line, rfl⟩
  · exact absurd rfl nonempty
  · have ends : joinLines separator (front ++ [line]) =
        (joinLines separator front ++ line) ++ separator := by
      simp [joinLines]
    rw [List.concat_eq_append, ends]
    exact Text.getLast?_append_separator isBreak _

theorem getLast?_rowsText {rows : List Row} (nonempty : rows ≠ []) :
    (rowsText separator rows).getLast? = some '\n' :=
  getLast?_joinLines isBreak (by simpa using nonempty)

end Break

end Header
end Testwright
