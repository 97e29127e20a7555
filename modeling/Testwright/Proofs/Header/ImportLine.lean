import Testwright.Header.Import
import Testwright.Proofs.Header.Canonical
import Testwright.Proofs.Header.DottedPath
import Testwright.Proofs.Header.Entries
import Testwright.Proofs.Text.Trimming

namespace Testwright

/-!
# Import lines

An import line is written the way the library writes it: the keyword, the word
`static` or not, a dotted path, an asterisk or not, and the semicolon, with single
spaces.  Such a line is a statement in its canonical text, so it is present in a
source exactly if its text is among the entries of the header.  The names of the
path may be any words of name characters.
-/

open Character (isBlank isDottedPart isNamePart)
open HeaderStatement (IsName IsPath IsStep IsWording canonicalPath canonicalText)
open Text (Blank Visible)

namespace ImportForm

open Header (isDottedPath)

/-- The import as a line of a header. -/
def line (form : ImportForm) : Text :=
  "import ".toList ++ form.declared ++ [';']

/-- What stands behind the word `static` of the line. -/
def target (form : ImportForm) : Text :=
  form.path ++ if form.isWildcard then ".*".toList else []

theorem line_eq (form : ImportForm) :
    form.line = HeaderStatement.keyword true ++ ([' '] ++ (form.declared ++ [';'])) := by
  have keyword : "import ".toList = HeaderStatement.keyword true ++ [' '] := by decide
  unfold line
  rw [keyword]
  generalize HeaderStatement.keyword true = word
  simp

variable {form : ImportForm} (h : isDottedPath form.path = true)
include h

theorem visible_target : Visible form.target := by
  refine List.forall_mem_append.mpr ⟨Header.visible_of_isDottedPath h, ?_⟩
  cases form.isWildcard <;> decide

theorem exists_target : ∃ name steps, form.target = name ++ List.flatten steps ∧ IsName name ∧
    ∀ s ∈ steps, IsStep s := by
  rcases Header.exists_names h with ⟨first, rest, path, isFirst, each⟩
  have step : ∀ w, IsName w ∨ w = ['*'] → IsStep ('.' :: w) := fun w last =>
    ⟨[], [], w, rfl, Text.blank_nil, Text.blank_nil, last⟩
  have named : ∀ s ∈ rest.map ('.' :: ·), IsStep s := by
    intro s member
    rcases List.mem_map.mp member with ⟨name, isOne, rfl⟩
    exact step name (Or.inl (each name isOne))
  cases isWildcard : form.isWildcard with
  | false =>
      refine ⟨first, rest.map ('.' :: ·), ?_, isFirst, named⟩
      simp [target, isWildcard, path, List.flatMap_def]
  | true =>
      refine ⟨first, rest.map ('.' :: ·) ++ [['.', '*']], ?_, isFirst, ?_⟩
      · simp [target, isWildcard, path, List.flatMap_def]
      · intro s member
        rcases List.mem_append.mp member with here | last
        · exact named s here
        · rw [List.mem_singleton.mp last]
          exact step ['*'] (Or.inr rfl)

theorem isWording_line : IsWording true form.declared form.line := by
  rcases exists_target h with ⟨name, steps, text, isName, each⟩
  refine ⟨[' '], [], form.line_eq, by simp, by decide, Text.blank_nil, ?_⟩
  cases isStatic : form.isStatic with
  | false =>
      refine ⟨[], name, steps, ?_, Or.inl rfl, isName, each⟩
      rw [declared, isStatic, ← text]
      rfl
  | true =>
      refine ⟨"static ".toList, name, steps, ?_, Or.inr ⟨[' '], rfl, by simp, by decide⟩,
        isName, each⟩
      rw [declared, isStatic, ← text]
      rfl

/-- The path of an import line is in its canonical spacing. -/
theorem canonicalPath_declared : canonicalPath form.declared = form.declared := by
  rcases exists_target h with ⟨name, steps, text, isName, each⟩
  have seen : Visible (List.flatten steps) := fun c member =>
    visible_target h c (by rw [text]; exact List.mem_append_right name member)
  have parts := fun (lead : Text) (isLead : HeaderStatement.IsStaticLead lead) =>
    HeaderStatement.canonicalPath_of_parts isLead isName each
  rw [Text.unspaced_of_visible seen, ← text] at parts
  cases isStatic : form.isStatic with
  | false =>
      have shape : form.declared = [] ++ form.target := by rw [declared, isStatic]; rfl
      rw [shape, parts [] (Or.inl rfl)]
      rfl
  | true =>
      have shape : form.declared = "static ".toList ++ form.target := by
        rw [declared, isStatic]; rfl
      rw [shape, parts "static ".toList (Or.inr ⟨[' '], rfl, by simp, by decide⟩)]
      rfl

/-- The line of an import is its own canonical text. -/
theorem canonicalText_declared : canonicalText true form.declared = form.line := by
  rw [canonicalText, canonicalPath_declared h]
  rfl

end ImportForm

namespace Header

/-- A line that imports a dotted path. -/
def IsImportLine (line : Text) : Prop :=
  ∃ form : ImportForm, isDottedPath form.path = true ∧ line = form.line

theorem IsImportLine.entries_append {line : Text} (h : IsImportLine line) (t : Text) :
    entries (line ++ t) = (true, line) :: entries t := by
  rcases h with ⟨form, dotted, rfl⟩
  rw [entries_append_of_isWording (ImportForm.isWording_line dotted),
    ImportForm.canonicalText_declared dotted]

theorem IsImportLine.noBrace {line : Text} (h : IsImportLine line) : '\x7b' ∉ line := by
  rcases h with ⟨form, dotted, rfl⟩
  exact (ImportForm.isWording_line dotted).noBrace

end Header
end Testwright
