import Testwright.Proofs.Header.ImportLine

namespace Testwright

/-!
# Statements that are present

Whether a source has a statement is read off the entries of its header, and a
line asks for the entry of the statement it is (`containsImport_eq`).  A statement
of a source ends with a semicolon in front of the first opening brace
(`exists_cut_of_mem_ofSource`), so an edit behind it leaves the header of what is
in front as it is.
-/

open Text (Blank)

namespace HeaderStatement

open Matcher (headerStatement)

theorem header_append {a : Text} (noBrace : '\x7b' ∉ a) (b : Text) :
    header (a ++ b) = a ++ header b :=
  List.takeWhile_append_of_pos fun c member => by
    have other : c ≠ '\x7b' := fun same => noBrace (same ▸ member)
    simpa using other

/-- What stands behind an opening brace has no part in the header. -/
theorem header_append_of_mem {a : Text} (brace : '\x7b' ∈ a) (b : Text) :
    header (a ++ b) = header a := by
  rw [header, header, Text.before, Text.before, List.takeWhile_append, if_neg]
  intro all
  have whole := List.IsPrefix.eq_of_length (List.takeWhile_prefix _) all
  have kept := List.takeWhile_eq_self_iff.mp whole '\x7b' brace
  simp at kept

theorem header_eq_self {a : Text} (noBrace : '\x7b' ∉ a) : header a = a := by
  simpa [header, Text.before] using header_append noBrace []

theorem exists_header (source : Text) :
    ∃ b, source = header source ++ b ∧ '\x7b' ∉ header source := by
  refine ⟨source.dropWhile fun d => !(d == '\x7b'), List.takeWhile_append_dropWhile.symm,
    fun member => ?_⟩
  have kept := List.mem_takeWhile_imp member
  simp at kept

/-- The entries of a source are those of its header. -/
theorem map_ofSource (source : Text) :
    ((ofSource source).map fun statement => (statement.isImport, statement.text)) =
      Header.entries (header source) := by
  rw [Header.entries, Header.entriesFrom, ← Matcher.map_snd_findAllFrom_stretchOf, ofSource,
    Matcher.findAll, List.map_map, List.map_map]
  rfl

/-- A statement of a source is a wording behind a word edge, in front of every brace, and
says what the wording does. -/
theorem exists_standing_of_mem_ofSource {source : Text} {statement : HeaderStatement}
    (member : statement ∈ ofSource source) :
    ∃ x s b path, source = x ++ (s ++ b) ∧ IsWording statement.isImport path s ∧
      BehindEdge x.reverse ∧
      statement.text = canonicalText statement.isImport path ∧ statement.start = x.length ∧
      statement.stop = (x ++ s).length ∧ '\x7b' ∉ x ++ s := by
  rcases List.mem_map.mp member with ⟨found, isFound, rfl⟩
  rcases Matcher.exists_of_mem_findAllFrom isFound with ⟨x, y, later, cut, reading⟩
  rcases List.mem_map.mp reading with ⟨⟨value, last⟩, isReading, same⟩
  rcases Prod.mk.inj same with ⟨rfl, rfl⟩
  rcases exists_isWording isReading with ⟨atEdge, s, wording, ahead, behind⟩
  rcases exists_header source with ⟨rest, whole, noBrace⟩
  have ahead : y = s ++ last.ahead := ahead
  have front : header source = x ++ s ++ last.ahead := by
    rw [cut, ahead]
    simp
  rcases wording.exists_parts with ⟨c, u, shape, word, -⟩
  refine ⟨x, s, last.ahead ++ rest, value.2.text, ?_, wording, fun d final => ?_, rfl, ?_, ?_,
    fun inside => noBrace ?_⟩
  · rw [whole, front]
    simp
  · rw [ahead, shape] at atEdge
    exact not_behindEdge_of_word word atEdge (by simpa using final)
  · show (x.reverse ++ []).length = _
    simp
  · have behind : last.behind = s.reverse ++ (x.reverse ++ []) := behind
    show last.behind.length = _
    rw [behind]
    simp [Nat.add_comm]
  · rw [front]
    exact List.mem_append_left _ inside

/-- The statement as it stands in its source. -/
def wording (statement : HeaderStatement) (source : Text) : Text :=
  (source.take statement.stop).drop statement.start

/-- What a statement of a source says is read off its wording. -/
theorem exists_isWording_of_mem_ofSource {source : Text} {statement : HeaderStatement}
    (member : statement ∈ ofSource source) :
    ∃ text, IsWording statement.isImport text (statement.wording source) ∧
      statement.text = canonicalText statement.isImport text := by
  rcases exists_standing_of_mem_ofSource member with
    ⟨x, s, b, text, whole, wording, -, canonical, start, stop, -⟩
  have stands : statement.wording source = s := by
    rw [HeaderStatement.wording, start, stop, whole, ← List.append_assoc, List.take_left,
      List.drop_left]
  exact ⟨text, stands ▸ wording, canonical⟩

/-- A statement of a source is a wording between its two places, in front of every
brace. -/
theorem exists_wording_of_mem_ofSource {source : Text} {statement : HeaderStatement}
    (member : statement ∈ ofSource source) :
    ∃ x s b isImport path, source = x ++ (s ++ b) ∧ IsWording isImport path s ∧
      statement.start = x.length ∧ statement.stop = (x ++ s).length ∧ '\x7b' ∉ x ++ s := by
  rcases exists_standing_of_mem_ofSource member with ⟨x, s, b, path, whole, wording, -, -, places⟩
  exact ⟨x, s, b, _, path, whole, wording, places⟩

/-- A statement of a source ends with a semicolon, and no brace stands in front. -/
theorem exists_cut_of_mem_ofSource {source : Text} {statement : HeaderStatement}
    (member : statement ∈ ofSource source) :
    ∃ a b, source = a ++ ';' :: b ∧ statement.stop = a.length + 1 ∧ '\x7b' ∉ a ++ [';'] := by
  rcases exists_wording_of_mem_ofSource member with
    ⟨x, s, b, isImport, path, whole, wording, -, stop, noBrace⟩
  rcases wording.exists_parts with ⟨c, u, rfl, -, -⟩
  refine ⟨x ++ c :: u, b, by simp [whole], by simp [stop]; omega, by simpa using noBrace⟩

/-- A line that is a wording, blanks at its ends aside, is the statement it words. -/
theorem ofLine?_of_isWording {isImport : Bool} {path line : Text}
    (wording : IsWording isImport path (Text.trim line)) :
    ofLine? line = some (canonicalText isImport path) := by
  rcases reads_of_isWording wording behindEdge_nil [] with ⟨found, reads, text⟩
  rw [List.append_nil] at reads
  have first : (Matcher.stretchOf headerStatement).find? (Text.trim line) = _ :=
    Matcher.findFrom_of_reads reads.stretchOf
  have all := Matcher.text_mk [] ((Text.trim line).reverse ++ []) (Text.trim line) []
  rw [List.append_nil] at all
  simp only [ofLine?, first, all, if_true, text]

end HeaderStatement

namespace Header

open HeaderStatement (header ofLine? ofSource)

/-- A line that is a statement is present if the header has its entry. -/
theorem containsImport_eq {source line wanted : Text} (isStatement : ofLine? line = some wanted) :
    containsImport source line = (entries (header source)).any fun entry => entry.2 == wanted := by
  rw [containsImport, isStatement, ← HeaderStatement.map_ofSource, List.any_map]
  rfl

end Header

namespace ImportForm

open HeaderStatement (header ofLine?)
open Text (IsTrimmed)

variable {form : ImportForm}

theorem isTrimmed_line (form : ImportForm) : IsTrimmed form.line := by
  rcases HeaderStatement.keyword_words true with ⟨some, words⟩
  have keyword := Text.isTrimmed_of_visible fun c member =>
    Character.not_isBlank_of_isNamePart (Character.isNamePart_of_isWord (words c member))
  rw [line_eq]
  exact keyword.append (Text.isTrimmed_of_visible (t := [';']) (by decide))
    ([' '] ++ form.declared) some
    (by simp)

theorem ofLine?_line (h : Header.isDottedPath form.path = true) :
    ofLine? form.line = some form.line := by
  have wording := isWording_line h
  rw [← (isTrimmed_line form).trim_eq] at wording
  rw [HeaderStatement.ofLine?_of_isWording wording, canonicalText_declared h]

end ImportForm
end Testwright
