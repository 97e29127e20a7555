import Testwright.Proofs.Header.Removal
import Testwright.Proofs.Matcher.Taken
import Testwright.Proofs.Text.Mention

namespace Testwright

/-!
# Names outside the import statements

Whether a source uses a name is asked of the source without its import statements:
it does if that text mentions the name (`isReferenced_iff`).  Of rows in front of a
class the import statements leave empty rows (`withoutImports_rowsText`).
-/

open Character (isWord)
open HeaderStatement (BehindEdge IsWording header ofSource)
open Matcher (Reads Silent findAllFrom headerStatement stretchOf)
open Text (Blank mentions)

namespace Matcher

/-- A word stands between word edges where the text mentions it. -/
theorem occursIn_wholeWord_iff {w t : Text} (words : ∀ c ∈ w, isWord c = true) (nonempty : w ≠ []) :
    (wholeWord w).occursIn t = true ↔ mentions t w = true := by
  rcases List.exists_cons_of_ne_nil nonempty with ⟨first, front, begins⟩
  rcases List.eq_nil_or_concat w |>.resolve_left nonempty with ⟨back, last, ends⟩
  have firstWord : isWord first = true := words first (by simp [begins])
  have lastWord : isWord last = true := words last (by simp [ends])
  rw [occursIn_iff]
  constructor
  · rintro ⟨x, y, rfl, some⟩
    rcases List.exists_mem_of_ne_nil _ some with ⟨⟨_, later⟩, member⟩
    rcases mem_bind.mp member with ⟨_, place, edge, inBoth⟩
    rcases mem_require edge with ⟨rfl, before⟩
    rcases mem_bind.mp inBoth with ⟨_, place, inWord, edge'⟩
    rcases mem_require edge' with ⟨rfl, behind⟩
    rcases takes_word w _ _ inWord with ⟨s, same, cut, read⟩
    rcases later with ⟨front', t⟩
    rw [same] at cut read
    obtain rfl : y = w ++ t := cut
    obtain rfl : front' = w.reverse ++ x.reverse := read
    rw [begins] at before
    rw [ends, List.concat_eq_append, List.reverse_append] at behind
    exact Text.mentions_of_between words
      (fun c final => by simpa [final] using (Place.atWordEdge_front_iff firstWord x _).mp before)
      (fun c head => by simpa [head] using (Place.atWordEdge_back_iff lastWord _ t).mp behind)
  · intro mentioned
    rcases Text.exists_between (List.contains_iff_mem.mp mentioned) with ⟨x, y, rfl, before, behind⟩
    have opening : Place.atWordEdge ⟨x.reverse, w ++ y⟩ = true := by
      rw [begins]
      exact (Place.atWordEdge_front_iff firstWord x _).mpr before
    have closing : Place.atWordEdge ⟨w.reverse ++ x.reverse, y⟩ = true := by
      rw [ends, List.concat_eq_append, List.reverse_append]
      exact (Place.atWordEdge_back_iff lastWord _ y).mpr behind
    have read : Reads (wholeWord w) ⟨x.reverse, w ++ y⟩ () _ :=
      (Reads.of_eq_cons (require_of_true opening)).bind
        ((Reads.of_eq_cons (word_append w x.reverse y)).bind
          (Reads.of_eq_cons (require_of_true closing)))
    exact ⟨x, w ++ y, rfl, read.ne_nil⟩

end Matcher

namespace Header

theorem isReferenced_iff {name : Text} (words : ∀ c ∈ name, isWord c = true) (nonempty : name ≠ [])
    (source : Text) :
    isReferenced source name = true ↔ mentions (withoutImports source) name = true :=
  Matcher.occursIn_wholeWord_iff words nonempty

/-! ## Cutting stretches out -/

/-- What stands in front of all stretches stays. -/
theorem cutStretches_append {place : Nat} {stretches : List (Nat × Nat)} {s : Text}
    (later : ∀ stretch ∈ stretches, place + s.length ≤ stretch.1 ∧ place + s.length ≤ stretch.2)
    (t : Text) :
    cutStretches place stretches (s ++ t) = s ++ cutStretches (place + s.length) stretches t := by
  cases stretches with
  | nil => rfl
  | cons stretch stretches =>
      rcases later stretch List.mem_cons_self with ⟨start, stop⟩
      have taken : (s ++ t).take (stretch.1 - place) =
          s ++ t.take (stretch.1 - (place + s.length)) := by
        rw [List.take_append, List.take_of_length_le (by omega), Nat.sub_sub]
      have dropped : (s ++ t).drop (stretch.2 - place) =
          t.drop (stretch.2 - (place + s.length)) := by
        rw [List.drop_append, List.drop_eq_nil_of_le (by omega), List.nil_append, Nat.sub_sub]
      rw [cutStretches, cutStretches, taken, dropped, List.append_assoc]

theorem cutStretches_cons (place : Nat) (s : Text) (stretches : List (Nat × Nat)) (t : Text) :
    cutStretches place ((place, place + s.length) :: stretches) (s ++ t) =
      cutStretches (place + s.length) stretches t := by
  simp [cutStretches]

/-! ## Import statements -/

/-- Where the import statements of a text stand, with `behind` in front of it. -/
def importsFrom (behind t : Text) : List (Nat × Nat) :=
  ((findAllFrom headerStatement.stretchOf behind 0 t).filter fun found => found.2.1).map
    fun found =>
    (found.1.first.behind.length, found.1.last.behind.length)

theorem withoutImports_eq (source : Text) :
    withoutImports source = cutStretches 0 (importsFrom [] (header source)) source := by
  simp only [withoutImports, importsFrom, ofSource, Matcher.findAll, List.filter_map, List.map_map]
  rfl

theorem length_le_of_mem_importsFrom {behind t : Text} {stretch : Nat × Nat}
    (member : stretch ∈ importsFrom behind t) :
    behind.length ≤ stretch.1 ∧ behind.length ≤ stretch.2 := by
  rcases List.mem_map.mp member with ⟨⟨found, value⟩, inside, rfl⟩
  rcases Matcher.exists_of_mem_findAllFrom (List.mem_filter.mp inside).1 with
    ⟨x, y, later, -, reading⟩
  rcases List.mem_map.mp reading with ⟨⟨value', later'⟩, inner, same⟩
  rcases Prod.mk.inj same with ⟨equal, rfl⟩
  rcases Prod.mk.inj equal with ⟨rfl, rfl⟩
  rcases HeaderStatement.exists_isWording inner with ⟨-, s, -, -, stop⟩
  constructor
  · simp
  · simp [stop]
    omega

/-- What is left of a text with another one behind it, the import statements of the
first one taken out. -/
def leftFrom (behind t u : Text) : Text :=
  cutStretches behind.length (importsFrom behind t) (t ++ u)

theorem leftFrom_silent {behind s : Text} (t u : Text)
    (silent : Silent headerStatement behind s t) :
    leftFrom behind (s ++ t) u = s ++ leftFrom (s.reverse ++ behind) t u := by
  have silent' : Silent headerStatement.stretchOf behind s t := fun x y whole some =>
    Matcher.stretchOf_of_nil (silent x y whole some)
  have same : importsFrom behind (s ++ t) = importsFrom (s.reverse ++ behind) t := by
    rw [importsFrom, Matcher.findAllFrom_append silent']
    rfl
  have place : (s.reverse ++ behind).length = behind.length + s.length := by simp [Nat.add_comm]
  rw [leftFrom, leftFrom, same, List.append_assoc, place]
  refine cutStretches_append (fun stretch member => ?_) (t ++ u)
  rw [← place]
  exact length_le_of_mem_importsFrom member

section Wording

variable {isImport : Bool} {path s behind : Text} (wording : IsWording isImport path s)
  (edge : BehindEdge behind) (t u : Text)
include wording edge

theorem importsFrom_wording : importsFrom behind (s ++ t) =
    (if isImport then [(behind.length, behind.length + s.length)] else []) ++
      importsFrom (s.reverse ++ behind) t := by
  rcases HeaderStatement.reads_of_isWording wording edge t with ⟨found, reads, -⟩
  rcases wording.exists_parts with ⟨c, v, shape, -, -⟩
  have some : s ≠ [] := by simp [shape]
  rw [importsFrom, Matcher.findAllFrom_of_reads some reads.stretchOf]
  cases isImport <;> simp [importsFrom, Nat.add_comm]

/-- An import statement is left out. -/
theorem leftFrom_import (import_ : isImport = true) :
    leftFrom behind (s ++ t) u = leftFrom (s.reverse ++ behind) t u := by
  have place : (s.reverse ++ behind).length = behind.length + s.length := by simp [Nat.add_comm]
  rw [leftFrom, importsFrom_wording wording edge, if_pos import_, List.append_assoc,
    List.singleton_append, cutStretches_cons, leftFrom, place]

/-- A package statement stays. -/
theorem leftFrom_package (package : isImport = false) :
    leftFrom behind (s ++ t) u = s ++ leftFrom (s.reverse ++ behind) t u := by
  have place : (s.reverse ++ behind).length = behind.length + s.length := by simp [Nat.add_comm]
  have none : importsFrom behind (s ++ t) = importsFrom (s.reverse ++ behind) t := by
    rw [importsFrom_wording wording edge, if_neg (by simp [package]), List.nil_append]
  rw [leftFrom, leftFrom, none, List.append_assoc, place]
  refine cutStretches_append (fun stretch member => ?_) (t ++ u)
  rw [← place]
  exact length_le_of_mem_importsFrom member

end Wording

/-- Without semicolons a text has no import statement. -/
theorem leftFrom_of_not_mem {t : Text} (none : ';' ∉ t) (behind u : Text) :
    leftFrom behind t u = t ++ u := by
  have noEntry := entriesFrom_eq_nil none behind
  rw [entriesFrom, List.map_eq_nil_iff, ← Matcher.map_snd_findAllFrom_stretchOf,
    List.map_eq_nil_iff] at noEntry
  rw [leftFrom, importsFrom, noEntry]
  rfl

/-- No statement begins with a blank. -/
theorem silent_of_blank {gap : Text} (blank : Blank gap) (behind t : Text) :
    Silent headerStatement behind gap t := by
  rintro x y rfl some
  rcases List.exists_cons_of_ne_nil some with ⟨c, y, rfl⟩
  have other : isWord c = false := by
    refine Bool.eq_false_iff.mpr fun word => ?_
    have visible := Character.not_isBlank_of_isWord word
    rw [blank c (by simp)] at visible
    cases visible
  exact Classical.byContradiction fun reading => HeaderStatement.not_begins_of_front other _ _
    ((HeaderStatement.headerStatement_ne_nil_iff _ _).mp reading)

/-! ## Rows -/

/-- The row without its import statement. -/
def Row.withoutImport : Row → Row
  | imported _ => blank
  | row => row

section Rows

variable {separator : Text} (isBreak : separator = ['\n'] ∨ separator = ['\r', '\n'])
  {rows : List Row} (dotted : ∀ row ∈ rows, row.IsDotted)
include isBreak dotted

theorem leftFrom_rowsText {behind : Text} (edge : BehindEdge behind) (t u : Text) :
    ∃ behind', BehindEdge behind' ∧ leftFrom behind (rowsText separator rows ++ t) u =
      rowsText separator (rows.map Row.withoutImport) ++ leftFrom behind' t u := by
  have blank := (blank_of_isBreak isBreak).1
  have last : ∀ x : Text, BehindEdge (separator.reverse ++ x) := fun x => by
    rcases isBreak with rfl | rfl <;> exact HeaderStatement.behindEdge_cons (by decide) _
  induction rows generalizing behind with
  | nil => exact ⟨behind, edge, rfl⟩
  | cons row rows ih =>
      have dotted' : ∀ other ∈ rows, other.IsDotted :=
        fun other member => dotted other (List.mem_cons_of_mem row member)
      have silent : ∀ x : Text,
          Silent headerStatement x separator (rowsText separator rows ++ t) := fun x =>
        silent_of_blank blank x _
      have here := dotted row List.mem_cons_self
      rw [rowsText_cons, List.append_assoc, List.append_assoc, List.map_cons, rowsText_cons]
      cases row with
      | blank =>
          rcases ih dotted' (last behind) with ⟨behind', edge', whole⟩
          refine ⟨behind', edge', ?_⟩
          change leftFrom behind (separator ++ (rowsText separator rows ++ t)) u = _
          rw [leftFrom_silent _ u (silent behind), whole]
          simp [Row.withoutImport, Row.text]
      | package name =>
          rcases ih dotted' (last ((packageLine name).reverse ++ behind)) with
            ⟨behind', edge', whole⟩
          refine ⟨behind', edge', ?_⟩
          change leftFrom behind (packageLine name ++ (separator ++ (rowsText separator rows ++ t)))
            u = _
          rw [leftFrom_package (isWording_packageLine here) edge _ u rfl,
            leftFrom_silent _ u (silent _), whole]
          simp [Row.withoutImport, Row.text]
      | imported line =>
          rcases here with ⟨form, path, rfl⟩
          rcases ih dotted' (last (form.line.reverse ++ behind)) with ⟨behind', edge', whole⟩
          refine ⟨behind', edge', ?_⟩
          change leftFrom behind (form.line ++ (separator ++ (rowsText separator rows ++ t))) u = _
          rw [leftFrom_import (ImportForm.isWording_line path) edge _ u rfl,
            leftFrom_silent _ u (silent _), whole]
          simp [Row.withoutImport, Row.text]

/-- Without its import statements, a class behind rows stands behind rows that are
empty where an import was. -/
theorem withoutImports_rowsText {t : Text} (none : ';' ∉ header t) :
    withoutImports (rowsText separator rows ++ t) =
      rowsText separator (rows.map Row.withoutImport) ++ t := by
  have blank := (blank_of_isBreak isBreak).1
  have noBrace : '\x7b' ∉ rowsText separator rows := fun member =>
    (isHeaderText_rowsText blank dotted).ne member (by decide) rfl
  rcases HeaderStatement.exists_header t with ⟨u, whole, -⟩
  rcases leftFrom_rowsText isBreak dotted HeaderStatement.behindEdge_nil (header t) u with
    ⟨behind, -, left⟩
  rw [withoutImports_eq, HeaderStatement.header_append noBrace]
  have parted : rowsText separator rows ++ t = (rowsText separator rows ++ header t) ++ u := by
    rw [List.append_assoc, ← whole]
  rw [leftFrom_of_not_mem none, ← whole] at left
  rw [parted]
  exact left

end Rows

end Header
end Testwright
