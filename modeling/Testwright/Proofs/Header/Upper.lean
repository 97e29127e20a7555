import Testwright.Proofs.Convention.BaseClass
import Testwright.Proofs.Header.Addition
import Testwright.Proofs.Header.Removal

namespace Testwright
namespace Header

/-!
# Rows in front of a class

In rows no blank follows a word `public`, so the words that a generated class begins
with are found at the class (`IsUpper.cutBefore?_append`).  Import lines that are put
into the rows stay in front of the class (`exists_insertBlock_rowsText`), and add
themselves to the statements (`packagesOf_insertBlock`, `mem_importsOf_insertBlock`).
-/

open Character (isBlank)
open HeaderStatement (header ofSource)
open TestPlan (joinLines)
open Text (Blank EndsLine Unbroken)

/-! ## What stands in front of a class -/

/-- The words that the class of a generated test source begins with. -/
def classWords : Text :=
  "public class".toList

theorem classWords_ne_nil : classWords ≠ [] := by decide

theorem unbroken_classWords : Unbroken classWords := by decide

theorem semicolon_not_mem_classWords : ';' ∉ classWords := by decide

/-- Lines in which the words do not stand. -/
structure IsUpper (t : Text) : Prop where
  ends : EndsLine t
  absent : ¬ classWords <:+: t

namespace IsUpper

variable {s t a : Text}

theorem append (first : IsUpper s) (second : IsUpper t) : IsUpper (s ++ t) where
  ends := first.ends.append second.ends
  absent := Text.not_infix_append classWords_ne_nil unbroken_classWords first.ends first.absent
    second.absent

theorem of_append (h : IsUpper (s ++ t)) : IsUpper t where
  ends := h.ends.of_append
  absent := fun inside => h.absent (inside.trans (List.suffix_append s t).isInfix)

theorem of_blank (blank : Blank t) (ends : EndsLine t) : IsUpper t where
  ends := ends
  absent := fun inside =>
    have member : 'p' ∈ t := inside.subset List.mem_cons_self
    absurd (blank 'p' member) (by decide)

/-- A semicolon ends no line, so something stands behind it. -/
theorem semicolon_iff : IsUpper (a ++ ';' :: t) ↔ ¬ classWords <:+: a ∧ t ≠ [] ∧ IsUpper t := by
  constructor
  · intro h
    have behind : IsUpper (';' :: t) := h.of_append
    refine ⟨fun inside => h.absent (inside.trans (List.prefix_append a (';' :: t)).isInfix), ?_,
      IsUpper.of_append (s := [';']) behind⟩
    rintro rfl
    exact absurd (behind.ends.resolve_left (List.cons_ne_nil _ _)) (by decide)
  · rintro ⟨front, some, upper⟩
    constructor
    · exact (show EndsLine (';' :: t) from upper.ends.append_left some [';']).append_left
        (List.cons_ne_nil _ _) a
    · intro inside
      exact (Text.infix_side classWords_ne_nil semicolon_not_mem_classWords inside).elim front
        upper.absent

/-- Behind such lines, the words are found where they begin. -/
theorem cutBefore?_append (h : IsUpper s) (t : Text) :
    Text.cutBefore? classWords (s ++ (classWords ++ t)) = some (s, classWords ++ t) :=
  Text.cutBefore?_of_endsLine classWords_ne_nil unbroken_classWords h.ends h.absent t

end IsUpper

/-- The blanks of a package line stand behind its keyword. -/
theorem eq_package_of_cut {name p v : Text} (dotted : isDottedPath name = true) {c : Char}
    (blank : isBlank c = true) (cut : "package".toList ++ ' ' :: name = p ++ c :: v) :
    p = "package".toList := by
  have visible := visible_of_isDottedPath dotted
  have absent : c ∉ "package".toList := fun member =>
    absurd (blank.symm.trans ((by decide : Text.Visible "package".toList) c member)) (by decide)
  rcases Text.exists_behind absent cut with ⟨y, rfl, rest⟩
  cases y with
  | nil => exact List.append_nil _
  | cons d y =>
      rcases List.cons.inj rest with ⟨-, tail⟩
      have member : c ∈ name := by
        rw [tail]
        exact List.mem_append_right y List.mem_cons_self
      exact absurd (blank.symm.trans (visible c member)) (by decide)

/-- Where the words stand, a blank follows the first of them. -/
theorem exists_blank_of_infix {t : Text} (inside : classWords <:+: t) :
    ∃ x v, t = (x ++ "public".toList) ++ ' ' :: v := by
  rcases inside with ⟨x, y, rfl⟩
  refine ⟨x, "class".toList ++ y, ?_⟩
  rw [show classWords = "public".toList ++ ' ' :: "class".toList from rfl]
  simp only [List.append_assoc, List.cons_append]

/-- The words that a class begins with stand in no row. -/
theorem Row.IsDotted.lacks_classWords {row : Row} (dotted : row.IsDotted) :
    ¬ classWords <:+: row.text := by
  have none : ¬ classWords <:+: [] := fun inside => classWords_ne_nil (List.infix_nil.mp inside)
  have front : ∀ u : Text, ¬ classWords <:+: u →
      ¬ classWords <:+: u ++ [';'] := fun u absent inside =>
    (Text.infix_side classWords_ne_nil semicolon_not_mem_classWords inside).elim absent none
  cases row with
  | blank => exact none
  | package name =>
      refine front _ fun inside => ?_
      rcases exists_blank_of_infix inside with ⟨x, v, same⟩
      have final : "public".toList <:+ "package".toList :=
        ⟨x, eq_package_of_cut dotted (by decide) same⟩
      exact absurd final (by decide)
  | imported line =>
      rcases dotted with ⟨form, path, rfl⟩
      refine front _ fun inside => ?_
      rcases exists_blank_of_infix inside with ⟨x, v, same⟩
      have final : "public".toList <:+ "import".toList ∨
          "public".toList <:+ "import static".toList :=
        (Matcher.eq_keyword_of_cut path (by decide) same).imp (fun equal => ⟨x, equal⟩) fun equal =>
          ⟨x, equal⟩
      exact absurd final (by decide)

section Rows

variable {separator : Text} (isBreak : separator = ['\n'] ∨ separator = ['\r', '\n'])
  {rows : List Row} (dotted : ∀ row ∈ rows, row.IsDotted)

include isBreak dotted in
theorem isUpper_rowsText : IsUpper (rowsText separator rows) where
  ends := Text.endsLine_joinLines isBreak
  absent := Text.not_infix_joinLines classWords_ne_nil unbroken_classWords isBreak
    fun line member => by
    rcases List.mem_map.mp member with ⟨row, inside, rfl⟩
    exact (dotted row inside).lacks_classWords

include isBreak in
theorem isUpper_separator : IsUpper separator :=
  .of_blank (blank_of_isBreak isBreak).1 (.inr (by rcases isBreak with rfl | rfl <;> rfl))

variable {slot : Slot} {source class_ body : Text} {c : Char}
  (visible : isBlank c = false) (noSemicolon : ';' ∉ c :: class_)
  (whole : source = rowsText separator rows ++ (c :: class_ ++ '\x7b' :: body))

include visible noSemicolon whole in
/-- A statement in front of a class and the rest of its line stand in the rows. -/
theorem Slot.Behind.exists_rows {a gap : Text} (behind : slot.Behind source separator a gap)
    (fits : slot.Fits source separator) :
    ∃ rest, rowsText separator rows = a ++ ';' :: (gap ++ rest) ∧
      slot.after = rest ++ (c :: class_ ++ '\x7b' :: body) := by
  have cut := whole.symm.trans fits.whole
  rw [behind.before] at cut
  rcases List.append_eq_append_iff.mp cut with ⟨q, front, tail⟩ | ⟨rest, front, tail⟩
  · cases q with
    | nil => exact ⟨[], by simpa using front.symm, by simpa using tail.symm⟩
    | cons d q =>
        -- Otherwise the semicolon is in the class, or the class begins in the gap.
        rcases List.cons.inj tail with ⟨rfl, tail'⟩
        have noBrace : '\x7b' ∉ q :=
          fun member => fits.noBrace (by rw [behind.before, front]; simp [member])
        rcases Text.exists_behind noBrace tail'.symm with ⟨y, rfl, -⟩
        rcases List.append_eq_append_iff.mp front with ⟨v, -, inGap⟩ | ⟨v, -, inClass⟩
        · cases v with
          | nil =>
              exact absurd (List.cons.inj inGap).1.symm (List.ne_of_not_mem_cons noSemicolon).symm
          | cons e v =>
              have member : c ∈ gap := by
                rw [(List.cons.inj inGap).2]
                exact List.mem_append_right v List.mem_cons_self
              exact absurd ((behind.blank c member).symm.trans visible) (by decide)
        · have member : ';' ∈ c :: q := by
            rw [inClass]
            exact List.mem_append_right v List.mem_cons_self
          exact absurd (List.mem_append_left y member) noSemicolon
  · exact ⟨rest, by rw [front]; simp, tail⟩

include isBreak dotted visible noSemicolon whole in
/-- Import lines that are put into rows in front of a class stand in front of the
class. -/
theorem exists_insertBlock_rowsText {lines : List Text} (each : ∀ line ∈ lines, IsImportLine line) :
    ∃ upper, IsUpper upper ∧
      insertBlock source (joinLines separator lines) separator =
        upper ++ (c :: class_ ++ '\x7b' :: body) := by
  have rowsUpper := isUpper_rowsText isBreak dotted
  have blockUpper : IsUpper (joinLines separator lines) := by
    rw [← rowsText_imported]
    exact isUpper_rowsText isBreak (isDotted_of_mem_imported each)
  by_cases none : joinLines separator lines = []
  · rw [none, insertBlock_nil]
    exact ⟨rowsText separator rows, rowsUpper, whole⟩
  rw [insertBlock_eq none]
  have fits := slotOf_fits source separator
  generalize slotOf source separator = slot at fits ⊢
  rcases fits.place with top | ⟨a, gap, behind⟩
  · refine ⟨joinLines separator lines ++ (slot.trail ++ rowsText separator rows),
      blockUpper.append ?_, ?_⟩
    · rcases top.trail with trail | trail <;> rw [trail]
      · exact rowsUpper
      · exact (isUpper_separator isBreak).append rowsUpper
    · have after := whole.symm.trans fits.whole
      rw [top.before, List.nil_append] at after
      simp [Slot.fill, Slot.stretch, top.before, top.lead, ← after]
  · rcases behind.exists_rows visible noSemicolon whole fits with ⟨rest, front, after⟩
    rw [front] at rowsUpper
    rcases IsUpper.semicolon_iff.mp rowsUpper with ⟨absent, -, restUpper⟩
    have leadUpper : IsUpper (gap ++ slot.lead) := by
      have separatorEnds := (isUpper_separator isBreak).ends
      refine .of_blank (behind.blank.append (behind.blank_lead (blank_of_isBreak isBreak).1))
        (EndsLine.append (behind.ends.imp id And.right) ?_)
      rcases behind.lead with ⟨lead, -⟩ | lead | lead <;> rw [lead]
      · exact Text.endsLine_nil
      · exact separatorEnds
      · exact separatorEnds.append separatorEnds
    refine ⟨a ++ ';' :: (gap ++ slot.lead ++ (joinLines separator lines ++ rest)),
      IsUpper.semicolon_iff.mpr
      ⟨absent, by simp [none], leadUpper.append (blockUpper.append restUpper.of_append)⟩, ?_⟩
    simp [Slot.fill, Slot.stretch, behind.before, behind.trail, after]

end Rows

/-! ## The statements behind an insertion -/

/-- The package statements of a source in their canonical spacing. -/
def packagesOf (source : Text) : List Text :=
  ((ofSource source).filter fun statement => !statement.isImport).map HeaderStatement.text

/-- The import statements of a source in their canonical spacing. -/
def importsOf (source : Text) : List Text :=
  ((ofSource source).filter HeaderStatement.isImport).map HeaderStatement.text

theorem packagesOf_eq (source : Text) :
    packagesOf source = ((entries (header source)).filter fun entry => !entry.1).map Prod.snd := by
  rw [← HeaderStatement.map_ofSource, List.filter_map, List.map_map]
  rfl

theorem mem_importsOf_iff {source line : Text} :
    line ∈ importsOf source ↔ (true, line) ∈ entries (header source) := by
  have shape : importsOf source = ((entries (header source)).filter Prod.fst).map Prod.snd := by
    rw [← HeaderStatement.map_ofSource, List.filter_map, List.map_map]
    rfl
  rw [shape, List.mem_map]
  constructor
  · rintro ⟨⟨isImport, text⟩, member, rfl⟩
    rcases List.mem_filter.mp member with ⟨inside, rfl⟩
    exact inside
  · intro member
    exact ⟨(true, line), List.mem_filter.mpr ⟨member, rfl⟩, rfl⟩

section Block

variable {separator : Text} (blank : Blank separator) {lines : List Text}
  (each : ∀ line ∈ lines, IsImportLine line)
include blank each

/-- An insertion of imports changes no package statement. -/
theorem packagesOf_insertBlock (source : Text) :
    packagesOf (insertBlock source (joinLines separator lines) separator) = packagesOf source := by
  by_cases none : joinLines separator lines = []
  · rw [none, insertBlock_nil]
  · rcases exists_entries_fill blank each (slotOf_fits source separator) with
      ⟨front, back, old, new⟩
    rw [insertBlock_eq none, packagesOf_eq, packagesOf_eq, old, new]
    have skipped : (lines.map (Prod.mk true)).filter (fun entry => !entry.1) = [] := by
      simp [List.filter_eq_nil_iff]
    rw [List.filter_append, List.filter_append, skipped, List.nil_append, ← List.filter_append]

/-- Adding the imports that are missing makes the needed ones present. -/
theorem mem_importsOf_insertBlock (nonempty : separator ≠ []) (source line : Text) :
    line ∈ importsOf (insertBlock source (joinLines separator lines) separator) ↔
      line ∈ importsOf source ∨ line ∈ lines := by
  rw [mem_importsOf_iff, mem_importsOf_iff, mem_entries_insertBlock blank each nonempty]
  exact or_congr_right ⟨fun ⟨_, inside, same⟩ => (Prod.mk.inj same).2 ▸ inside,
    fun inside => ⟨line, inside, rfl⟩⟩

end Block

/-- An import line is present exactly if it is one of the import statements. -/
theorem containsImport_iff_of_isDotted {line : Text} (isImport : IsImportLine line) {source : Text}
    {rows : List Row} (shown : entries (header source) = rows.filterMap Row.entry?) :
    containsImport source line = true ↔ line ∈ importsOf source := by
  rw [containsImport_eq isImport.ofLine?_eq, mem_importsOf_iff, shown, List.any_eq_true]
  constructor
  · rintro ⟨entry, member, same⟩
    rcases List.mem_filterMap.mp member with ⟨row, inside, shape⟩
    cases row with
    | blank => cases shape
    | package name =>
        rcases Option.some.inj shape with rfl
        exact absurd (eq_of_beq same) (isImport.ne_packageLine name)
    | imported other =>
        rcases Option.some.inj shape with rfl
        rwa [← eq_of_beq same]
  · intro member
    exact ⟨(true, line), member, by simp⟩

end Header
end Testwright
