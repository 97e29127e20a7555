import Testwright.Convention.Conversion
import Testwright.Proofs.Header.Insertion
import Testwright.Proofs.Header.Removal
import Testwright.Proofs.Text.Spanning

namespace Testwright
namespace Header

/-!
# What edits of imports leave alone

An import is put in behind a statement or at the top, and it is taken out as a whole line
or as a statement; and a statement ends with a semicolon in front of the first opening
brace.  So a text that goes from a visible character to an opening brace without a semicolon
on the way, such as the header of a class, is in the source after such an edit if it was
there before (`OpensBody.infix_withImports`, `OpensBody.infix_dropUnused`).
-/

open Character (isBlank)
open Text (Blank IsLinePiece)

/-- What an opening brace follows: a text that begins visibly and has no semicolon. -/
structure OpensBody (head : Text) : Prop where
  visible : ∃ c rest, head = c :: rest ∧ isBlank c = false
  noSemicolon : ';' ∉ head

namespace OpensBody

variable {head : Text} (h : OpensBody head)
include h

/-- No part of it is in front of a semicolon that the first opening brace follows. -/
theorem infix_behind {a b : Text} (noBrace : '\x7b' ∉ a)
    (inside : head ++ ['\x7b'] <:+: a ++ ';' :: b) :
    head ++ ['\x7b'] <:+: b := by
  have absent : ';' ∉ head ++ ['\x7b'] := by simpa using h.noSemicolon
  exact (Text.infix_side (by simp) absent inside).resolve_left fun here =>
    noBrace (here.subset (by simp))

/-- No part of it is among blanks in front. -/
theorem infix_of_blank {gap t : Text} (blank : Blank gap)
    (inside : head ++ ['\x7b'] <:+: gap ++ t) :
    head ++ ['\x7b'] <:+: t := by
  rcases h.visible with ⟨d, rest, rfl, visible⟩
  induction gap with
  | nil => exact inside
  | cons c gap ih =>
      rcases List.infix_cons_iff.mp inside with ⟨r, here⟩ | later
      · have same : d = c := (List.cons.inj here).1
        exact absurd (blank c List.mem_cons_self) (by rw [← same, visible]; decide)
      · exact ih (fun e member => blank e (List.mem_cons_of_mem c member)) later

/-! ## Imports put in -/

theorem infix_insertBlock {source : Text} (inside : head ++ ['\x7b'] <:+: source)
    (block separator : Text) :
    head ++ ['\x7b'] <:+: insertBlock source block separator := by
  by_cases none : block = []
  · rw [none, insertBlock_nil]
    exact inside
  · have fits := slotOf_fits source separator
    rw [insertBlock_eq none]
    set slot := slotOf source separator
    have after : head ++ ['\x7b'] <:+: slot.after := by
      rw [fits.whole] at inside
      rcases fits.place with top | ⟨a, gap, behind⟩
      · rwa [top.before] at inside
      · have noBrace := fits.noBrace
        rw [behind.before] at inside noBrace
        rw [List.append_assoc, List.cons_append] at inside
        exact h.infix_of_blank behind.blank
          (h.infix_behind (fun here => noBrace (List.mem_append_left _ here)) inside)
    exact after.trans (List.suffix_append _ _).isInfix

theorem infix_withImports {source : Text} (inside : head ++ ['\x7b'] <:+: source)
    (target : Option ClassSurface) (convention : Convention) (separator : Text) :
    head ++ ['\x7b'] <:+: Convention.withImports target convention separator source :=
  h.infix_insertBlock inside _ _

/-! ## Imports taken out as statements -/

theorem infix_cutStatement? {wanted source rest : Text} (inside : head ++ ['\x7b'] <:+: source)
    (cut : cutStatement? wanted source = some rest) : head ++ ['\x7b'] <:+: rest := by
  rw [cutStatement?] at cut
  split at cut
  · cases cut
  · rename_i statement found
    rcases Option.some.inj cut with rfl
    rcases HeaderStatement.exists_cut_of_mem_ofSource (List.mem_of_find?_eq_some found) with
      ⟨a, b, rfl, stop, noBrace⟩
    have behind := h.infix_behind (fun here => noBrace (List.mem_append_left _ here)) inside
    have back : (a ++ ';' :: b).drop statement.stop = b := by
      rw [stop, ← List.singleton_append, ← List.append_assoc]
      exact List.drop_left' (by simp)
    rw [back]
    have blank : Blank (b.takeWhile isSpaceOrTab) := fun c member =>
      isBlank_of_isSpaceOrTab (List.mem_takeWhile_imp member)
    rw [← List.takeWhile_append_dropWhile (p := isSpaceOrTab) (l := b)] at behind
    exact (h.infix_of_blank blank behind).trans (List.suffix_append _ _).isInfix

end OpensBody

/-! ## Imports taken out with their lines -/

/-- A line that is equal to a statement has its semicolon last, and the opening braces of
the statement only. -/
theorem exists_of_trim_eq {line : Line} (ended : Blank line.ending) {statement : Text}
    (same : Text.trim line.content = statement ++ [';']) :
    ∃ front gap, line.text = front ++ ';' :: gap ∧ Blank gap ∧
      ('\x7b' ∈ line.text → '\x7b' ∈ statement) := by
  rcases Text.exists_surround line.content with ⟨gap, gap', blank, blank', -, whole⟩
  rw [same] at whole
  have cut : line.text = (gap ++ statement) ++ ';' :: (gap' ++ line.ending) := by
    rw [Line.text, whole]
    simp
  refine ⟨gap ++ statement, gap' ++ line.ending, cut, blank'.append ended, fun brace => ?_⟩
  rw [cut] at brace
  simp only [List.mem_append, List.mem_cons] at brace
  rcases brace with (inGap | here) | other | inGap | inEnding
  · exact absurd (blank _ inGap) (by decide)
  · exact here
  · exact absurd other (by decide)
  · exact absurd (blank' _ inGap) (by decide)
  · exact absurd (ended _ inEnding) (by decide)

theorem isBlankLine_eq_false {line : Line} (ended : Blank line.ending) {c : Char}
    (inside : c ∈ line.text) (visible : isBlank c = false) : line.isBlankLine = false := by
  refine List.all_eq_false.mpr ⟨c, (List.mem_append.mp inside).resolve_right fun inEnding =>
    ?_, by simp [visible]⟩
  rw [ended c inEnding] at visible
  cases visible

/-- A line is no statement if it ends with a piece of a text without semicolons, and the
piece is the line or shows something visible. -/
theorem trim_ne_of_isLinePiece {line : Line} (ended : Blank line.ending) {statement body x s : Text}
    (noBrace : '\x7b' ∉ statement) (noSemicolon : ';' ∉ body) (whole : line.text = x ++ s)
    (piece : IsLinePiece body '\x7b' s) (shown : x = [] ∨ ∃ c ∈ s, isBlank c = false) :
    Text.trim line.content ≠ statement ++ [';'] := by
  intro same
  rcases exists_of_trim_eq ended same with ⟨front, gap, cut, blank, braces⟩
  rcases piece with inBody | ⟨back, rest, -, rfl⟩
  · have absent : ';' ∉ s := fun member => noSemicolon (inBody.subset member)
    rcases shown with rfl | ⟨c, inside, visible⟩
    · rw [whole, List.nil_append] at cut
      exact absent (by rw [cut]; simp)
    · have parted : x ++ (s ++ []) = front ++ ';' :: gap := by rw [← cut, whole, List.append_nil]
      rcases Text.exists_side absent (List.ne_nil_of_mem inside) parted with
        ⟨v, -, none⟩ | ⟨v, -, rfl⟩
      · exact absurd none (by simp)
      · rw [blank c (by simp [inside])] at visible
        cases visible
  · exact noBrace (braces (by rw [whole]; simp))

/-- Whatever becomes of some lines, the others are gone through behind them. -/
theorem exists_dropLines_append (wanted : Text) (keptBlank dropsBlank : Bool)
    (upper lines : List Line) :
    ∃ upper' keptBlank' dropsBlank', dropLines wanted keptBlank dropsBlank (upper ++ lines) =
      upper' ++ dropLines wanted keptBlank' dropsBlank' lines := by
  induction upper generalizing keptBlank dropsBlank with
  | nil => exact ⟨[], keptBlank, dropsBlank, rfl⟩
  | cons line upper ih =>
      rw [List.cons_append, dropLines]
      split
      · exact ih _ _
      · split
        · rcases ih line.isBlankLine false with ⟨upper', keptBlank', dropsBlank', same⟩
          exact ⟨line :: upper', keptBlank', dropsBlank', by rw [same, List.cons_append]⟩
        · exact ih _ _

theorem OpensBody.infix_dropLines {head : Text} (h : OpensBody head) {statement : Text}
    (noBrace : '\x7b' ∉ statement) {lines : List Line} (ended : ∀ line ∈ lines, Blank line.ending)
    (inside : head ++ ['\x7b'] <:+: Line.texts lines) (keptBlank dropsBlank : Bool) :
    head ++ ['\x7b'] <:+:
      Line.texts (dropLines (statement ++ [';']) keptBlank dropsBlank lines) := by
  rcases h.visible with ⟨c, r, rfl, visible⟩
  rcases inside with ⟨x, y, same⟩
  have whole : Line.texts lines = x ++ (c :: r ++ '\x7b' :: y) := by simpa using same.symm
  rcases Line.exists_span whole with
    ⟨upper, line, spanned, lower, x', s, rfl, -, here, piece, pieces, y', held⟩
  have endedHere := ended line (by simp)
  have inLine : c ∈ line.text := by rw [here]; simp
  have other : Text.trim line.content ≠ statement ++ [';'] :=
    trim_ne_of_isLinePiece endedHere noBrace h.noSemicolon here piece
      (.inr ⟨c, List.mem_cons_self, visible⟩)
  have others : ∀ next ∈ spanned, Text.trim next.content ≠ statement ++ [';'] := fun next member =>
    trim_ne_of_isLinePiece (ended next (by simp [member])) noBrace h.noSemicolon
      (List.nil_append _).symm
      (pieces next member) (.inl rfl)
  rcases exists_dropLines_append (statement ++ [';']) keptBlank dropsBlank upper
    (line :: (spanned ++ lower))
    with ⟨upper', keptBlank', dropsBlank', gone⟩
  rcases exists_dropLines_of_absent others line.isBlankLine lower with ⟨keptBlank'', stay⟩
  have stays : dropLines (statement ++ [';']) keptBlank' dropsBlank' (line :: (spanned ++ lower)) =
      line :: (spanned ++ dropLines (statement ++ [';']) keptBlank'' false lower) := by
    rw [← stay, dropLines, if_neg (by simp [isBlankLine_eq_false endedHere inLine visible]),
      if_pos other]
  rw [gone, stays]
  have held' :
      Line.texts (line :: (spanned ++ dropLines (statement ++ [';']) keptBlank'' false lower)) =
      x' ++ (c :: s ++ Line.texts spanned) ++
        Line.texts (dropLines (statement ++ [';']) keptBlank'' false lower) := by
    rw [Line.texts_cons, Line.texts_append, here]
    simp
  rw [Line.texts_append, held', held]
  exact ⟨Line.texts upper' ++ x',
    y' ++ Line.texts (dropLines (statement ++ [';']) keptBlank'' false lower), by simp⟩

namespace OpensBody

variable {head : Text} (h : OpensBody head)
include h

theorem infix_removeImport {source line statement : Text} (inside : head ++ ['\x7b'] <:+: source)
    (isStatement : Text.trim line = statement ++ [';']) (noBrace : '\x7b' ∉ statement) :
    head ++ ['\x7b'] <:+: removeImport source line := by
  have dropped : head ++ ['\x7b'] <:+: dropLine source line := by
    rw [dropLine, isStatement]
    refine h.infix_dropLines noBrace (fun other member =>
      Line.blank_ending_of_mem_ofText member) ?_ _ _
    rwa [Line.texts_ofText]
  rw [removeImport]
  split
  · exact dropped
  · exact Text.peel_induction (fun t rest cut inText => h.infix_cutStatement? inText cut) dropped

theorem infix_dropUnused {source line statement : Text} (inside : head ++ ['\x7b'] <:+: source)
    (isStatement : Text.trim line = statement ++ [';']) (noBrace : '\x7b' ∉ statement)
    (name : Text) :
    head ++ ['\x7b'] <:+: Convention.dropUnused line name source := by
  rw [Convention.dropUnused]
  split
  · exact inside
  · exact h.infix_removeImport inside isStatement noBrace

end OpensBody

end Header
end Testwright
