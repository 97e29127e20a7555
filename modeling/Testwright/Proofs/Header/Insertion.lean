import Testwright.Proofs.Header.Presence
import Testwright.Testing.Render

namespace Testwright
namespace Header

/-!
# Inserting import lines

A block of import lines goes into a slot of the source: behind the last import,
behind the package statement, or to the top (`slotOf`).  What is in front of the
slot ends with a semicolon and blanks, or is empty (`Slot.Fits`).  So the entries
of the result are those of the source with those of the block between them
(`exists_entries_fill`): nothing is hidden or broken, and what was asked for is
there.
-/

open Character (isBlank)
open HeaderStatement (header isWordingPart ofLine? ofSource)
open TestPlan (joinLines)
open Text (Blank)

/-! ## The slot -/

/-- A place of a source for a block, with the line breaks that set it off. -/
structure Slot where
  before : Text
  lead : Text
  trail : Text
  after : Text

namespace Slot

/-- What stands between the two parts of the source. -/
def stretch (slot : Slot) (block : Text) : Text :=
  slot.lead ++ block ++ slot.trail

def fill (slot : Slot) (block : Text) : Text :=
  slot.before ++ slot.stretch block ++ slot.after

/-- The slot stands at the top of the source. -/
structure AtTop (slot : Slot) (separator : Text) : Prop where
  before : slot.before = []
  lead : slot.lead = []
  trail : slot.trail = [] ∨ slot.trail = separator

/-- The slot stands behind a statement of the source and the end of its line: `a` is
what precedes the semicolon of the statement, and `gap` is what its line has behind
it. -/
structure Behind (slot : Slot) (source separator a gap : Text) : Prop where
  before : slot.before = a ++ ';' :: gap
  statement : ∃ statement ∈ ofSource source, statement.stop = a.length + 1
  ends : gap = [] ∨ Blank gap ∧ gap.getLast? = some '\n'
  trail : slot.trail = []
  lead : slot.lead = [] ∧ gap ≠ [] ∨ slot.lead = separator ∨ slot.lead = separator ++ separator

/-- The slot stands in the header of the source, at the top or behind a statement, and
the line breaks begin and end a line. -/
structure Fits (slot : Slot) (source separator : Text) : Prop where
  whole : source = slot.before ++ slot.after
  noBrace : '\x7b' ∉ slot.before
  place : slot.AtTop separator ∨ ∃ a gap, slot.Behind source separator a gap

theorem Behind.blank {slot : Slot} {source separator a gap : Text}
    (h : slot.Behind source separator a gap) : Blank gap := by
  rcases h.ends with rfl | ⟨blank, -⟩
  · exact Text.blank_nil
  · exact blank

theorem Behind.blank_lead {slot : Slot} {source separator a gap : Text}
    (h : slot.Behind source separator a gap) (blank : Blank separator) : Blank slot.lead := by
  rcases h.lead with ⟨lead, -⟩ | lead | lead
  · rw [lead]
    exact Text.blank_nil
  · rw [lead]
    exact blank
  · rw [lead]
    exact blank.append blank

end Slot

/-- The slot behind a place of the source, with further line breaks or none. -/
def slotBehind (source separator extra : Text) (stop : Nat) : Slot :=
  let rest := takeLineEnd (source.drop stop)
  let before := source.take stop ++ rest.1
  { before
    lead := (if before.getLast? = some '\n' then [] else separator) ++ extra
    trail := []
    after := rest.2 }

/-- The slot for a block of imports. -/
def slotOf (source separator : Text) : Slot :=
  match ((ofSource source).filter HeaderStatement.isImport).getLast?,
      (ofSource source).find? fun statement => !statement.isImport with
  | some statement, _ => slotBehind source separator [] statement.stop
  | none, some statement => slotBehind source separator separator statement.stop
  | none, none =>
      { before := []
        lead := []
        trail := if source.head? = some '\r' ∨ source.head? = some '\n' then [] else separator
        after := source }

theorem endLine_eq (separator t : Text) :
    endLine separator t = t ++ if t.getLast? = some '\n' then [] else separator := by
  rw [endLine]
  split <;> simp

/-- A block is inserted by filling the slot. -/
theorem insertBlock_eq {block : Text} (some : block ≠ []) (source separator : Text) :
    insertBlock source block separator = (slotOf source separator).fill block := by
  have nonempty : block.isEmpty = false := by simpa using some
  rw [insertBlock, if_neg (by simp [nonempty]), slotOf]
  dsimp only
  cases ((ofSource source).filter HeaderStatement.isImport).getLast? with
  | some statement => simp [Slot.fill, Slot.stretch, slotBehind, endLine_eq]
  | none =>
      cases (ofSource source).find? fun statement => !statement.isImport with
      | some statement => simp [Slot.fill, Slot.stretch, slotBehind, endLine_eq]
      | none => simp [Slot.fill, Slot.stretch]

theorem insertBlock_nil (source separator : Text) : insertBlock source [] separator = source := rfl

theorem takeLineEnd_append (t : Text) : (takeLineEnd t).1 ++ (takeLineEnd t).2 = t := by
  have whole : t.takeWhile isSpaceOrTab ++ t.dropWhile isSpaceOrTab = t :=
    List.takeWhile_append_dropWhile
  rw [takeLineEnd]
  split
  · rename_i rest found
    simpa [found] using whole
  · rename_i rest found
    simpa [found] using whole
  · rfl

theorem isBlank_of_isSpaceOrTab {c : Char} (h : isSpaceOrTab c = true) : isBlank c = true := by
  simp only [isSpaceOrTab, Bool.or_eq_true, beq_iff_eq] at h
  rcases h with rfl | rfl <;> decide

/-- What is taken of a line is nothing, or blanks up to the line feed. -/
theorem takeLineEnd_fst (t : Text) :
    (takeLineEnd t).1 = [] ∨ Blank (takeLineEnd t).1 ∧ (takeLineEnd t).1.getLast? = some '\n' := by
  have blank : Blank (t.takeWhile isSpaceOrTab) := fun c member =>
    isBlank_of_isSpaceOrTab (List.mem_takeWhile_imp member)
  rw [takeLineEnd]
  split
  · exact Or.inr ⟨blank.append (by decide), by simp⟩
  · exact Or.inr ⟨blank.append (by decide), by simp⟩
  · exact Or.inl rfl

/-- The slot behind a statement of the source. -/
theorem slotBehind_behind {source separator extra : Text} {statement : HeaderStatement}
    (member : statement ∈ ofSource source) (breaks : extra = [] ∨ extra = separator) :
    (slotBehind source separator extra statement.stop).Fits source separator ∧
      ∃ a gap, statement.stop = a.length + 1 ∧
        (slotBehind source separator extra statement.stop).Behind source separator a gap := by
  rcases HeaderStatement.exists_cut_of_mem_ofSource member with ⟨a, b, whole, stop, noBrace⟩
  have cut : source = (a ++ [';']) ++ b := by simp [whole]
  have front : source.take (a.length + 1) = a ++ [';'] := by
    rw [cut]
    exact List.take_left' (by simp)
  have back : source.drop (a.length + 1) = b := by
    rw [cut]
    exact List.drop_left' (by simp)
  have behind : (slotBehind source separator extra statement.stop).Behind source separator a
      (takeLineEnd b).1 := by
    rw [stop]
    refine ⟨?_, ⟨statement, member, stop⟩, takeLineEnd_fst b, rfl, ?_⟩
    · simp [slotBehind, front, back]
    · simp only [slotBehind, front, back]
      rcases takeLineEnd_fst b with none | ⟨-, final⟩
      · rw [none, List.append_nil, if_neg (by simp)]
        rcases breaks with rfl | rfl
        · exact Or.inr (Or.inl (by simp))
        · exact Or.inr (Or.inr rfl)
      · rw [if_pos (by rw [List.getLast?_append, final]; rfl), List.nil_append]
        rcases breaks with rfl | rfl
        · refine Or.inl ⟨rfl, fun none => ?_⟩
          rw [none] at final
          cases final
        · exact Or.inr (Or.inl rfl)
  refine ⟨⟨?_, ?_, Or.inr ⟨a, _, behind⟩⟩, a, _, stop, behind⟩
  · rw [stop]
    simp only [slotBehind, front, back, List.append_assoc, takeLineEnd_append]
    rw [cut, List.append_assoc]
  · rw [stop]
    rintro inside
    simp only [slotBehind, front, back] at inside
    rcases List.mem_append.mp inside with here | gap
    · exact noBrace here
    · rcases takeLineEnd_fst b with none | ⟨blank, -⟩
      · rw [none] at gap
        cases gap
      · exact absurd (blank _ gap) (by decide)

theorem slotBehind_fits {source separator extra : Text} {statement : HeaderStatement}
    (member : statement ∈ ofSource source) (breaks : extra = [] ∨ extra = separator) :
    (slotBehind source separator extra statement.stop).Fits source separator :=
  (slotBehind_behind member breaks).1

theorem slotOf_fits (source separator : Text) :
    (slotOf source separator).Fits source separator := by
  rw [slotOf]
  split
  · rename_i statement isLast
    exact slotBehind_fits (List.mem_of_mem_filter (List.mem_of_getLast? isLast)) (Or.inl rfl)
  · rename_i statement _ isFirst
    exact slotBehind_fits (List.mem_of_find?_eq_some isFirst) (Or.inr rfl)
  · refine ⟨rfl, by simp, Or.inl ⟨rfl, rfl, ?_⟩⟩
    split
    · exact Or.inl rfl
    · exact Or.inr rfl

/-- A semicolon or a line feed stands in front of the slot. -/
theorem Slot.Fits.getLast?_before {slot : Slot} {source separator : Text}
    (fits : slot.Fits source separator) {c : Char} (last : slot.before.getLast? = some c) :
    c = ';' ∨ c = '\n' := by
  rcases fits.place with top | ⟨a, gap, behind⟩
  · rw [top.before] at last
    cases last
  · rw [behind.before] at last
    rcases behind.ends with rfl | ⟨-, ends⟩
    · rw [List.getLast?_concat] at last
      exact Or.inl (Option.some.inj last).symm
    · rw [List.getLast?_append, List.getLast?_cons, ends] at last
      exact Or.inr (Option.some.inj last).symm

/-- The statement behind which a block goes: the last import, or else the first package
statement. -/
def anchor? (source : Text) : Option HeaderStatement :=
  ((ofSource source).filter HeaderStatement.isImport).getLast?.or
    ((ofSource source).find? fun statement => !statement.isImport)

theorem mem_of_anchor? {source : Text} {statement : HeaderStatement}
    (anchored : anchor? source = some statement) :
    statement ∈ ofSource source := by
  rcases Option.or_eq_some_iff.mp anchored with isLast | ⟨-, isFirst⟩
  · exact List.mem_of_mem_filter (List.mem_of_getLast? isLast)
  · exact List.mem_of_find?_eq_some isFirst

/-- The statements of a source follow each other. -/
theorem pairwise_ofSource (source : Text) :
    (ofSource source).Pairwise fun statement next => statement.stop ≤ next.start := by
  rw [ofSource, List.pairwise_map]
  exact Matcher.pairwise_findAllFrom_stretchOf HeaderStatement.gives_headerStatement [] 0
    (header source)

/-- Where there are imports, none stands behind the anchor. -/
theorem exists_anchor? {source : Text} {statement : HeaderStatement}
    (member : statement ∈ ofSource source) (isImport : statement.isImport = true) :
    ∃ last, anchor? source = some last ∧ statement.stop ≤ last.stop := by
  have inImports : statement ∈ (ofSource source).filter HeaderStatement.isImport :=
    List.mem_filter.mpr ⟨member, isImport⟩
  rcases List.eq_nil_or_concat ((ofSource source).filter HeaderStatement.isImport) with
    none | ⟨front, last, imports⟩
  · rw [none] at inImports
    cases inImports
  · rw [List.concat_eq_append] at imports
    have anchored : anchor? source = some last := by
      rw [anchor?, imports, List.getLast?_concat]
      rfl
    refine ⟨last, anchored, ?_⟩
    have inOrder := (pairwise_ofSource source).filter HeaderStatement.isImport
    rw [imports] at inOrder inImports
    rcases List.mem_append.mp inImports with inFront | isLast
    · have before :=
        (List.pairwise_append.mp inOrder).2.2 statement inFront last (List.mem_singleton_self last)
      rcases HeaderStatement.exists_wording_of_mem_ofSource (mem_of_anchor? anchored) with
        ⟨x, s, b, -, -, -, -, start, stop, -⟩
      rw [List.length_append] at stop
      omega
    · rw [List.mem_singleton.mp isLast]

/-- The slot is behind the anchor, and at the top if there is none. -/
theorem slotOf_place (source separator : Text) :
    anchor? source = none ∧ (slotOf source separator).AtTop separator ∨
      ∃ statement, anchor? source = some statement ∧ ∃ a gap, statement.stop = a.length + 1 ∧
        (slotOf source separator).Behind source separator a gap := by
  rw [slotOf]
  split
  · rename_i statement isLast
    have anchored : anchor? source = some statement := by rw [anchor?, isLast]; rfl
    exact Or.inr ⟨statement, anchored, (slotBehind_behind (mem_of_anchor? anchored) (Or.inl rfl)).2⟩
  · rename_i statement noImport isFirst
    have anchored : anchor? source = some statement := by rw [anchor?, noImport, isFirst]; rfl
    exact Or.inr ⟨statement, anchored, (slotBehind_behind (mem_of_anchor? anchored) (Or.inr rfl)).2⟩
  · rename_i noImport noPackage
    refine Or.inl ⟨by rw [anchor?, noImport, noPackage]; rfl, rfl, rfl, ?_⟩
    split
    · exact Or.inl rfl
    · exact Or.inr rfl

/-- Taking one stretch out of the result gives the source back. -/
theorem exists_stretch (source block separator : Text) :
    ∃ before stretch after, source = before ++ after ∧
      insertBlock source block separator = before ++ stretch ++ after := by
  by_cases none : block = []
  · exact ⟨source, [], [], by simp, by rw [none, insertBlock_nil]; simp⟩
  · let slot := slotOf source separator
    exact ⟨slot.before, slot.stretch block, slot.after, (slotOf_fits source separator).whole,
      insertBlock_eq none source separator⟩

/-! ## The block -/

/-- The block of some lines has those that the source lacks, in order. -/
theorem foldl_appendIfAbsent (source separator block : Text) (lines : List Text) :
    lines.foldl (appendIfAbsent source separator) block =
      block ++ joinLines separator (lines.filter fun line => !containsImport source line) := by
  induction lines generalizing block with
  | nil => simp [joinLines]
  | cons line lines ih =>
      rw [List.foldl_cons, ih, appendIfAbsent]
      cases present : containsImport source line with
      | true => simp [present, joinLines]
      | false => simp [present, joinLines]

theorem missingImports_eq (source separator : Text) (target : Option ClassSurface)
    (convention : Convention) :
    missingImports source separator target convention =
      joinLines separator ((neededImports target convention).filter fun line =>
        !containsImport source line) := by
  rw [missingImports, foldl_appendIfAbsent, List.nil_append]

theorem joinLines_eq_nil_iff {separator : Text} (some : separator ≠ []) {lines : List Text} :
    joinLines separator lines = [] ↔ lines = [] := by
  cases lines with
  | nil => exact iff_of_true rfl rfl
  | cons line lines => simp [joinLines, some]

/-- Two line breaks at most set a block off. -/
theorem Slot.Fits.exists_stretch {slot : Slot} {source separator : Text}
    (h : slot.Fits source separator) (block : Text) :
    ∃ lead trail n, slot.stretch block = lead ++ block ++ trail ∧
      lead ++ trail = (List.replicate n separator).flatten ∧ n ≤ 2 := by
  refine ⟨slot.lead, slot.trail, ?_⟩
  rcases h.place with ⟨-, lead, trail | trail⟩ | ⟨a, gap, -, -, -, trail, ⟨lead, -⟩ | lead | lead⟩
  · exact ⟨0, rfl, by simp [lead, trail], by omega⟩
  · exact ⟨1, rfl, by simp [lead, trail], by omega⟩
  · exact ⟨0, rfl, by simp [lead, trail], by omega⟩
  · exact ⟨1, rfl, by simp [lead, trail], by omega⟩
  · exact ⟨2, rfl, by simp [lead, trail], by omega⟩

/-- A block goes in front of the first opening brace. -/
theorem exists_insertBlock {front : Text} (brace : '\x7b' ∈ front) {block : Text}
    (some : block ≠ []) (t separator : Text) :
    ∃ a b lead trail n, front = a ++ b ∧ '\x7b' ∉ a ∧
      insertBlock (front ++ t) block separator = a ++ (lead ++ block ++ trail) ++ b ++ t ∧
      lead ++ trail = (List.replicate n separator).flatten ∧ n ≤ 2 := by
  have fits := slotOf_fits (front ++ t) separator
  rcases fits.exists_stretch block with ⟨lead, trail, n, stretch, breaks, bound⟩
  rcases List.append_eq_append_iff.mp fits.whole with ⟨x, before, -⟩ | ⟨b, cut, after⟩
  · exact absurd (by rw [before]; exact List.mem_append_left x brace) fits.noBrace
  · refine ⟨(slotOf (front ++ t) separator).before, b, lead, trail, n, cut, fits.noBrace, ?_,
      breaks, bound⟩
    rw [insertBlock_eq some, Slot.fill, stretch, after]
    simp

section Block

variable {separator : Text} (blank : Blank separator) {lines : List Text}
  (each : ∀ line ∈ lines, IsImportLine line)
include blank each

/-- The entries of a block of import lines are the lines. -/
theorem entries_joinLines (t : Text) :
    entries (joinLines separator lines ++ t) = lines.map (Prod.mk true) ++ entries t := by
  induction lines with
  | nil => rfl
  | cons line lines ih =>
      have others := ih fun line' member => each line' (List.mem_cons_of_mem line member)
      have whole : joinLines separator (line :: lines) ++ t =
          line ++ (separator ++ (joinLines separator lines ++ t)) := by simp [joinLines]
      rw [whole, (each line List.mem_cons_self).entries_append, entries_gap blank, others]
      rfl

theorem noBrace_joinLines : '\x7b' ∉ joinLines separator lines := by
  intro inside
  rcases List.mem_flatMap.mp inside with ⟨line, member, inLine⟩
  rcases List.mem_append.mp inLine with here | inSeparator
  · exact (each line member).noBrace here
  · exact absurd (blank _ inSeparator) (by decide)

/-- The entries of the result are those of the source with those of the block
between them. -/
theorem exists_entries_fill {slot : Slot} {source : Text} (fits : slot.Fits source separator) :
    ∃ front back, entries (header source) = front ++ back ∧
      entries (header (slot.fill (joinLines separator lines))) =
        front ++ (lines.map (Prod.mk true) ++ back) := by
  have noBrace := noBrace_joinLines blank each
  have noBreak : '\x7b' ∉ separator := fun inside => absurd (blank _ inside) (by decide)
  rcases fits with ⟨whole, inFront, ⟨none, lead, trail⟩ | ⟨a, gap, behind⟩⟩
  · refine ⟨[], entries (header source), rfl, ?_⟩
    have blankTrail : Blank slot.trail := by
      rcases trail with trail | trail
      · rw [trail]
        exact Text.blank_nil
      · rw [trail]
        exact blank
    have noTrail : '\x7b' ∉ slot.trail := fun inside => absurd (blankTrail _ inside) (by decide)
    have behind : slot.after = source := by rw [whole, none, List.nil_append]
    have filled : slot.fill (joinLines separator lines) =
        joinLines separator lines ++ (slot.trail ++ source) := by
      simp [Slot.fill, Slot.stretch, none, lead, behind]
    rw [filled, HeaderStatement.header_append noBrace, HeaderStatement.header_append noTrail,
      entries_joinLines blank each, entries_gap blankTrail, List.nil_append]
  · refine ⟨entriesFrom [] (a ++ [';']), entries (header slot.after), ?_, ?_⟩
    · rw [whole, HeaderStatement.header_append inFront, behind.before, List.append_assoc,
        List.cons_append, entries, entriesFrom_cut, entries_gap behind.blank]
    · have blankLead := behind.blank_lead blank
      have noLead : '\x7b' ∉ slot.lead := fun inside => absurd (blankLead _ inside) (by decide)
      have filled : slot.fill (joinLines separator lines) =
          slot.before ++ (slot.lead ++ (joinLines separator lines ++ slot.after)) := by
        simp [Slot.fill, Slot.stretch, behind.trail]
      rw [filled, HeaderStatement.header_append inFront, HeaderStatement.header_append noLead,
        HeaderStatement.header_append noBrace, behind.before, List.append_assoc, List.cons_append,
        entries, entriesFrom_cut, entries_gap behind.blank, entries_gap blankLead,
        entries_joinLines blank each]

/-- An insertion adds the entries of the block and takes none away. -/
theorem mem_entries_insertBlock (nonempty : separator ≠ []) (source : Text) (entry : Bool × Text) :
    entry ∈ entries (header (insertBlock source (joinLines separator lines) separator)) ↔
      entry ∈ entries (header source) ∨ ∃ line ∈ lines, entry = (true, line) := by
  by_cases none : joinLines separator lines = []
  · rw [none, insertBlock_nil, (joinLines_eq_nil_iff nonempty).mp none]
    simp
  · rcases exists_entries_fill blank each (slotOf_fits source separator) with
      ⟨front, back, ofSource, ofResult⟩
    rw [insertBlock_eq none, ofResult, ofSource]
    simp only [List.mem_append, List.mem_map]
    constructor
    · rintro (here | ⟨line, member, rfl⟩ | there)
      · exact Or.inl (Or.inl here)
      · exact Or.inr ⟨line, member, rfl⟩
      · exact Or.inl (Or.inr there)
    · rintro ((here | there) | ⟨line, member, rfl⟩)
      · exact Or.inl here
      · exact Or.inr (Or.inr there)
      · exact Or.inr (Or.inl ⟨line, member, rfl⟩)

/-- A statement is present behind the insertion if it was present or is one of
the lines. -/
theorem containsImport_insertBlock (nonempty : separator ≠ []) {line wanted : Text}
    (isStatement : ofLine? line = some wanted) (source : Text) :
    containsImport (insertBlock source (joinLines separator lines) separator) line = true ↔
      containsImport source line = true ∨ wanted ∈ lines := by
  rw [containsImport_eq isStatement, containsImport_eq isStatement, List.any_eq_true,
    List.any_eq_true]
  constructor
  · rintro ⟨entry, member, same⟩
    rcases (mem_entries_insertBlock blank each nonempty source entry).mp member with
      old | ⟨line', isNew, rfl⟩
    · exact Or.inl ⟨entry, old, same⟩
    · exact Or.inr (beq_iff_eq.mp same ▸ isNew)
  · rintro (⟨entry, member, same⟩ | isNew)
    · exact ⟨entry, (mem_entries_insertBlock blank each nonempty source entry).mpr (Or.inl member),
        same⟩
    · exact ⟨(true, wanted), (mem_entries_insertBlock blank each nonempty source _).mpr
        (Or.inr ⟨wanted, isNew, rfl⟩), beq_self_eq_true wanted⟩

end Block

end Header
end Testwright
