import Testwright.Proofs.Declaration.ClassOpening
import Testwright.Proofs.Header.ImportReading
import Testwright.Proofs.Testing.Imported
import Testwright.Proofs.Text.WordEnds

namespace Testwright

/-!
# Imports that a surface lists

The header of a source is searched as it stands, comments and all, and a surface is read
from the normalized source.  A statement that stands outside comments, literals and
annotations (`HeaderStatement.StandsFree`) is an entry of the source without these, and
stays one when import lines are put behind it (`mem_entries_bare_fill`).  The lines are
entries as well if their place is free (`Slot.StandsFree`), and where a class begins in
the source, one begins in the result.
-/

open Character (isBlank isNamePart isWord)
open ClassForm (IsOpening)
open Region (after blankOut code)
open Text (BeginsIn Blank Drops bare unifyLineBreaks)

namespace HeaderStatement

/-- The statement stands outside comments, literals and annotations. -/
def StandsFree (source : Text) (statement : HeaderStatement) : Prop :=
  after code 0 (unifyLineBreaks (source.take statement.start)) = (code, 0) ∧
    ∃ w, Drops (blankOut code 0 (unifyLineBreaks (source.take statement.start)))
      (blankOut code 0 (unifyLineBreaks (source.drop statement.start))) w

end HeaderStatement

namespace Header

open HeaderStatement (BehindEdge IsWording canonicalText header ofSource)
open TestPlan (joinLines)

/-- Header text in the slot stands outside comments, literals and annotations. -/
def Slot.StandsFree (slot : Slot) : Prop :=
  Region.after code 0 (unifyLineBreaks slot.before) = (code, 0) ∧
    ∃ w, ∀ g, IsHeaderText g → Drops (blankOut code 0 (unifyLineBreaks slot.before))
      (g ++ blankOut code 0 (unifyLineBreaks slot.after)) w

/-! ## Statements outside comments, literals and annotations -/

/-- Behind a semicolon or a line feed in code the scan begins anew. -/
theorem blankOut_append_ended {a : Text} (inCode : after code 0 (unifyLineBreaks a) = (code, 0))
    (ended : ∀ c, a.getLast? = some c → c = ';' ∨ c = '\n') (t : Text) :
    blankOut code 0 (unifyLineBreaks (a ++ t)) =
      blankOut code 0 (unifyLineBreaks a) ++ blankOut code 0 (unifyLineBreaks t) := by
  have calm : Region.Calm a t := Or.inl fun c last => by
    rcases ended c last with rfl | rfl <;> decide
  have apart : a.getLast? = some '\r' → t.head? ≠ some '\n' := fun last => by
    rcases ended _ last with other | other <;> exact absurd other (by decide)
  rw [Text.unifyLineBreaks_append apart,
    (Region.blankOut_append inCode (Text.calm_unifyLineBreaks calm)).1]

section Wording

variable {isImport : Bool} {path x s : Text} (wording : IsWording isImport path s)
  (inCode : after code 0 (unifyLineBreaks x) = (code, 0))
include wording

/-- The scan leaves a statement in code as it is. -/
theorem blankOut_wording (r : Text) :
    ∃ u, s = u ++ [';'] ∧ IsHeaderText u ∧
      blankOut code 0 (unifyLineBreaks (s ++ r)) =
        unifyLineBreaks u ++ ';' :: blankOut code 0 (unifyLineBreaks r) := by
  rcases wording.exists_parts with ⟨c, u, rfl, word, parts⟩
  have isHeader : IsHeaderText (c :: u) := fun d member => by simp [isHeaderPart, parts d member]
  have scanned := Text.scanned_unifyLineBreaks (IsHeaderText.quiet isHeader)
  refine ⟨c :: u, rfl, isHeader, ?_⟩
  have shape : c :: (u ++ [';']) ++ r = (c :: u) ++ ';' :: r := by simp
  rw [shape, Text.blankOut_append_cons scanned.2 (by decide) (by decide) (by decide) (by decide),
    scanned.1]

include inCode

theorem blankOut_append_wording (r : Text) :
    blankOut code 0 (unifyLineBreaks (x ++ (s ++ r))) =
        blankOut code 0 (unifyLineBreaks x) ++ blankOut code 0 (unifyLineBreaks (s ++ r)) ∧
      after code 0 (unifyLineBreaks (x ++ (s ++ r))) = after code 0 (unifyLineBreaks (s ++ r)) := by
  rcases wording.exists_parts with ⟨c, u, rfl, word, -⟩
  have notBreak : c ≠ '\n' := by
    rintro rfl
    exact absurd word (by decide)
  have seam : Text.Seam x (c :: (u ++ [';'] ++ r)) :=
    Text.seam_of_cons (isCalm_of_isWord word) notBreak x _
  rw [List.cons_append, Text.unifyLineBreaks_append seam.breaks]
  exact Region.blankOut_append inCode (Text.calm_unifyLineBreaks seam.calm)

/-- A wording that no annotation reaches over is an entry of what is left without comments,
contents of literals and annotations. -/
theorem mem_entries_bare_of_wording (edge : BehindEdge x.reverse) {r w : Text}
    (drops : Drops (blankOut code 0 (unifyLineBreaks x))
      (blankOut code 0 (unifyLineBreaks (s ++ r))) w) :
    (isImport, canonicalText isImport path) ∈ entries (bare (x ++ (s ++ r))) := by
  rcases blankOut_wording wording r with ⟨u, shape, isHeader, scanned⟩
  have left : bare (x ++ (s ++ r)) = w ++ (unifyLineBreaks u ++ Text.dropAnnotations
      (';' :: blankOut code 0 (unifyLineBreaks r))) := by
    rw [bare, (blankOut_append_wording wording inCode r).1, drops.dropAnnotations_append, scanned,
      Text.dropAnnotations_append_of_not_mem isHeader.unifyLineBreaks.noSign]
  have edge' : BehindEdge w.reverse := by
    rw [HeaderStatement.behindEdge_reverse_iff] at edge ⊢
    refine drops.not_word_last (Region.not_word_last_blankOut ?_)
    rw [Text.getLast?_unifyLineBreaks]
    cases final : x.getLast? with
    | none => rfl
    | some d =>
        rw [final] at edge
        by_cases isReturn : d = '\r'
        · simp only [Option.map_some, isReturn, if_true]
          decide
        · simpa [isReturn] using edge
  have standing :=
    mem_entries_of_isWording wording edge'
      (Text.dropAnnotations (blankOut code 0 (unifyLineBreaks r)))
  have spaced := (Text.respaced_unifyLineBreaks_append u
    (';' :: Text.dropAnnotations (blankOut code 0 (unifyLineBreaks r)))).append_left w
  rw [left, Text.dropAnnotations_cons (Text.noMark_of_ne (by decide) _)]
  refine mem_entries_of_respaced spaced ?_
  rw [shape] at standing
  simpa using standing

end Wording

section Statement

variable {source : Text} {statement : HeaderStatement} (member : statement ∈ ofSource source)
  (free : statement.StandsFree source)
include member free

theorem exists_free_wording :
    ∃ x s b path w, source = x ++ (s ++ b) ∧ IsWording statement.isImport path s ∧
      BehindEdge x.reverse ∧
      statement.text = canonicalText statement.isImport path ∧ statement.stop = (x ++ s).length ∧
      after code 0 (unifyLineBreaks x) = (code, 0) ∧
      Drops (blankOut code 0 (unifyLineBreaks x))
        (blankOut code 0 (unifyLineBreaks (s ++ b))) w := by
  rcases HeaderStatement.exists_standing_of_mem_ofSource member with
    ⟨x, s, b, path, whole, wording, edge, text, start, stop, -⟩
  rcases free with ⟨inCode, w, drops⟩
  have taken : source.take statement.start = x := by
    rw [whole, start]
    simp
  have dropped : source.drop statement.start = s ++ b := by
    rw [whole, start]
    simp
  rw [taken] at inCode drops
  rw [dropped] at drops
  exact ⟨x, s, b, path, w, whole, wording, edge, text, stop, inCode, drops⟩

/-- A statement that stands free is an entry of the source without comments, contents of
literals and annotations. -/
theorem mem_entries_bare : (statement.isImport, statement.text) ∈ entries (bare source) := by
  rcases exists_free_wording member free with
    ⟨x, s, b, path, w, rfl, wording, edge, text, -, inCode, drops⟩
  rw [text]
  exact mem_entries_bare_of_wording wording inCode edge drops

end Statement

/-! ## Text in a slot -/

section Slot

variable {slot : Slot} {source separator : Text} (fits : slot.Fits source separator)
include fits

/-- A statement in front of the slot stays an entry when header text is put there. -/
theorem mem_entries_bare_fill (inCode : after code 0 (unifyLineBreaks slot.before) = (code, 0))
    {statement : HeaderStatement} (member : statement ∈ ofSource source)
    (free : statement.StandsFree source) (inFront : statement.stop ≤ slot.before.length) {g : Text}
    (isHeader : IsHeaderText g) (ends : g.getLast? = some '\n') :
    (statement.isImport, statement.text) ∈ entries (bare (slot.before ++ (g ++ slot.after))) := by
  rcases exists_free_wording member free with
    ⟨x, s, b, path, w, whole, wording, edge, text, stop, begins, drops⟩
  have split : ∃ m, slot.before = x ++ (s ++ m) ∧ b = m ++ slot.after := by
    have same : (x ++ s) ++ b = slot.before ++ slot.after := by
      rw [← fits.whole, whole, List.append_assoc]
    rcases List.append_eq_append_iff.mp same with ⟨m, front, back⟩ | ⟨v, front, back⟩
    · exact ⟨m, by rw [front, List.append_assoc], back⟩
    · have none : v = [] := by
        rw [stop, front, List.length_append] at inFront
        exact List.length_eq_zero_iff.mp (by omega)
      subst none
      rw [List.append_nil] at front
      exact ⟨[], by rw [← front, List.append_nil], by simpa using back.symm⟩
  rcases split with ⟨m, front, rfl⟩
  have inCode' : after code 0 (unifyLineBreaks (s ++ m)) = (code, 0) := by
    rw [← (blankOut_append_wording wording begins m).2, ← front]
    exact inCode
  have parted : ∀ t : Text, blankOut code 0 (unifyLineBreaks (s ++ (m ++ t))) =
      blankOut code 0 (unifyLineBreaks (s ++ m)) ++
        blankOut code 0 (unifyLineBreaks t) := fun t => by
    rw [← List.append_assoc]
    refine blankOut_append_ended inCode' (fun c last => fits.getLast?_before ?_) t
    rw [front, List.getLast?_append, last, Option.some_or]
  have visible : ∃ c ∈ blankOut code 0 (unifyLineBreaks (s ++ m)), isBlank c = false := by
    rcases blankOut_wording wording m with ⟨u, -, -, scanned⟩
    exact ⟨';', by rw [scanned]; simp, by decide⟩
  rw [parted] at drops
  have added : Drops (blankOut code 0 (unifyLineBreaks x))
      (blankOut code 0 (unifyLineBreaks (s ++ (m ++ (g ++ slot.after))))) w := by
    rw [parted, isHeader.blankOut_append (Or.inr ends)]
    exact drops.of_plain (g := []) visible (isHeaderText_of_blank Text.blank_nil).plain
      isHeader.unifyLineBreaks.plain
  have here := mem_entries_bare_of_wording wording begins edge added
  rw [text, front]
  simpa using here

/-- Header text in a free slot stands between what the two parts are without comments,
contents of literals and annotations. -/
theorem Slot.StandsFree.bare_eq (free : slot.StandsFree) {g : Text} (isHeader : IsHeaderText g)
    (ends : g = [] ∨ g.getLast? = some '\n') :
    bare (slot.before ++ (g ++ slot.after)) =
      bare slot.before ++ (unifyLineBreaks g ++ bare slot.after) := by
  rcases free with ⟨inCode, w, drops⟩
  have before : bare slot.before = w := (drops g isHeader).dropAnnotations_eq
  rw [before, bare, blankOut_append_ended inCode (fun c => fits.getLast?_before),
    isHeader.blankOut_append ends, (drops _ isHeader.unifyLineBreaks).dropAnnotations_append,
    Text.dropAnnotations_append_of_not_mem isHeader.unifyLineBreaks.noSign]
  rfl

theorem Slot.StandsFree.not_word_last (free : slot.StandsFree) :
    (bare slot.before).getLast?.any isWord = false := by
  rcases free with ⟨-, w, drops⟩
  have here := drops [] (isHeaderText_of_blank Text.blank_nil)
  rw [bare, here.dropAnnotations_eq]
  refine here.not_word_last (Region.not_word_last_blankOut ?_)
  rw [Text.getLast?_unifyLineBreaks]
  cases last : slot.before.getLast? with
  | none => rfl
  | some c => rcases fits.getLast?_before last with rfl | rfl <;> decide

theorem Slot.StandsFree.bare_source (free : slot.StandsFree) :
    bare source = bare slot.before ++ bare slot.after := by
  have none := free.bare_eq fits (isHeaderText_of_blank Text.blank_nil) (Or.inl rfl)
  rwa [List.nil_append, ← fits.whole] at none

end Slot

/-! ## Import lines in a slot -/

section Block

variable {separator : Text} (isBreak : separator = ['\n'] ∨ separator = ['\r', '\n'])
  {lines : List Text} (each : ∀ line ∈ lines, IsImportLine line) (nonempty : lines ≠ [])
  {slot : Slot} {source : Text} (fits : slot.Fits source separator)

theorem Slot.fill_eq (slot : Slot) (block : Text) :
    slot.fill block = slot.before ++ (slot.stretch block ++ slot.after) := by
  simp [Slot.fill]

include isBreak fits

theorem Slot.Fits.blank_around : Blank slot.lead ∧ Blank slot.trail := by
  have blank := (blank_of_isBreak isBreak).1
  rcases fits.place with ⟨-, lead, trail⟩ | ⟨a, gap, behind⟩
  · rcases trail with trail | trail
    · rw [lead, trail]
      exact ⟨Text.blank_nil, Text.blank_nil⟩
    · rw [lead, trail]
      exact ⟨Text.blank_nil, blank⟩
  · rw [behind.trail]
    exact ⟨behind.blank_lead blank, Text.blank_nil⟩

include nonempty in
theorem Slot.Fits.getLast?_stretch :
    (slot.stretch (joinLines separator lines)).getLast? = some '\n' := by
  have last : ∀ t : Text, (t ++ joinLines separator lines).getLast? = some '\n' := fun t => by
    rw [List.getLast?_append, getLast?_joinLines isBreak nonempty]
    rfl
  rcases fits.place with ⟨-, -, trail | trail⟩ | ⟨a, gap, behind⟩
  · rw [Slot.stretch, trail, List.append_nil, last]
  · rw [Slot.stretch, trail, Text.getLast?_append_separator isBreak]
  · rw [Slot.stretch, behind.trail, List.append_nil, last]

include each

theorem Slot.Fits.isHeaderText_stretch :
    IsHeaderText (slot.stretch (joinLines separator lines)) := by
  have blank := fits.blank_around isBreak
  exact List.forall_mem_append.mpr ⟨List.forall_mem_append.mpr ⟨isHeaderText_of_blank blank.1,
    isHeaderText_joinLines (blank_of_isBreak isBreak).1 each⟩, isHeaderText_of_blank blank.2⟩

theorem Slot.Fits.entries_stretch (t : Text) :
    entries (slot.stretch (joinLines separator lines) ++ t) =
      lines.map (Prod.mk true) ++ entries t := by
  have blank := fits.blank_around isBreak
  rw [Slot.stretch, List.append_assoc, List.append_assoc, entries_gap blank.1,
    entries_joinLines (blank_of_isBreak isBreak).1 each, entries_gap blank.2]

variable (free : slot.StandsFree)
include nonempty free

theorem bare_fill :
    bare (slot.fill (joinLines separator lines)) =
      bare slot.before ++
        (unifyLineBreaks (slot.stretch (joinLines separator lines)) ++ bare slot.after) := by
  rw [Slot.fill_eq]
  exact free.bare_eq fits (fits.isHeaderText_stretch isBreak each)
    (Or.inr (fits.getLast?_stretch isBreak nonempty))

/-- The lines in a free slot are entries of the result without comments, contents of
literals and annotations. -/
theorem mem_entries_bare_fill_line {line : Text} (member : line ∈ lines) :
    (true, line) ∈ entries (bare (slot.fill (joinLines separator lines))) := by
  rw [bare_fill isBreak each nonempty fits free]
  refine mem_entries_append (mem_entries_of_respaced (Text.respaced_unifyLineBreaks_append _ _) ?_)
    (free.not_word_last fits)
  rw [fits.entries_stretch isBreak each]
  exact List.mem_append_left _ (List.mem_map.mpr ⟨line, member, rfl⟩)

/-- Where a class begins in the source, one begins in the result. -/
theorem beginsIn_bare_fill (h : BeginsIn IsOpening (bare source)) :
    BeginsIn IsOpening (bare (slot.fill (joinLines separator lines))) := by
  have opens : ∃ lead c r, slot.stretch (joinLines separator lines) = lead ++ c :: r ∧ Blank lead ∧
      isNamePart c = true := by
    rcases List.exists_cons_of_ne_nil nonempty with ⟨line, others, rfl⟩
    rcases (each line List.mem_cons_self).exists_parts with ⟨u, rfl, -⟩
    exact ⟨slot.lead, 'i', _, by simp [Slot.stretch, joinLines, HeaderStatement.keyword]; rfl,
      (fits.blank_around isBreak).1, by decide⟩
  have ended : (slot.stretch (joinLines separator lines)).getLast?.any isWord = false := by
    rw [fits.getLast?_stretch isBreak nonempty]
    decide
  rw [free.bare_source fits] at h
  rw [bare_fill isBreak each nonempty fits free]
  exact ClassForm.beginsIn_of_respaced
    (ClassForm.beginsIn_insert (free.not_word_last fits) opens ended h)
    ((Text.respaced_unifyLineBreaks_append _ _).append_left _)

end Block

/-! ## The surface of a source with its missing imports -/

section Read

variable {library : PatternLibrary} {policy : ExtractionPolicy} {source : Text}

theorem beginsIn_of_read {surface : ClassSurface}
    (extracted : ClassSurface.read library policy source = .ok surface) :
    BeginsIn IsOpening (bare source) := by
  rw [ClassSurface.read] at extracted
  split at extracted
  · cases extracted
  · dsimp only at extracted
    split at extracted
    · cases extracted
    · rename_i name found
      have occurs : Matcher.className.occursIn (Text.normalize source) = true := by
        rw [Matcher.occursIn, found]
        rfl
      exact ClassForm.beginsIn_of_respaced (ClassForm.occursIn_className_iff.mp occurs)
        (Text.respaced_tidyLines (bare source)).symm

/-- Where a class begins, the source is read, unless it is too large. -/
theorem exists_read_of_beginsIn (begins : BeginsIn IsOpening (bare source))
    (small : ¬policy.maxSourceSize < Text.utf8Size source) :
    ∃ surface, ClassSurface.read library policy source = .ok surface ∧
      surface.imports = ClassSurface.importsOf (Text.normalize source) := by
  have occurs := ClassForm.occursIn_className_iff.mpr
    (ClassForm.beginsIn_of_respaced begins (Text.respaced_tidyLines (bare source)))
  rw [Matcher.occursIn, Option.isSome_iff_exists] at occurs
  rcases occurs with ⟨name, found⟩
  have found : Matcher.className.find? (Text.normalize source) = some name := found
  rw [ClassSurface.read, if_neg small]
  simp only [found]
  exact ⟨_, rfl, rfl⟩

end Read

theorem isImport_of_text {source : Text} {statement : HeaderStatement}
    (member : statement ∈ ofSource source) {form : ImportForm} (text : statement.text = form.line) :
    statement.isImport = true := by
  rcases HeaderStatement.exists_standing_of_mem_ofSource member with
    ⟨x, s, b, path, -, -, -, text', -⟩
  rw [text'] at text
  cases isImport : statement.isImport with
  | true => rfl
  | false =>
      rw [isImport] at text
      exact absurd (congrArg List.head? text)
        (by simp [canonicalText, ImportForm.line_eq, HeaderStatement.keyword])

theorem stop_le_slotOf {source : Text} {statement : HeaderStatement}
    (member : statement ∈ ofSource source) (isImport : statement.isImport = true)
    (separator : Text) :
    statement.stop ≤ (slotOf source separator).before.length := by
  rcases exists_anchor? member isImport with ⟨last, anchored, before⟩
  rcases slotOf_place source separator with ⟨none, -⟩ | ⟨last', anchored', a, gap, stop, behind⟩
  · rw [none] at anchored
    cases anchored
  · rcases Option.some.inj (anchored.symm.trans anchored') with rfl
    rw [behind.before, List.length_append, List.length_cons]
    omega

section Added

variable {source : Text} {target : ClassSurface} (dotted : HasDottedImports target)
  {convention : Convention}
  (shown : ∀ line ∈ neededImports (some target) convention, containsImport source line = true →
    ∃ statement ∈ ofSource source, statement.text = line ∧ statement.StandsFree source)
  (place : ∀ line ∈ neededImports (some target) convention, containsImport source line = false →
    (slotOf source (Text.lineSeparator source ['\n'])).StandsFree)
include dotted shown place

/-- Without comments, contents of literals and annotations, the source with its missing
imports has an entry for each of them, and a class begins there if one does in the source. -/
theorem bare_addMissingImports (begins : BeginsIn IsOpening (bare source)) :
    let added := addMissingImports source target convention
    BeginsIn IsOpening (bare added) ∧
      ∀ line ∈ neededImports (some target) convention, (true, line) ∈ entries (bare added) := by
  intro added
  have isBreak := lineSeparator_isBreak source
  let separator := Text.lineSeparator source ['\n']
  let slot := slotOf source separator
  let lines :=
    (neededImports (some target) convention).filter fun line => !containsImport source line
  have block : added = insertBlock source (joinLines separator lines) separator := by
    rw [← missingImports_eq]
    rfl
  have each : ∀ line ∈ lines, IsImportLine line := fun line member =>
    isImportLine_of_mem_neededImports dotted (List.mem_of_mem_filter member)
  have present : ∀ line ∈ neededImports (some target) convention,
      containsImport source line = true →
      ∃ statement ∈ ofSource source, statement.isImport = true ∧ statement.text = line ∧
        statement.StandsFree source := by
    intro line member isPresent
    rcases shown line member isPresent with ⟨statement, inSource, text, free⟩
    rcases isImportLine_of_mem_neededImports dotted member with ⟨form, -, rfl⟩
    exact ⟨statement, inSource, isImport_of_text inSource text, text, free⟩
  by_cases none : lines = []
  · have same : added = source := by
      rw [block, none]
      rfl
    rw [same]
    refine ⟨begins, fun line member => ?_⟩
    have isPresent : containsImport source line = true := by
      have out := List.filter_eq_nil_iff.mp none line member
      simpa using out
    rcases present line member isPresent with ⟨statement, inSource, isImport, rfl, free⟩
    rw [← isImport]
    exact mem_entries_bare inSource free
  · have fits := slotOf_fits source separator
    have free : slot.StandsFree := by
      rcases List.exists_mem_of_ne_nil _ none with ⟨line, member⟩
      rcases List.mem_filter.mp member with ⟨needed, absent⟩
      exact place line needed (by simpa using absent)
    have notNil : joinLines separator lines ≠ [] := fun empty => none
      ((joinLines_eq_nil_iff (blank_of_isBreak isBreak).2).mp empty)
    have filled : added = slot.fill (joinLines separator lines) := by
      rw [block, insertBlock_eq notNil]
    rw [filled]
    refine ⟨beginsIn_bare_fill isBreak each none fits free begins, fun line member => ?_⟩
    cases isPresent : containsImport source line with
    | false =>
        exact mem_entries_bare_fill_line isBreak each none fits free
          (List.mem_filter.mpr ⟨member, by simp [isPresent]⟩)
    | true =>
        rcases present line member isPresent with ⟨statement, inSource, isImport, rfl, stands⟩
        rw [← isImport, Slot.fill_eq]
        exact mem_entries_bare_fill fits free.1 inSource stands
          (stop_le_slotOf inSource isImport separator)
          (fits.isHeaderText_stretch isBreak each) (fits.getLast?_stretch isBreak none)

end Added

theorem exists_ok_of_map {ε α β : Type} {result : Except ε α} {f : α → β} {value : β}
    (h : result.toOption.map f = some value) : ∃ a, result = .ok a ∧ f a = value := by
  cases result with
  | error => cases h
  | ok a => exact ⟨a, rfl, Option.some.inj h⟩

end Header

end Testwright
