import Mathlib.Logic.Relation
import Testwright.Proofs.Header.Listing
import Testwright.Proofs.Header.Removal

namespace Testwright

/-!
# An import that is taken out

An import goes in two steps, and both take out one kind of stretch again and again: a
statement that says the import, with blanks around it, where no word ends in front of it
(`loses_cut`).  If no keyword stands outside of the statements, this loses that
statement and leaves the others as they stand, however they share lines (`Loses`).  The
lines go first (`loses_dropLine`); the statements that share a line are cut out one by
one, each cut making the text shorter, until none is found
(`removeImport_takes_exactly`).
-/

open Character (isWord)
open HeaderStatement (IsWording KeywordsStand Listing canonicalText header ofLine? ofSource)
open Text (Blank EndsLine)

namespace Text

variable {layer? : Text → Option Text}

/-- Layers are taken off until none is found, if each leaves a shorter text. -/
theorem peel_stops (shorter : ∀ t rest, layer? t = some rest → rest.length < t.length) (t : Text) :
    Relation.ReflTransGen (fun t rest => layer? t = some rest) t (peel layer? t).1 ∧
      layer? (peel layer? t).1 = none := by
  fun_induction peel layer? t with
  | case1 t none => exact ⟨.refl, none⟩
  | case2 t rest layer _ _ ih => exact ⟨.head layer ih.1, ih.2⟩
  | case3 t rest layer longer => exact absurd (shorter t rest layer) longer

end Text

namespace Line

/-- Every line of a text but the last one has a line break. -/
theorem ending_ne_nil_of_mem_dropLast (t : Text) :
    ∀ line ∈ (ofText t).dropLast, line.ending ≠ [] := by
  have whole : ∀ {first : Line} {lines : List Line},
      first.ending ≠ [] → (∀ line ∈ lines.dropLast, line.ending ≠ []) →
      ∀ line ∈ (first :: lines).dropLast, line.ending ≠ [] := by
    intro first lines here others
    cases lines with
    | nil => simp
    | cons next lines => exact List.forall_mem_cons.mpr ⟨here, others⟩
  fun_induction ofText t with
  | case1 => simp
  | case2 t ih => exact whole (by simp) ih
  | case3 t ih => exact whole (by simp) ih
  | case4 => simp
  | case5 c t _ _ line lines found ih =>
      rw [found] at ih
      cases lines with
      | nil => simp
      | cons next lines =>
          rcases List.forall_mem_cons.mp ih with ⟨here, others⟩
          have longer : (⟨c :: line.content, line.ending⟩ : Line).ending ≠ [] := here
          exact whole longer others

section Cut

variable {line : Line}
  (isCut : line.ending = [] ∨ line.ending = ['\n'] ∨ line.ending = ['\r', '\n'])
include isCut

theorem blank_ending : Blank line.ending := by
  rcases isCut with same | same | same <;> rw [same] <;> decide

theorem blank_text (isBlank : line.isBlankLine = true) : Blank line.text :=
  have content : Blank line.content := List.all_eq_true.mp isBlank
  content.append (blank_ending isCut)

end Cut

end Line

namespace HeaderStatement

theorem IsWording.trim_eq {isImport : Bool} {path s : Text} (wording : IsWording isImport path s) :
    Text.trim s = s := by
  rcases wording.exists_parts with ⟨c, u, rfl, word, -⟩
  have front := Text.isTrimmed_of_visible (t := [c]) (List.forall_mem_singleton.mpr
    (Character.not_isBlank_of_isNamePart (Character.isNamePart_of_isWord word)))
  have back := Text.isTrimmed_of_visible (t := [';']) (by decide)
  exact (front.append back u (by simp) (by simp)).trim_eq

end HeaderStatement

namespace Header

/-- Whether the text is no statement that says the line. -/
def saysOther (line s : Text) : Bool :=
  ofLine? s != some line

theorem saysOther_of_isWording {isImport : Bool} {path s : Text}
    (wording : IsWording isImport path s) (line : Text) :
    saysOther line s = (canonicalText isImport path != line) := by
  have trimmed := wording
  rw [← wording.trim_eq] at trimmed
  rw [saysOther, HeaderStatement.ofLine?_of_isWording trimmed]
  rfl

/-! ## Losing statements -/

/-- The second text can be listed if the first one can, and has its statements apart from
some that say the line. -/
def Loses (line t t' : Text) : Prop :=
  ∀ statements, Listing [] (header t) statements → ∃ left, Listing [] (header t') left ∧
    left.filter (saysOther line) = statements.filter (saysOther line)

section Losing

variable {line t t' t'' : Text}

theorem Loses.of_header_eq (same : header t = header t') : Loses line t t' :=
  fun statements listing => ⟨statements, same ▸ listing, rfl⟩

theorem Loses.trans (first : Loses line t t') (second : Loses line t' t'') : Loses line t t'' := by
  intro statements listing
  rcases first statements listing with ⟨left, listed, same⟩
  rcases second left listed with ⟨left', listed', same'⟩
  exact ⟨left', listed', same'.trans same⟩

/-- A statement that says the line goes with the blanks around it. -/
theorem loses_cut {isImport : Bool} {path x gap s gap' : Text} (wording : IsWording isImport path s)
    (same : canonicalText isImport path = line) (blank : Blank gap) (blank' : Blank gap')
    (edge : x.getLast?.any isWord = false) (r : Text) :
    Loses line (x ++ (gap ++ (s ++ (gap' ++ r)))) (x ++ r) := by
  by_cases brace : '\x7b' ∈ x
  · exact .of_header_eq
      (by rw [HeaderStatement.header_append_of_mem brace,
        HeaderStatement.header_append_of_mem brace])
  · intro statements listing
    have noBrace : ∀ {gap : Text}, Blank gap → '\x7b' ∉ gap := fun blank member =>
      absurd (blank _ member) (by decide)
    rw [HeaderStatement.header_append brace, HeaderStatement.header_append (noBrace blank),
      HeaderStatement.header_append wording.noBrace,
      HeaderStatement.header_append (noBrace blank')] at listing
    have front := (HeaderStatement.behindEdge_reverse_iff x).mpr edge
    rw [← List.append_nil x.reverse] at front
    rcases listing.exists_cut wording blank front with ⟨first, back, rfl, listed, later⟩
    refine ⟨first ++ back, ?_, ?_⟩
    · rw [HeaderStatement.header_append brace]
      exact listed.append front (later.of_gap blank' HeaderStatement.behindEdge_nil)
    · simp [saysOther_of_isWording wording, same]

end Losing

/-! ## Lines -/

/-- A wanted line goes, and so may blank lines behind it. -/
theorem exists_dropLines_wanted {wanted : Text} {line : Line}
    (same : Text.trim line.content = wanted) (keptBlank : Bool) (lines : List Line) :
    ∃ gone rest, lines = gone ++ rest ∧ (∀ other ∈ gone, other.isBlankLine = true) ∧
      dropLines wanted keptBlank false (line :: lines) = dropLines wanted keptBlank false rest := by
  cases lines with
  | nil => exact ⟨[], [], rfl, by simp, by simp [dropLines, same]⟩
  | cons next lines =>
      cases both : keptBlank && next.isBlankLine with
      | false => exact ⟨[], next :: lines, rfl, by simp, by simp [dropLines, same, both]⟩
      | true =>
          have blank := (Bool.and_eq_true_iff.mp both).2
          exact ⟨[next], lines, rfl, by simpa using blank, by
            rw [dropLines, if_neg (by simp), if_neg (not_not.mpr same), List.head?_cons,
              Option.any_some, both, dropLines, if_pos (by simpa using blank)]⟩

theorem not_word_last_of_endsLine {t : Text} (ends : EndsLine t) :
    t.getLast?.any isWord = false := by
  rcases ends with rfl | last
  · rfl
  · rw [last]
    decide

/-- A line that is the import goes with the blank lines behind it. -/
theorem loses_line {form : ImportForm} (dotted : isDottedPath form.path = true) {here : Line}
    (wanted : Text.trim here.content = form.line) {gone : List Line}
    (isBlank : ∀ other ∈ gone, other.isBlankLine = true)
    (cut : ∀ other ∈ here :: gone, other.ending = [] ∨ other.ending = ['\n'] ∨
      other.ending = ['\r', '\n'])
    {front : Text} (edge : EndsLine front) (rest : List Line) :
    Loses form.line (front ++ Line.texts (here :: (gone ++ rest))) (front ++ Line.texts rest) := by
  rcases List.forall_mem_cons.mp cut with ⟨isCut, cutGone⟩
  rcases Text.exists_surround here.content with ⟨gap, gap', blank, blank', -, content⟩
  have blankGone : Blank (Line.texts gone) := by
    intro c member
    rcases List.mem_flatMap.mp member with ⟨other, isOne, inside⟩
    exact Line.blank_text (cutGone other isOne) (isBlank other isOne) c inside
  have whole : front ++ Line.texts (here :: (gone ++ rest)) = front ++ (gap ++ (form.line ++
      ((gap' ++ (here.ending ++ Line.texts gone)) ++ Line.texts rest))) := by
    rw [Line.texts_cons, Line.texts_append, Line.text, content, wanted]
    simp
  rw [whole]
  exact loses_cut (ImportForm.isWording_line dotted)
    (ImportForm.canonicalText_declared dotted) blank
    (blank'.append ((Line.blank_ending isCut).append blankGone)) (not_word_last_of_endsLine edge)
      (Line.texts rest)

section Import

variable {line : Text} (isImport : IsImportLine line)
include isImport

theorem loses_dropLines {lines : List Line} (ends : ∀ other ∈ lines.dropLast, other.ending ≠ [])
    (cut : ∀ other ∈ lines, other.ending = [] ∨ other.ending = ['\n'] ∨ other.ending = ['\r', '\n'])
    {front : Text} (edge : EndsLine front) (keptBlank : Bool) :
    Loses line (front ++ Line.texts lines)
      (front ++ Line.texts (dropLines line keptBlank false lines)) := by
  rcases isImport with ⟨form, dotted, rfl⟩
  induction size : lines.length using Nat.strongRecOn generalizing lines front keptBlank with
  | ind n ih =>
      cases lines with
      | nil => exact .of_header_eq rfl
      | cons here lines =>
          by_cases wanted : Text.trim here.content = form.line
          · rcases exists_dropLines_wanted wanted keptBlank lines with
              ⟨gone, rest, rfl, isBlank, drops⟩
            rw [← List.cons_append, List.forall_mem_append] at cut
            have endsRest : ∀ other ∈ rest.dropLast, other.ending ≠ [] :=
              fun other member => ends other (by
              have some : rest ≠ [] := by
                rintro rfl
                cases member
              rw [← List.cons_append, List.dropLast_append_of_ne_nil some]
              exact List.mem_append_right _ member)
            have shorter : rest.length < n := by
              rw [← size, List.length_cons, List.length_append]
              omega
            rw [drops]
            exact (loses_line dotted wanted isBlank cut.1 edge rest).trans
              (ih rest.length shorter endsRest cut.2 edge keptBlank rfl)
          · have keeps : dropLines form.line keptBlank false (here :: lines) =
                here :: dropLines form.line here.isBlankLine false lines := by
              simp [dropLines, wanted]
            rw [keeps]
            cases lines with
            | nil => exact .of_header_eq rfl
            | cons next lines =>
                rcases List.forall_mem_cons.mp ends with ⟨isEnded, ends⟩
                rcases List.forall_mem_cons.mp cut with ⟨isCut, cut⟩
                have edge' : EndsLine (front ++ here.text) := by
                  refine edge.append (.inr ?_)
                  exact Text.getLast?_append_separator (isCut.resolve_left isEnded) here.content
                have rest :=
                  ih (next :: lines).length (by simp [← size]) ends cut edge' here.isBlankLine rfl
                simpa using rest

theorem loses_dropLine (source : Text) : Loses line source (dropLine source line) := by
  have trimmed : Text.trim line = line := by
    rcases isImport with ⟨form, -, rfl⟩
    exact (ImportForm.isTrimmed_line form).trim_eq
  have lost := loses_dropLines isImport (Line.ending_ne_nil_of_mem_dropLast source)
    (fun other member => (Line.isCut_of_mem_ofText source other member).2) Text.endsLine_nil false
  rw [dropLine, trimmed]
  simpa [Line.texts_ofText] using lost

end Import

/-! ## Statements that share a line -/

/-- A statement is cut out with the spaces and tabs behind it. -/
theorem exists_of_cutStatement? {wanted source rest : Text}
    (h : cutStatement? wanted source = some rest) :
    ∃ x s gap b path isImport, source = x ++ (s ++ (gap ++ b)) ∧ rest = x ++ b ∧
      IsWording isImport path s ∧
      canonicalText isImport path = wanted ∧ Blank gap ∧ x.getLast?.any isWord = false := by
  rw [cutStatement?] at h
  split at h
  · cases h
  · rename_i statement found
    have isWanted : statement.text = wanted := by simpa using List.find?_some found
    rcases HeaderStatement.exists_standing_of_mem_ofSource (List.mem_of_find?_eq_some found) with
      ⟨x, s, b, path, whole, wording, edge, canonical, start, stop, -⟩
    have blank : Blank (b.takeWhile isSpaceOrTab) := by
      intro c member
      have kept : c = ' ' ∨ c = '\t' := by simpa [isSpaceOrTab] using List.mem_takeWhile_imp member
      rcases kept with rfl | rfl <;> decide
    refine ⟨x, s, b.takeWhile isSpaceOrTab, b.dropWhile isSpaceOrTab, path, statement.isImport, ?_,
      ?_, wording, canonical.symm.trans isWanted, blank,
      (HeaderStatement.behindEdge_reverse_iff x).mp edge⟩
    · rw [List.takeWhile_append_dropWhile, whole]
    · have front : source.take statement.start = x := by rw [start, whole, List.take_left]
      have back : source.drop statement.stop = b := by
        rw [stop, whole, ← List.append_assoc, List.drop_left]
      rw [← Option.some.inj h, front, back]

theorem length_lt_of_cutStatement? (wanted source rest : Text)
    (h : cutStatement? wanted source = some rest) :
    rest.length < source.length := by
  rcases exists_of_cutStatement? h with ⟨x, s, gap, b, path, isImport, rfl, rfl, wording, -, -, -⟩
  have positive := List.length_pos_iff.mpr wording.ne_nil
  simp only [List.length_append]
  omega

theorem loses_cutStatement? {line source rest : Text} (h : cutStatement? line source = some rest) :
    Loses line source rest := by
  rcases exists_of_cutStatement? h with
    ⟨x, s, gap, b, path, isImport, rfl, rfl, wording, same, blank, edge⟩
  exact loses_cut wording same Text.blank_nil blank edge b

theorem cutStatement?_eq_none_iff {wanted source : Text} :
    cutStatement? wanted source = none ↔ ∀ statement ∈ ofSource source,
    statement.text ≠ wanted := by
  rw [cutStatement?]
  split
  · rename_i none
    simpa using none
  · rename_i statement found
    refine iff_of_false (by simp) fun absent => ?_
    exact absent statement (List.mem_of_find?_eq_some found) (by simpa using List.find?_some found)

/-! ## The import is gone and all others are left -/

theorem loses_removeImport {line : Text} (isImport : IsImportLine line) (source : Text) :
    Loses line source (removeImport source line) := by
  rw [removeImport_eq isImport]
  exact Text.peel_induction (P := fun t => Loses line source t)
    (fun t rest cut lost => lost.trans (loses_cutStatement? cut)) (loses_dropLine isImport source)

/-- Whether a statement says something else is the same for it and for how it stands in its
source. -/
theorem filter_map_wording (source line : Text) :
    ((ofSource source).map fun statement => statement.wording source).filter (saysOther line) =
      ((ofSource source).filter fun statement => statement.text != line).map
        fun statement => statement.wording source := by
  rw [List.filter_map]
  refine congrArg _ (List.filter_congr fun statement member => ?_)
  rcases HeaderStatement.exists_isWording_of_mem_ofSource member with ⟨path, wording, canonical⟩
  rw [Function.comp_apply, saysOther_of_isWording wording, canonical]

/-- Of a source with no keyword outside of its statements an import is taken out: statement
by statement, until none says it, and the statements that are left are the others, in
their order and as they stand. -/
theorem removeImport_takes_exactly {source line : Text} (stand : KeywordsStand source)
    (isImport : IsImportLine line) :
    Relation.ReflTransGen (fun t rest => cutStatement? line t = some rest) (dropLine source line)
        (removeImport source line) ∧
      cutStatement? line (removeImport source line) = none ∧
      containsImport (removeImport source line) line = false ∧
      (ofSource (removeImport source line)).map
        (fun statement => statement.wording (removeImport source line)) =
        ((ofSource source).filter fun statement => statement.text != line).map
          fun statement => statement.wording source := by
  have stops := Text.peel_stops (length_lt_of_cutStatement? line) (dropLine source line)
  rw [← removeImport_eq isImport] at stops
  have gone := cutStatement?_eq_none_iff.mp stops.2
  refine ⟨stops.1, stops.2, ?_, ?_⟩
  · rcases isImport with ⟨form, dotted, rfl⟩
    rw [containsImport, ImportForm.ofLine?_line dotted]
    exact List.any_eq_false.mpr fun statement member same =>
      gone statement member (by simpa using same)
  · rcases stand.exists_listing with ⟨statements, listing⟩
    rcases loses_removeImport isImport source statements listing with ⟨left, listed, same⟩
    rw [← listing.map_wording_ofSource, ← listed.map_wording_ofSource, filter_map_wording,
      filter_map_wording] at same
    have all : (ofSource (removeImport source line)).filter
        (fun statement => statement.text != line) =
        ofSource (removeImport source line) :=
      List.filter_eq_self.mpr fun statement member => by simpa using gone statement member
    rwa [all] at same

theorem removeImport_takes_exactly_shared_lines :
    let line := "import static b.*;".toList
    let source :=
      "package a;import static b .*;\timport b.C;\n import static b.*;\r\n\nclass T\x7b\x7d".toList
    (KeywordsStand source ∧ IsImportLine line) ∧
      Relation.ReflTransGen (fun t rest => cutStatement? line t = some rest) (dropLine source line)
          (removeImport source line) ∧
        cutStatement? line (removeImport source line) = none ∧
        containsImport (removeImport source line) line = false ∧
        (ofSource (removeImport source line)).map
          (fun statement => statement.wording (removeImport source line)) =
          ((ofSource source).filter fun statement => statement.text != line).map
            fun statement => statement.wording source := by
  intro line source
  have stand : KeywordsStand source := by decide +kernel
  have isImport : IsImportLine line := ⟨⟨true, "b".toList, true⟩, by decide, by decide⟩
  exact ⟨⟨stand, isImport⟩, removeImport_takes_exactly stand isImport⟩

/-- Both the statement that shares a line and the line go. -/
example : removeImport
    "package a;import static b .*;\timport b.C;\n import static b.*;\r\n\nclass T\x7b\x7d".toList
    "import static b.*;".toList = "package a;import b.C;\n\nclass T\x7b\x7d".toList := by
  decide +kernel

end Header
end Testwright
