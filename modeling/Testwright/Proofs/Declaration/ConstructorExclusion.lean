import Testwright.Proofs.Declaration.Action
import Testwright.Proofs.Declaration.BareArea
import Testwright.Proofs.Text.Renormalization
import Testwright.Source.ClassReader

namespace Testwright

/-!
# Constructors are no methods

The constructors of a class are left out by their areas as they stand, whereas the
name of a signature is read from the area without keywords of visibility and `final`.
The words of a bare area are those of the area without some of these keywords
(`leavesOut_bareArea`).  So the name is the last word in front of the parameters in
both, unless that is such a keyword, and an area with the name of the class there
shows a constructor.
-/

open Character (isBlank isNamePart)
open Lexeme (BlankLast)
open Text (Blank Visible)

/-! ## Words without keywords -/

/-- The second list is the first one without some words of `dropped`. -/
inductive LeavesOut (dropped : List Text) : List Text → List Text → Prop where
  | nil : LeavesOut dropped [] []
  | keep (w : Text) {ws ws' : List Text} (rest : LeavesOut dropped ws ws') :
      LeavesOut dropped (w :: ws) (w :: ws')
  | drop {w : Text} {ws ws' : List Text} (isDropped : w ∈ dropped)
      (rest : LeavesOut dropped ws ws') :
      LeavesOut dropped (w :: ws) ws'

namespace LeavesOut

variable {dropped dropped' ws ws' ws'' vs vs' : List Text} {w : Text}

theorem refl (dropped ws : List Text) : LeavesOut dropped ws ws := by
  induction ws with
  | nil => exact nil
  | cons w ws ih => exact ih.keep w

theorem append (h : LeavesOut dropped ws ws') (h' : LeavesOut dropped vs vs') :
    LeavesOut dropped (ws ++ vs) (ws' ++ vs') := by
  induction h with
  | nil => exact h'
  | keep w _ ih => exact ih.keep w
  | drop isDropped _ ih => exact ih.drop isDropped

theorem mono (h : LeavesOut dropped ws ws') (sub : ∀ w ∈ dropped, w ∈ dropped') :
    LeavesOut dropped' ws ws' := by
  induction h with
  | nil => exact nil
  | keep w _ ih => exact ih.keep w
  | drop isDropped _ ih => exact ih.drop (sub _ isDropped)

theorem trans (h : LeavesOut dropped ws ws') (h' : LeavesOut dropped ws' ws'') :
    LeavesOut dropped ws ws'' := by
  induction h generalizing ws'' with
  | nil => exact h'
  | drop isDropped _ ih => exact (ih h').drop isDropped
  | keep w _ ih =>
      cases h' with
      | keep _ rest => exact (ih rest).keep w
      | drop isDropped rest => exact (ih rest).drop isDropped

theorem length_le (h : LeavesOut dropped ws ws') : ws'.length ≤ ws.length := by
  induction h with
  | nil => exact Nat.le_refl 0
  | keep w _ ih => exact Nat.succ_le_succ ih
  | drop _ _ ih => exact Nat.le_succ_of_le ih

/-- A last word that is not to be left out stays the last one. -/
theorem getLast?_eq (h : LeavesOut dropped ws ws') (last : ws.getLast? = some w)
    (kept : w ∉ dropped) :
    ws'.getLast? = some w := by
  induction h with
  | nil => cases last
  | @keep v ws ws' rest ih =>
      cases ws with
      | nil =>
          cases rest
          exact last
      | cons u ws =>
          have later := ih (by simpa using last)
          cases ws' with
          | nil => cases later
          | cons u' ws' => simpa using later
  | @drop v ws ws' isDropped rest ih =>
      cases ws with
      | nil => exact absurd isDropped (by simpa [← Option.some.inj last] using kept)
      | cons u ws => exact ih (by simpa using last)

end LeavesOut

namespace Matcher

/-- Whatever is read is a word of the list with blanks on both sides; in front of it the
text may also begin. -/
def TakesWordOf (words : List Text) (m : Matcher Unit) : Prop :=
  ∀ place, ∀ reading ∈ m place, ∃ gap w gap',
    place.ahead = gap ++ (w ++ gap') ++ reading.2.ahead ∧
    reading.2.behind = (gap ++ (w ++ gap')).reverse ++ place.behind ∧
    (Blank gap ∧ (gap = [] → place.behind = [])) ∧ w ∈ words ∧ Blank gap' ∧ gap' ≠ []

theorem takesWordOf_visibilityWord : TakesWordOf Visibility.keywords visibilityWord := by
  rintro place ⟨⟨⟩, later⟩ member
  obtain ⟨⟨⟩, between, first, second⟩ := mem_bind.mp member
  obtain ⟨_, ⟨w, gap', rfl, isKeyword, some, blank⟩, ahead, behind⟩ :=
    ((takes_anyOf Visibility.keywords).bind fun _ => takes_run1 isBlank) between _ second
  rcases mem_orElse.mp first with atStart | behindBlank
  · obtain ⟨rfl, starts⟩ := mem_require atStart
    exact ⟨[], w, gap', ahead, behind, ⟨Text.blank_nil, fun _ => List.isEmpty_iff.mp starts⟩,
      isKeyword, blank, some⟩
  · obtain ⟨b, rest, shape, blankB, rfl⟩ := mem_one.mp behindBlank
    exact ⟨[b], w, gap', by rw [shape]; simpa using ahead, by simpa using behind,
      ⟨Text.blank_singleton blankB, nofun⟩, isKeyword, blank, some⟩

theorem takesWordOf_finalWord : TakesWordOf ["final".toList] finalWord := by
  intro place reading member
  obtain ⟨_, ⟨_, _, rfl, ⟨b, rfl, blankB⟩, w, _, rfl, rfl, c, rfl, blankC⟩, ahead, behind⟩ :=
    ((takes_one isBlank).bind fun _ => (takes_word "final".toList).bind fun _ =>
      takes_one isBlank) place
      reading member
  exact ⟨[b], _, [c], ahead, behind, ⟨Text.blank_singleton blankB, nofun⟩,
    List.mem_singleton.mpr rfl, Text.blank_singleton blankC, by simp⟩

theorem TakesWordOf.of_reads {words : List Text} {m : Matcher Unit} (h : TakesWordOf words m)
    {behind ahead : Text} {value : Unit} {later : Place}
    (reads : Reads m ⟨behind, ahead⟩ value later) :
    ∃ gap w gap' rest, ahead = gap ++ (w ++ gap') ++ rest ∧
      later = ⟨(gap ++ (w ++ gap')).reverse ++ behind, rest⟩ ∧
      (Blank gap ∧ (gap = [] → behind = [])) ∧ w ∈ words ∧ Blank gap' ∧ gap' ≠ [] := by
  obtain ⟨others, readings⟩ := reads.exists_cons
  obtain ⟨gap, w, gap', cut, read, parts⟩ :=
    h _ (value, later) (by rw [readings]; exact List.mem_cons_self)
  obtain ⟨_, rest⟩ := later
  exact ⟨gap, w, gap', rest, cut, congrArg (Place.mk · rest) read, parts⟩

/-- With words replaced by spaces, a text loses some of these words and no others. -/
theorem leavesOut_replaceAllFrom {words : List Text} {m : Matcher Unit}
    (takes : TakesWordOf words m) (visible : ∀ w ∈ words, Visible w ∧ w ≠ []) (behind t : Text) :
    LeavesOut words (Text.words t) (Text.words (replaceAllFrom m [' '] behind 0 t)) := by
  induction size : t.length using Nat.strong_induction_on generalizing behind t with
  | _ n ih =>
    subst size
    cases found : findFrom m behind t with
    | none =>
        have silent : Silent m behind t [] := by
          intro x y cut _
          rw [List.append_nil]
          exact Classical.byContradiction fun reads => by
            have some := findFrom_isSome_iff.mpr ⟨x, y, cut, reads⟩
            rw [found] at some
            cases some
        rw [replaceAllFrom_of_silent silent]
        exact LeavesOut.refl words _
    | some value =>
        -- up to the first reading nothing changes, and behind it the text is shorter
        obtain ⟨x, y, later, rfl, silent, reads⟩ := exists_of_findFrom found
        obtain ⟨gap, w, gap', z, rfl, rfl, ⟨blank, edge⟩, isWord, blank', some⟩ :=
          takes.of_reads reads
        have shorter : z.length < (x ++ (gap ++ (w ++ gap') ++ z)).length := by
          have one := List.length_pos_of_ne_nil some
          simp only [List.length_append]
          omega
        have taken : gap ++ (w ++ gap') ≠ [] := by simp [some]
        rw [replaceAllFrom_append silent, replaceAllFrom_of_reads taken reads]
        have after :=
          ih z.length shorter ((gap ++ (w ++ gap')).reverse ++ (x.reverse ++ behind)) z rfl
        have space : Blank [' '] := by decide
        have atStart : gap = [] → x = [] := fun none =>
          List.reverse_eq_nil_iff.mp (List.append_eq_nil_iff.mp (edge none)).1
        obtain ⟨seen, nonempty⟩ := visible w isWord
        rw [Lexeme.words_append_word blank atStart seen nonempty blank' some,
          Text.words_append space (by simp)]
        exact (LeavesOut.refl words _).append (after.drop isWord)

end Matcher

namespace Signature

/-- The words that are taken out of an area. -/
def bareWords : List Text :=
  Visibility.keywords ++ ["final".toList]

theorem leavesOut_bareArea (area : Text) :
    LeavesOut bareWords (Text.words area) (Text.words (bareArea area)) := by
  have visible : ∀ w ∈ bareWords, Visible w ∧ w ≠ [] := by decide
  have first := Matcher.leavesOut_replaceAllFrom Matcher.takesWordOf_visibilityWord
    (fun w member => visible w (List.mem_append_left _ member)) [] area
  have second := Matcher.leavesOut_replaceAllFrom Matcher.takesWordOf_finalWord
    (fun w member => visible w (List.mem_append_right _ member)) []
    (Matcher.visibilityWord.replaceAll [' '] area)
  have space : Text.Blank [' '] := by decide
  have spaced : Text.words (bareArea area) =
      Text.words (Matcher.finalWord.replaceAll [' ']
        (Matcher.visibilityWord.replaceAll [' '] area)) :=
    Text.words_append_of_blank space _
  rw [spaced]
  exact (first.mono fun w => List.mem_append_left _).trans
    (second.mono fun w => List.mem_append_right _)

/-! ## The name of a signature -/

/-- The name is the last word of several in front of the parameters, the keywords
taken out. -/
theorem exists_words_of_ofArea? {heading rest : Text} (noCall : '(' ∉ heading)
    {signature : Signature} (found : ofArea? (heading ++ '(' :: rest) = some signature) :
    Lexeme.IsKeyword signature.name ∧
      ∃ ws, ws ≠ [] ∧ Text.words (bareArea heading) = ws ++ [signature.name] := by
  obtain ⟨parts, read, shown⟩ := Option.bind_eq_some_iff.mp found
  obtain ⟨_, more, ⟨front, rest', rfl, isFront⟩, same⟩ :=
    Matcher.yields_signatureShape.of_read? read
  obtain ⟨x, x', opened⟩ := exists_bareFrom (d := '(') (by decide) (by decide) [] [] heading rest
  have noCall' : '(' ∉ bareArea heading := by
    rw [bareArea_eq, List.mem_cons, not_or]
    exact ⟨by decide, fun member => (mem_bareFrom member).elim (by decide) noCall⟩
  have named : signature.name = parts.name.text := by
    simp only at shown
    split at shown
    · cases shown
    · rw [← Option.some.inj shown]
  obtain ⟨lead, gap, gap', cut, part, blank, some, inName, blank'⟩ := isFront.exists_resultPart
  obtain ⟨_, _, _, _, _, -, -, -, -, -, -, ⟨nonempty, -⟩, -⟩ := isFront
  have noCallFront : '(' ∉ front := by
    rw [cut]
    exact fun member => (List.mem_append.mp member).elim part.absent
      (not_mem_named blank inName blank' (by decide) (by decide))
  have same' : bareArea heading ++ '(' :: bareFrom x x' rest = front ++ '(' :: (rest' ++ more) := by
    rw [bareArea_eq, List.cons_append, ← opened, ← bareArea_eq, same]
    simp
  rw [eq_of_absent noCall' noCallFront same', cut, named]
  have visible : Visible parts.name.text :=
    fun c member => Character.not_isBlank_of_isNamePart (inName c member)
  refine ⟨⟨nonempty, inName⟩, Text.words lead, ?_, ?_⟩
  · intro none
    obtain ⟨c, member, shown⟩ := part.visible
    rcases Lexeme.blank_or_exists_last lead with
      blankLead | ⟨y, w, g, rfl, edge, seen, someWord, blankG⟩
    · rw [blankLead c member] at shown
      cases shown
    · rw [Lexeme.words_of_blankLast edge seen someWord blankG] at none
      simp at none
  · rw [Text.words_append blank some, Text.words_append_right blank',
      Text.words_of_visible visible nonempty]

/-- Of a text that ends with several words, only these words decide on the last one. -/
theorem getLast?_words_append {t : Text} (several : 2 ≤ (Text.words t).length) (s : Text) :
    (Text.words (s ++ t)).getLast? = (Text.words t).getLast? := by
  obtain ⟨x, w, gap, rfl, edge, visible, some, blank⟩ :=
    Lexeme.exists_blankLast (List.ne_nil_of_length_pos (Nat.lt_of_succ_lt several))
  rw [Lexeme.words_of_blankLast edge visible some blank] at several ⊢
  obtain ⟨x, b, rfl, isBlank⟩ :=
    edge.resolve_left (by rintro rfl; simp [Text.words, Text.splitOn] at several)
  have edge' : BlankLast (s ++ (x ++ [b])) := Or.inr ⟨s ++ x, b, by simp, isBlank⟩
  rw [← List.append_assoc, Lexeme.words_of_blankLast edge' visible some blank]
  simp

section

variable {heading rest : Text} (noCall : '(' ∉ heading) {signature : Signature}
  (found : ofArea? (heading ++ '(' :: rest) = some signature)
include noCall found

theorem two_le_length_words : 2 ≤ (Text.words heading).length := by
  obtain ⟨-, ws, some, words⟩ := exists_words_of_ofArea? noCall found
  have fewer := (leavesOut_bareArea heading).length_le
  have one := List.length_pos_of_ne_nil some
  rw [words, List.length_append, List.length_singleton] at fewer
  omega

/-- Where no keyword stands in front of the parameters, the area shows a constructor of
each class with the name of its signature. -/
theorem isConstructorArea_name (free : ∀ w ∈ (Text.words heading).getLast?, w ∉ bareWords) :
    isConstructorArea signature.name (heading ++ '(' :: rest) = true := by
  obtain ⟨keyword, ws, -, words⟩ := exists_words_of_ofArea? noCall found
  have several := two_le_length_words noCall found
  obtain ⟨x, w, gap, rfl, edge, visible, some, blank⟩ :=
    Lexeme.exists_blankLast (List.ne_nil_of_length_pos (Nat.lt_of_succ_lt several))
  have last : (Text.words (x ++ (w ++ gap))).getLast? = Option.some w := by
    rw [Lexeme.words_of_blankLast edge visible some blank, List.getLast?_concat]
  -- the same word ends the area and the bare area
  have bareLast := (leavesOut_bareArea _).getLast?_eq last (free w last)
  rw [words, List.getLast?_concat, Option.some.injEq] at bareLast
  have named : (!signature.name.isEmpty) = true := by simp [keyword.1]
  rw [isConstructorArea, named, Bool.true_and, bareLast, List.append_assoc, List.append_assoc]
  refine Lexeme.occursIn_of_blankLast edge fun behind => ?_
  rw [Matcher.bind_of_single (Matcher.word_append _ _ _),
    Matcher.bind_of_single (Matcher.run_append blank (Matcher.stops_cons.mpr (by decide)) _),
    Matcher.char_self]
  simp

end

/-- In front of no opening parenthesis of the text, blanks aside, stands a keyword of
visibility or the word `final`. -/
def CallsNoKeyword (t : Text) : Prop :=
  ∀ n < t.length, t[n]? = some '(' → ∀ w ∈ (Text.words (t.take n)).getLast?, w ∉ bareWords

instance (t : Text) : Decidable (CallsNoKeyword t) :=
  inferInstanceAs (Decidable (∀ n < t.length, _))

theorem CallsNoKeyword.of_append {s t : Text} (h : CallsNoKeyword (s ++ '(' :: t)) :
    ∀ w ∈ (Text.words s).getLast?, w ∉ bareWords := by
  have here := h s.length (by simp) (by simp)
  rwa [List.take_left] at here

theorem name_ne_of_mem_findAll {source className : Text} (noReturn : '\r' ∉ source)
    (free : CallsNoKeyword source) {signature : Signature}
    (member : signature ∈ findAll source className) : signature.name ≠ className := by
  obtain ⟨area, kept, found⟩ := List.mem_filterMap.mp member
  obtain ⟨inAreas, notConstructor⟩ := List.mem_filter.mp kept
  obtain ⟨front, heading, rest, back, rfl, undivided, rfl⟩ := Text.exists_of_area inAreas
  simp only [List.mem_append, not_or] at noReturn
  have noReturnHeading : '\r' ∉ heading := noReturn.2.1
  have noCall : '(' ∉ Text.onOneLine heading := by
    intro inLine
    simp only [Text.onOneLine, List.mem_map, List.mem_filter] at inLine
    obtain ⟨c, ⟨inHeading, -⟩, same⟩ := inLine
    split at same
    · exact absurd same (by decide)
    · exact absurd (undivided c inHeading) (by rw [same]; decide)
  rw [Lexeme.onOneLine_append, Lexeme.onOneLine_cons (by decide),
    if_neg (by decide)] at found notConstructor
  have sameWords := Lexeme.words_onOneLine noReturnHeading
  have several := two_le_length_words noCall found
  rw [sameWords] at several
  have free' : ∀ w ∈ (Text.words (Text.onOneLine heading)).getLast?, w ∉ bareWords := by
    rw [sameWords, ← getLast?_words_append several front]
    exact CallsNoKeyword.of_append (t := rest ++ back) (by simpa using free)
  rintro rfl
  rw [isConstructorArea_name noCall found free'] at notConstructor
  cases notConstructor

end Signature

theorem Method.exists_of_mem_readAll {library : PatternLibrary} {policy : ExtractionPolicy}
    {surface : ClassSurface} {source : Text} {method : Method}
    (member : method ∈ readAll library policy surface source) :
    ∃ signature ∈ Signature.findAll (Text.normalize source) surface.name,
      method.name = signature.name := by
  obtain ⟨signature, inSignatures, rfl⟩ := List.mem_map.mp member
  exact ⟨signature, inSignatures, rfl⟩

namespace ClassSurface

open Signature (CallsNoKeyword)

/-- A surface has the methods that are read for a header of the same name. -/
theorem exists_header {library : PatternLibrary} {policy : ExtractionPolicy} {source : Text}
    {surface : ClassSurface} (isRead : read library policy source = .ok surface) :
    ∃ header : ClassSurface, header.name = surface.name ∧
      surface.methods = Method.readAll library policy header (Text.normalize source) := by
  rw [read] at isRead
  split at isRead
  · cases isRead
  · dsimp only at isRead
    split at isRead
    · cases isRead
    · next name _ =>
        obtain rfl := Except.ok.inj isRead
        exact ⟨⟨name.text, (Matcher.packageName.find? (Text.normalize source)).map Stretch.text,
          importsOf (Text.normalize source), [], []⟩, rfl, by dsimp only⟩

/-- **Constructors are never reported as methods.**  Where no keyword of visibility and
no `final` stands in front of a parenthesis, no signature has the name of the class for
which signatures are looked for; so no method that is read from a source has the name of
its class. -/
theorem name_not_mem_methods :
    (∀ source className : Text, '\r' ∉ source → CallsNoKeyword source →
      ∀ signature ∈ Signature.findAll source className, signature.name ≠ className) ∧
    ∀ (library : PatternLibrary) (policy : ExtractionPolicy) (source : Text)
        (surface : ClassSurface),
      read library policy source = .ok surface →
      CallsNoKeyword (Text.normalize (Text.normalize source)) →
      ∀ method ∈ surface.methods, method.name ≠ surface.name := by
  refine ⟨fun source className noReturn free signature =>
    Signature.name_ne_of_mem_findAll noReturn free, ?_⟩
  intro library policy source surface isRead free method member
  obtain ⟨header, named, methods⟩ := exists_header isRead
  rw [methods] at member
  obtain ⟨signature, inSignatures, sameName⟩ := Method.exists_of_mem_readAll member
  rw [sameName, ← named]
  exact Signature.name_ne_of_mem_findAll (Text.normalize_laidOut _).1 free inSignatures

/-- A class with a dollar sign in its name, a constructor and a method. -/
theorem name_not_mem_methods_inner :
    let source := "class A$1 \x7b public A$1() \x7b\x7d final int a(); \x7d".toList
    ('\r' ∉ source ∧ CallsNoKeyword source ∧
      (Signature.findAll source "A$1".toList).map Signature.name = ["a".toList] ∧
      ∀ signature ∈ Signature.findAll source "A$1".toList, signature.name ≠ "A$1".toList) ∧
    CallsNoKeyword (Text.normalize (Text.normalize source)) ∧
      ∃ surface, read (.within 1000) .standard source = .ok surface ∧
        surface.name = "A$1".toList ∧ surface.constructors.length = 1 ∧ surface.methods.length = 1 ∧
        ∀ method ∈ surface.methods, method.name ≠ surface.name := by
  intro source
  have noReturn : '\r' ∉ source := by decide
  have free : CallsNoKeyword source := by decide +kernel
  have same : Text.normalize source = source := by decide +kernel
  have free' : CallsNoKeyword (Text.normalize (Text.normalize source)) := by rwa [same, same]
  have parts : (read (.within 1000) .standard source).toOption.map (fun surface =>
      (surface.name, surface.constructors.length, surface.methods.length)) =
        some ("A$1".toList, 1, 1) := by
    decide +kernel
  refine ⟨⟨noReturn, free, by decide +kernel, name_not_mem_methods.1 source _ noReturn free⟩,
    free', ?_⟩
  cases isRead : read (.within 1000) .standard source with
  | error refusal =>
      rw [isRead] at parts
      cases parts
  | ok surface =>
      rw [isRead] at parts
      obtain ⟨named, counts⟩ := Prod.mk.inj (Option.some.inj parts)
      obtain ⟨constructors, methods⟩ := Prod.mk.inj counts
      exact ⟨surface, rfl, named, constructors, methods,
        name_not_mem_methods.2 _ _ source surface isRead free'⟩

end ClassSurface
end Testwright
