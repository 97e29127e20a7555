import Testwright.Testing.Lacking
import Testwright.Proofs.Header.Wording
import Testwright.Proofs.Matcher.Repetition
import Testwright.Proofs.Matcher.Searching
import Testwright.Proofs.Text.Standing

namespace Testwright
namespace TestPlan

/-!
# The tests that a text declares

A text declares a test where the word `void`, blanks, the name of the test with or
without the prefix, and an opening parenthesis follow each other.  `Declares` says so
without the reader.  A declaration stays one when text is put before or behind it or
when blanks are traded for blanks, and since it holds no closing brace, semicolon or
annotation sign, a text cut at one of these declares what one of its parts does.
-/

open Character (isBlank isNamePart isWord)
open Matcher (Reads Stops)
open Text (Blank Respaced Visible blank_nil)

/-- The head of a void method of this name, with or without the prefix. -/
def IsVoidHead (legacyPrefix name s : Text) : Prop :=
  ∃ gap written gap', s = "void".toList ++ (gap ++ (written ++ (gap' ++ ['(']))) ∧ gap ≠ [] ∧
    Blank gap ∧ (written = name ∨ written = legacyPrefix ++ name) ∧ Blank gap'

/-- The head of a void method of this name stands in the text, with a word edge in
front of it. -/
def Declares (legacyPrefix name t : Text) : Prop :=
  ∃ x s y, t = x ++ (s ++ y) ∧ IsVoidHead legacyPrefix name s ∧ x.getLast?.any isWord = false

/-- The reader of a void method behind the word edge. -/
def voidHead (legacyPrefix name : Text) : Matcher Unit := do
  Matcher.word "void".toList
  Matcher.runs1 isBlank
  Matcher.maybe (Matcher.word legacyPrefix)
  Matcher.word name
  Matcher.run isBlank
  Matcher.char '('

theorem voidMethod_eq (legacyPrefix name : Text) : Matcher.voidMethod legacyPrefix name = (do
    Matcher.wordEdge
    voidHead legacyPrefix name) := rfl

variable {legacyPrefix name : Text}

theorem takes_voidHead :
    Matcher.Takes (voidHead legacyPrefix name) (IsVoidHead legacyPrefix name) := by
  have parts :=
    (Matcher.takes_word "void".toList).bind fun _ => (Matcher.takes_runs1 isBlank).bind fun _ =>
    (Matcher.takes_word legacyPrefix).maybe.bind fun _ => (Matcher.takes_word name).bind fun _ =>
      (Matcher.takes_run isBlank).bind fun _ => Matcher.takes_char '('
  apply parts.mono
  rintro s ⟨_, _, rfl, rfl, gap, _, rfl, ⟨some, blank⟩, front, _, rfl, whether, w, _, rfl, same,
    gap', _, rfl, blank', rfl⟩
  rcases same with rfl
  refine ⟨gap, front ++ w, gap', by simp, some, blank, ?_, blank'⟩
  rcases whether with rfl | rfl
  · exact Or.inr rfl
  · exact Or.inl rfl

theorem bind_ne_nil {α β : Type} {m : Matcher α} {next : α → Matcher β} {place later : Place}
    {value : α} (member : (value, later) ∈ m place) (some : next value later ≠ []) :
    (m >>= next) place ≠ [] := by
  rcases List.exists_mem_of_ne_nil _ some with ⟨⟨found, last⟩, reading⟩
  exact List.ne_nil_of_mem (Matcher.mem_bind.mpr ⟨value, later, member, reading⟩)

theorem mem_runs1 {gap : Text} (blank : Blank gap) (some : gap ≠ []) (behind t : Text) :
    ((), ⟨gap.reverse ++ behind, t⟩) ∈ Matcher.runs1 isBlank ⟨behind, gap ++ t⟩ := by
  rcases List.exists_cons_of_ne_nil some with ⟨c, gap, rfl⟩
  have rest : Blank gap := fun d member => blank d (List.mem_cons_of_mem c member)
  have here : (⟨gap.reverse ++ c :: behind, t⟩ : Place) ∈
      Matcher.along isBlank (gap.reverse ++ c :: behind) t := by
    cases t <;> simp [Matcher.along]
  refine Matcher.mem_bind.mpr ⟨(), ⟨c :: behind, gap ++ t⟩, ?_, ?_⟩
  · rw [List.cons_append, Matcher.one_of_true (blank c List.mem_cons_self)]
    exact List.mem_singleton.mpr rfl
  · simp only [Matcher.runs, List.mem_map, List.mem_reverse, Matcher.along_append rest,
      List.mem_append]
    exact ⟨_, Or.inr here, by simp⟩

theorem mem_word (w behind t : Text) :
    ((), ⟨w.reverse ++ behind, t⟩) ∈ Matcher.word w ⟨behind, w ++ t⟩ := by
  rw [Matcher.word_append]
  exact List.mem_singleton.mpr rfl

theorem mem_maybe_word {written : Text} (whether : written = name ∨ written = legacyPrefix ++ name)
    (behind t : Text) :
    ∃ later, ((), later) ∈ Matcher.maybe (Matcher.word legacyPrefix) ⟨behind, written ++ t⟩ ∧
      ((), ⟨written.reverse ++ behind, t⟩) ∈ Matcher.word name later := by
  rcases whether with rfl | rfl
  · exact ⟨_, Matcher.mem_orElse.mpr (Or.inr (Matcher.mem_pure.mpr ⟨rfl, rfl⟩)),
      mem_word written behind t⟩
  · refine ⟨⟨legacyPrefix.reverse ++ behind, name ++ t⟩, Matcher.mem_orElse.mpr (Or.inl ?_), ?_⟩
    · rw [List.append_assoc]
      exact mem_word legacyPrefix behind _
    · rw [List.reverse_append, List.append_assoc]
      exact mem_word name _ t

theorem voidHead_ne_nil {s : Text} (h : IsVoidHead legacyPrefix name s) (behind t : Text) :
    voidHead legacyPrefix name ⟨behind, s ++ t⟩ ≠ [] := by
  rcases h with ⟨gap, written, gap', rfl, some, blank, whether, blank'⟩
  have whole : "void".toList ++ (gap ++ (written ++ (gap' ++ ['(']))) ++ t =
      "void".toList ++ (gap ++ (written ++ (gap' ++ '(' :: t))) := by simp
  rw [whole]
  apply bind_ne_nil (mem_word "void".toList behind _)
  apply bind_ne_nil (mem_runs1 blank some _ _)
  rcases mem_maybe_word whether _ (gap' ++ '(' :: t) with ⟨between, front, named⟩
  apply bind_ne_nil front
  apply bind_ne_nil named
  rw [Matcher.bind_of_single (Matcher.run_append blank' (Matcher.stops_cons.mpr (by decide)) _),
    Matcher.char_self]
  exact List.cons_ne_nil _ _

theorem occursIn_voidMethod_iff {t : Text} :
    (Matcher.voidMethod legacyPrefix name).occursIn t = true ↔ Declares legacyPrefix name t := by
  rw [Matcher.occursIn_iff]
  constructor
  · rintro ⟨x, y, rfl, some⟩
    rw [voidMethod_eq] at some
    rcases List.exists_mem_of_ne_nil _ some with ⟨⟨found, later⟩, member⟩
    rcases Matcher.mem_bind.mp member with ⟨_, between, edge, reading⟩
    rcases Matcher.mem_require edge with ⟨rfl, holds⟩
    rcases takes_voidHead _ _ reading with ⟨s, head, rest, -⟩
    refine ⟨x, s, later.ahead, by rw [show y = s ++ later.ahead from rest], head, ?_⟩
    rcases head with ⟨gap, written, gap', rfl, -⟩
    change y = _ at rest
    rw [rest] at holds
    exact (Place.atWordEdge_front_iff (by decide) x _).mp holds
  · rintro ⟨x, s, y, rfl, head, edge⟩
    refine ⟨x, s ++ y, rfl, ?_⟩
    have isEdge : Place.atWordEdge ⟨x.reverse, s ++ y⟩ = true := by
      rcases head with ⟨gap, written, gap', rfl, -⟩
      exact (Place.atWordEdge_front_iff (by decide) x _).mpr edge
    have edgeReads : Matcher.wordEdge ⟨x.reverse, s ++ y⟩ = [((), ⟨x.reverse, s ++ y⟩)] :=
      Matcher.require_of_true isEdge
    rw [voidMethod_eq, Matcher.bind_of_single edgeReads]
    exact voidHead_ne_nil head _ _

/-! ## Text around a declaration -/

variable {t t' : Text}

theorem IsVoidHead.exists_cons {s : Text} (h : IsVoidHead legacyPrefix name s) :
    ∃ r, s = 'v' :: r := by
  rcases h with ⟨gap, written, gap', rfl, -⟩
  exact ⟨_, rfl⟩

theorem IsVoidHead.exists_concat {s : Text} (h : IsVoidHead legacyPrefix name s) :
    ∃ r, s = r ++ ['('] := by
  rcases h with ⟨gap, written, gap', rfl, -⟩
  exact ⟨"void".toList ++ (gap ++ (written ++ gap')), by simp⟩

theorem declares_iff {t : Text} :
    Declares legacyPrefix name t ↔ Text.BeginsIn (IsVoidHead legacyPrefix name) t :=
  Iff.rfl

theorem Declares.append_right (h : Declares legacyPrefix name t) (u : Text) :
    Declares legacyPrefix name (t ++ u) :=
  Text.BeginsIn.append_right (declares_iff.mp h) u

theorem Declares.append_left (h : Declares legacyPrefix name t) {u : Text}
    (apart : u.getLast?.any isWord = false ∨ t.head?.any isWord = false) :
    Declares legacyPrefix name (u ++ t) := by
  rcases apart with last | first
  · exact Text.BeginsIn.append_left (declares_iff.mp h) last
  · rcases h with ⟨x, s, y, rfl, head, edge⟩
    refine ⟨u ++ x, s, y, by simp, head, ?_⟩
    cases x with
    | nil =>
        rcases head.exists_cons with ⟨r, rfl⟩
        have word : isWord 'v' = true := by decide
        exact absurd (word.symm.trans first) (by decide)
    | cons c x => rwa [List.getLast?_append_of_ne_nil _ (List.cons_ne_nil c x)]

theorem Declares.of_append_right {u : Text} (h : Declares legacyPrefix name (t ++ u))
    (none : '(' ∉ u) :
    Declares legacyPrefix name t := by
  rcases h with ⟨x, s, y, whole, head, edge⟩
  rcases head.exists_concat with ⟨r, rfl⟩
  have whole' : t ++ u = (x ++ r) ++ '(' :: y := by simpa using whole
  rcases List.append_eq_append_iff.mp whole' with ⟨v, -, rfl⟩ | ⟨v, rfl, tails⟩
  · exact absurd (List.mem_append_right v List.mem_cons_self) none
  · cases v with
    | nil => exact absurd (by rw [← (show '(' :: y = u from tails)]; exact List.mem_cons_self) none
    | cons c v =>
        rcases List.cons.inj tails with ⟨rfl, -⟩
        exact ⟨x, r ++ ['('], v, by simp, head, edge⟩

theorem Declares.of_blank_append {gap : Text} (h : Declares legacyPrefix name (gap ++ t))
    (blank : Blank gap) :
    Declares legacyPrefix name t := by
  refine Text.BeginsIn.of_blank_append (declares_iff.mp h) blank fun s head => ?_
  rcases head.exists_cons with ⟨r, rfl⟩
  exact ⟨'v', r, rfl, by decide⟩

/-- No declaration begins in a part without the letter `v`. -/
theorem Declares.of_append_left {u : Text} (h : Declares legacyPrefix name (u ++ t))
    (none : 'v' ∉ u) :
    Declares legacyPrefix name t := by
  rcases h with ⟨x, s, y, whole, head, edge⟩
  rcases head.exists_cons with ⟨r, rfl⟩
  rcases Text.exists_behind none whole with ⟨v, rfl, rfl⟩
  exact ⟨v, 'v' :: r, y, rfl, head, Text.not_word_last_of_append edge⟩

/-- What a declaration holds. -/
theorem Declares.mem (h : Declares legacyPrefix name t) :
    'v' ∈ t ∧ '(' ∈ t ∧ ∃ c ∈ t, isBlank c = true := by
  rcases h with ⟨x, s, y, rfl, ⟨gap, written, gap', rfl, some, blank, -, -⟩, -⟩
  rcases List.exists_mem_of_ne_nil gap some with ⟨c, inGap⟩
  exact ⟨by simp, by simp, c, by simp [inGap], blank c inGap⟩

section Names

variable (inPrefix : ∀ c ∈ legacyPrefix, isNamePart c = true)
  (inName : ∀ c ∈ name, isNamePart c = true)
include inPrefix inName

theorem isNamePart_of_mem_written {written : Text}
    (whether : written = name ∨ written = legacyPrefix ++ name) :
    ∀ c ∈ written, isNamePart c = true := by
  rcases whether with rfl | rfl
  · exact inName
  · exact List.forall_mem_append.mpr ⟨inPrefix, inName⟩

theorem IsVoidHead.forall_mem {s : Text} (h : IsVoidHead legacyPrefix name s) :
    ∀ c ∈ s, isNamePart c = true ∨ isBlank c = true ∨ c = '(' := by
  rcases h with ⟨gap, written, gap', rfl, some, blank, whether, blank'⟩
  have inWritten := isNamePart_of_mem_written inPrefix inName whether
  intro c member
  simp only [List.mem_append, List.mem_singleton] at member
  rcases member with word | inGap | inside | inGap' | rfl
  · exact Or.inl ((by decide : ∀ c ∈ "void".toList, isNamePart c = true) c word)
  · exact Or.inr (Or.inl (blank c inGap))
  · exact Or.inl (inWritten c inside)
  · exact Or.inr (Or.inl (blank' c inGap'))
  · exact Or.inr (Or.inr rfl)

/-- A text cut at a character that no head holds declares what one of the parts
declares. -/
theorem Declares.of_cut {a b : Text} {c : Char} (h : Declares legacyPrefix name (a ++ c :: b))
    (noName : isNamePart c = false) (visible : isBlank c = false) (noParenthesis : c ≠ '(') :
    Declares legacyPrefix name a ∨ Declares legacyPrefix name b := by
  refine Text.BeginsIn.of_cut (declares_iff.mp h) fun s head => ⟨?_, fun member => ?_⟩
  · rcases head.exists_cons with ⟨r, rfl⟩
    exact List.cons_ne_nil _ _
  · rcases head.forall_mem inPrefix inName c member with isName | blank | rfl
    · rw [noName] at isName
      cases isName
    · rw [visible] at blank
      cases blank
    · exact noParenthesis rfl

/-- A declaration ends with its first opening parenthesis. -/
theorem Declares.of_parenthesis {a b : Text} (h : Declares legacyPrefix name (a ++ '(' :: b)) :
    Declares legacyPrefix name (a ++ ['(']) ∨ Declares legacyPrefix name b := by
  rcases h with ⟨x, _, y, whole, ⟨gap, written, gap', rfl, some, blank, whether, blank'⟩, edge⟩
  have inWritten := isNamePart_of_mem_written inPrefix inName whether
  let front := "void".toList ++ (gap ++ (written ++ gap'))
  have absent : '(' ∉ front := by
    simp only [front, List.mem_append, not_or]
    exact ⟨by decide, fun member => absurd (blank _ member) (by decide),
      fun member => absurd (inWritten _ member) (by decide),
      fun member => absurd (blank' _ member) (by decide)⟩
  have head : IsVoidHead legacyPrefix name (front ++ ['(']) :=
    ⟨gap, written, gap', by simp [front], some, blank, whether, blank'⟩
  have cut : x ++ (front ++ '(' :: y) = a ++ '(' :: b := by
    rw [whole]
    simp [front]
  rcases Text.exists_side absent (List.cons_ne_nil _ _) cut with ⟨v, rfl, tails⟩ | ⟨v, rfl, rfl⟩
  · refine Or.inl ⟨x, front ++ ['('], ?_⟩
    cases v with
    | nil => exact ⟨[], by simp, head, edge⟩
    | cons c v =>
        rcases List.cons.inj tails with ⟨rfl, -⟩
        exact ⟨v ++ ['('], by simp, head, edge⟩
  · exact Or.inr ⟨v, front ++ ['('], y, by simp, head, Text.not_word_last_of_append_cons edge⟩

/-- Blanks may be traded for blanks. -/
theorem Declares.respaced (h : Declares legacyPrefix name t) (same : Respaced t t') :
    Declares legacyPrefix name t' := by
  refine Text.BeginsIn.respaced (declares_iff.mp h) same ?_
  rintro _ ⟨gap, written, gap', rfl, some, blank, whether, blank'⟩
  have visible : Visible written := fun c member =>
    Character.not_isBlank_of_isNamePart (isNamePart_of_mem_written inPrefix inName whether c member)
  refine ⟨'v', "oid".toList ++ (gap ++ (written ++ (gap' ++ ['(']))), rfl, by decide,
    fun y b spaced => ?_⟩
  rw [List.append_assoc] at spaced
  rcases spaced.exists_append (by decide) with ⟨_, rfl, inner⟩
  by_cases none : written = []
  · subst none
    rw [List.nil_append, ← List.append_assoc, List.append_assoc] at inner
    rcases inner.exists_blank_append (blank.append blank') (by decide) (by decide) with
      ⟨wide, r, rfl, blanks, empty, -⟩
    refine ⟨"oid".toList ++ (wide ++ ([] ++ ([] ++ ['(']))), r, by simp, wide, [], [], rfl, ?_,
      blanks, whether, blank_nil⟩
    exact fun none => some (List.append_eq_nil_iff.mp (empty.mpr none)).1
  · rw [List.append_assoc, List.append_assoc] at inner
    rcases inner.exists_blank_append blank visible none with ⟨wide, _, rfl, blanks, empty, ended⟩
    rw [List.append_assoc] at ended
    rcases ended.exists_blank_append blank' (by decide) (by decide) with
      ⟨wide', r, rfl, blanks', -, -⟩
    exact ⟨"oid".toList ++ (wide ++ (written ++ (wide' ++ ['(']))), r, by simp, wide, written,
      wide', rfl, fun none => some (empty.mpr none), blanks, whether, blanks'⟩

/-- The reader of the lacking tests finds what the text declares, tidied or not. -/
theorem declares_tidyLines_iff (test : PlannedTest) (named : test.name = name) :
    declares (Text.tidyLines t) legacyPrefix test = true ↔ Declares legacyPrefix name t := by
  rw [declares, named, occursIn_voidMethod_iff]
  exact ⟨fun h => h.respaced inPrefix inName (Text.respaced_tidyLines t).symm,
    fun h => h.respaced inPrefix inName (Text.respaced_tidyLines t)⟩

end Names

end TestPlan
end Testwright
