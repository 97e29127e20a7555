import Testwright.Proofs.Matcher.Yielded
import Testwright.Proofs.Text.Trimming
import Testwright.Source.Area

namespace Testwright
namespace Text

/-!
# Areas of a text, piece by piece

Pieces end with their terminators, so the areas of a text are those of its parts
wherever a part ends with a terminator (`areas_append`).  A part with one
terminator, at its end, is one piece, and whether that piece is an area is a
matter of its parentheses and of that terminator alone.
-/

open Character (isBlank)
open Matcher (Stops isParenthesis)

/-- No terminator in the text. -/
abbrev Unterminated (t : Text) : Prop :=
  ∀ c ∈ t, isTerminator c = false

theorem segments_append (a : Text) {c : Char} (terminator : isTerminator c = true) (b : Text) :
    segments (a ++ c :: b) = segments (a ++ [c]) ++ segments b := by
  induction a with
  | nil => simp [segments, terminator]
  | cons d a ih =>
      by_cases cuts : isTerminator d = true
      · simp [segments, cuts, ih]
      · have some : segments (a ++ [c]) ≠ [] := by
          clear ih
          induction a with
          | nil => simp [segments, terminator]
          | cons e a ih =>
              simp only [List.cons_append, segments]
              split
              · simp
              · split
                · next none => exact absurd none ih
                · simp
        obtain ⟨piece, pieces, cut⟩ := List.exists_cons_of_ne_nil some
        simp [segments, cuts, ih, cut]

/-- A text with one terminator, at its end, is one piece. -/
theorem segments_of_unterminated {a : Text} (unterminated : Unterminated a) {c : Char}
    (terminator : isTerminator c = true) : segments (a ++ [c]) = [a ++ [c]] := by
  induction a with
  | nil => simp [segments, terminator]
  | cons d a ih =>
      have here := unterminated d List.mem_cons_self
      have rest := ih fun e member => unterminated e (List.mem_cons_of_mem d member)
      simp [segments, here, rest]

theorem segments_eq_nil {t : Text} (unterminated : Unterminated t) : segments t = [] := by
  induction t with
  | nil => rfl
  | cons c t ih =>
      have here := unterminated c List.mem_cons_self
      have rest := ih fun d member => unterminated d (List.mem_cons_of_mem c member)
      simp [segments, here, rest]

/-- One piece: a text with one terminator, at its end. -/
def IsPiece (t : Text) : Prop :=
  ∃ s c, t = s ++ [c] ∧ Unterminated s ∧ isTerminator c = true

/-- Every text is a row of pieces with a rest behind them. -/
theorem exists_pieces (t : Text) :
    ∃ (pieces : List Text) (rest : Text), t = pieces.flatten ++ rest ∧
      (∀ piece ∈ pieces, IsPiece piece) ∧
      Unterminated rest := by
  induction t with
  | nil => exact ⟨[], [], rfl, List.forall_mem_nil _, List.forall_mem_nil _⟩
  | cons c t ih =>
      obtain ⟨pieces, rest, rfl, arePieces, unterminated⟩ := ih
      cases terminator : isTerminator c with
      | true =>
          have alone : IsPiece [c] := ⟨[], c, rfl, List.forall_mem_nil _, terminator⟩
          exact ⟨[c] :: pieces, rest, rfl, List.forall_mem_cons.mpr ⟨alone, arePieces⟩,
            unterminated⟩
      | false =>
          cases pieces with
          | nil =>
              exact ⟨[], c :: rest, rfl, List.forall_mem_nil _,
                List.forall_mem_cons.mpr ⟨terminator, unterminated⟩⟩
          | cons piece pieces =>
              -- the character goes to the piece it stands in front of
              obtain ⟨⟨s, d, rfl, inside, last⟩, others⟩ := List.forall_mem_cons.mp arePieces
              have longer : IsPiece (c :: (s ++ [d])) :=
                ⟨c :: s, d, rfl, List.forall_mem_cons.mpr ⟨terminator, inside⟩, last⟩
              exact ⟨(c :: (s ++ [d])) :: pieces, rest, rfl,
                List.forall_mem_cons.mpr ⟨longer, others⟩, unterminated⟩

/-- Cutting a row of pieces gives the pieces back. -/
theorem segments_pieces {pieces : List Text} (arePieces : ∀ piece ∈ pieces, IsPiece piece)
    {rest : Text} (unterminated : Unterminated rest) :
    segments (pieces.flatten ++ rest) = pieces := by
  induction pieces with
  | nil => exact segments_eq_nil unterminated
  | cons piece pieces ih =>
      obtain ⟨⟨s, c, rfl, inside, last⟩, others⟩ := List.forall_mem_cons.mp arePieces
      have cut := segments_append s last (pieces.flatten ++ rest)
      rw [segments_of_unterminated inside last, ih others] at cut
      simpa using cut

/-- The pieces of a text make it up, but for what stands behind the last
terminator. -/
theorem segments_spec (t : Text) :
    ∃ rest, t = (segments t).flatten ++ rest ∧ (∀ piece ∈ segments t, IsPiece piece) ∧
      Unterminated rest := by
  obtain ⟨pieces, rest, rfl, arePieces, unterminated⟩ := exists_pieces t
  rw [segments_pieces arePieces unterminated]
  exact ⟨rest, rfl, arePieces, unterminated⟩

/-- A piece stands in its text as it is. -/
theorem exists_of_mem_segments {t piece : Text} (isPiece : piece ∈ segments t) :
    ∃ front back, t = front ++ (piece ++ back) := by
  obtain ⟨rest, cut, -, -⟩ := segments_spec t
  obtain ⟨front, back, shape⟩ := List.append_of_mem isPiece
  refine ⟨front.flatten, back.flatten ++ rest, cut.trans ?_⟩
  rw [shape]
  simp

/-! ## Areas -/

theorem areas_append (a : Text) {c : Char} (terminator : isTerminator c = true) (b : Text) :
    areas (a ++ c :: b) = areas (a ++ [c]) ++ areas b := by
  unfold areas
  rw [segments_append a terminator, List.map_append, List.filterMap_append]

/-- A text that is empty or ends with a terminator. -/
def Terminated (t : Text) : Prop :=
  t = [] ∨ ∃ s c, t = s ++ [c] ∧ isTerminator c = true

theorem Terminated.append {s t : Text} (first : Terminated s) (second : Terminated t) :
    Terminated (s ++ t) := by
  rcases second with rfl | ⟨t, c, rfl, terminator⟩
  · simpa using first
  · exact Or.inr ⟨s ++ t, c, by simp, terminator⟩

theorem IsPiece.terminated {t : Text} (h : IsPiece t) : Terminated t := by
  obtain ⟨s, c, rfl, -, terminator⟩ := h
  exact Or.inr ⟨s, c, rfl, terminator⟩

theorem areas_eq_nil {t : Text} (unterminated : Unterminated t) : areas t = [] := by
  rw [areas, segments_eq_nil unterminated]
  rfl

/-- A piece is one area, or none. -/
theorem areas_piece {t : Text} (h : IsPiece t) :
    areas t = if Matcher.areaShape.reads (trim t) then [onOneLine (trim t)] else [] := by
  obtain ⟨s, c, rfl, inside, last⟩ := h
  rw [areas, segments_of_unterminated inside last, List.map_singleton, List.filterMap_cons,
    List.filterMap_nil]
  cases Matcher.areaShape.reads (trim (s ++ [c])) <;> rfl

theorem areas_terminated_append {s : Text} (h : Terminated s) (t : Text) :
    areas (s ++ t) = areas s ++ areas t := by
  rcases h with rfl | ⟨s, c, rfl, terminator⟩
  · rfl
  · rw [List.append_assoc, List.singleton_append]
    exact areas_append s terminator t

theorem takes_parenthesized :
    Matcher.Takes Matcher.parenthesized fun s =>
      ∃ inner, s = '(' :: (inner ++ [')']) ∧ ∀ c ∈ inner, isParenthesis c = false := by
  apply ((Matcher.takes_char '(').bind fun _ => (Matcher.takes_run _).stretch.bind fun inner =>
    (Matcher.takes_char ')').bind fun _ => Matcher.takes_pure inner).mono
  rintro s ⟨_, _, rfl, rfl, inner, _, rfl, all, _, _, rfl, rfl, rfl⟩
  exact ⟨inner, by simp, fun c member => by simpa using all c member⟩

/-- Neither a terminator nor a parenthesis in the text. -/
abbrev Undivided (t : Text) : Prop :=
  ∀ c ∈ t, (isTerminator c || isParenthesis c) = false

/-- What an area shape reads. -/
theorem takes_areaShape :
    Matcher.Takes Matcher.areaShape fun s =>
      ∃ heading inner tail c, s = heading ++ '(' :: (inner ++ ')' :: (tail ++ [c])) ∧
        Undivided heading ∧ (c = '\x7b' ∨ c = ';') := by
  apply ((Matcher.takes_run _).bind fun _ => takes_parenthesized.bind fun _ =>
    (Matcher.takes_run _).bind fun _ => (Matcher.takes_one _).bind fun _ =>
      Matcher.takes_require _).mono
  rintro s ⟨heading, _, rfl, undivided, _, _, rfl, ⟨inner, rfl, -⟩, tail, _, rfl, -, _, _, rfl,
    ⟨c, rfl, last⟩, rfl⟩
  exact ⟨heading, inner, tail, c, by simp, fun d member => by simpa using undivided d member,
    by simpa using last⟩

theorem mem_of_mem_trim {t : Text} {c : Char} (member : c ∈ trim t) : c ∈ t := by
  obtain ⟨gap, gap', -, -, -, cut⟩ := exists_surround t
  rw [cut]
  exact List.mem_append_right gap (List.mem_append_left gap' member)

/-- An area is a part of its text on one line, with nothing in front of its parentheses
that could part it. -/
theorem exists_of_area {source area : Text} (member : area ∈ areas source) :
    ∃ front heading rest back, source = front ++ (heading ++ '(' :: (rest ++ back)) ∧
      Undivided heading ∧
      area = onOneLine (heading ++ '(' :: rest) := by
  obtain ⟨piece, inPieces, shown⟩ := List.mem_filterMap.mp member
  obtain ⟨segment, isSegment, rfl⟩ := List.mem_map.mp inPieces
  obtain ⟨front, back, rfl⟩ := exists_of_mem_segments isSegment
  obtain ⟨gap, gap', -, -, -, surround⟩ := exists_surround segment
  split at shown
  case isFalse => cases shown
  case isTrue reads =>
    rcases Option.some.inj shown with rfl
    obtain ⟨⟨⟩, read⟩ := Option.isSome_iff_exists.mp reads
    obtain ⟨s, rest, ⟨heading, inner, tail, c, rfl, undivided, -⟩, cut⟩ :=
      takes_areaShape.yields.of_read? read
    have whole : trim segment = heading ++ '(' :: (inner ++ ')' :: (tail ++ c :: rest)) := by
      simp [cut]
    refine ⟨front ++ gap, heading, inner ++ ')' :: (tail ++ c :: rest), gap' ++ back, ?_, undivided,
      by rw [whole]⟩
    rw [surround, whole]
    simp

/-- A text without an opening parenthesis has no areas. -/
theorem areas_eq_nil_of_not_mem {t : Text} (none : '(' ∉ t) : areas t = [] := by
  refine List.eq_nil_iff_forall_not_mem.mpr fun area member => ?_
  obtain ⟨front, heading, rest, back, rfl, -⟩ := exists_of_area member
  exact none (by simp)

theorem Undivided.unterminated {t : Text} (h : Undivided t) : Unterminated t :=
  fun c member => (Bool.or_eq_false_iff.mp (h c member)).1

theorem Undivided.not_isParenthesis {t : Text} (h : Undivided t) {c : Char} (member : c ∈ t) :
    isParenthesis c = false :=
  (Bool.or_eq_false_iff.mp (h c member)).2

theorem parenthesized_append {inner : Text} (undivided : Undivided inner) (behind rest : Text) :
    Matcher.parenthesized ⟨behind, '(' :: (inner ++ ')' :: rest)⟩ =
      [(⟨⟨'(' :: behind, inner ++ ')' :: rest⟩, ⟨inner.reverse ++ '(' :: behind, ')' :: rest⟩⟩,
        ⟨')' :: (inner.reverse ++ '(' :: behind), rest⟩)] := by
  have inside : Matcher.run (fun d => !isParenthesis d) ⟨'(' :: behind, inner ++ ')' :: rest⟩ =
      [((), ⟨inner.reverse ++ '(' :: behind, ')' :: rest⟩)] :=
    Matcher.run_append (fun d member => by simp [undivided.not_isParenthesis member])
      (Matcher.stops_cons.mpr (by decide)) _
  unfold Matcher.parenthesized
  rw [Matcher.bind_of_single (Matcher.char_self '(' _ _),
    Matcher.bind_of_single (Matcher.stretch_of_single inside),
    Matcher.bind_of_single (Matcher.char_self ')' _ _)]
  rfl

theorem reads_areaShape {heading inner tail : Text} {c : Char}
    (headingUndivided : Undivided heading) (innerUndivided : Undivided inner)
    (tailUndivided : Undivided tail) (last : c = '\x7b' ∨ c = ';') :
    Matcher.areaShape.reads (heading ++ '(' :: (inner ++ ')' :: (tail ++ [c]))) = true := by
  have accepted : (c == '\x7b' || c == ';') = true := by simpa using last
  have terminator : isTerminator c = true := by
    rcases last with rfl | rfl
    · decide
    · decide
  have outside : ∀ d, (isTerminator d || isParenthesis d) = false →
      (!(isTerminator d || isParenthesis d)) = true := by
    intro d undivided
    rw [undivided]
    rfl
  have shape : Matcher.areaShape
      (Place.start (heading ++ '(' :: (inner ++ ')' :: (tail ++ [c])))) ≠ [] := by
    unfold Matcher.areaShape Place.start
    rw [Matcher.bind_of_single (Matcher.run_append
        (fun d member => outside d (headingUndivided d member))
        (Matcher.stops_cons.mpr (by decide)) _),
      Matcher.bind_of_single (parenthesized_append innerUndivided _ _),
      Matcher.bind_of_single (Matcher.run_append
        (fun d member => outside d (tailUndivided d member)) (by simp [terminator]) _),
      Matcher.bind_of_single (Matcher.one_of_true accepted _ _)]
    simp
  obtain ⟨reading, rest, readings⟩ := List.exists_cons_of_ne_nil shape
  simp [Matcher.reads, Matcher.read?, readings]

/-- A text without line breaks is on one line. -/
theorem onOneLine_of_unbroken {t : Text} (unbroken : ∀ c ∈ t, c ≠ '\n' ∧ c ≠ '\r') :
    onOneLine t = t := by
  have kept : t.filter (fun c => !(c == '\r')) = t :=
    List.filter_eq_self.mpr fun c member => by simp [(unbroken c member).2]
  rw [onOneLine, kept]
  exact (List.map_congr_left fun c member => if_neg (unbroken c member).1).trans (List.map_id t)

theorem unterminated_of_blank {gap : Text} (blank : Blank gap) : Unterminated gap := by
  intro c member
  apply Bool.eq_false_iff.mpr
  intro terminator
  have visible : isBlank c = false := by
    simp only [isTerminator, Bool.or_eq_true, beq_iff_eq] at terminator
    rcases terminator with (rfl | rfl) | rfl <;> decide
  rw [blank c member] at visible
  cases visible

/-- A declaration is an area: the text on one line, without the blanks in front
of it. -/
theorem areas_declaration {gap heading inner tail : Text} {c : Char} (blank : Blank gap)
    (front : ∀ d, (heading ++ ['(']).head? = some d → isBlank d = false)
    (headingUndivided : Undivided heading) (innerUndivided : Undivided inner)
    (tailUndivided : Undivided tail) (last : c = '\x7b' ∨ c = ';') :
    areas (gap ++ (heading ++ '(' :: (inner ++ ')' :: (tail ++ [c])))) =
      [onOneLine (heading ++ '(' :: (inner ++ ')' :: (tail ++ [c])))] := by
  have terminator : isTerminator c = true := by
    rcases last with rfl | rfl
    · decide
    · decide
  have visible : isBlank c = false := by
    rcases last with rfl | rfl
    · decide
    · decide
  have unterminated : Unterminated (gap ++ (heading ++ '(' :: (inner ++ ')' :: tail))) := by
    intro d member
    simp only [List.mem_append, List.mem_cons] at member
    rcases member with inGap | inHeading | rfl | inInner | rfl | inTail
    · exact unterminated_of_blank blank d inGap
    · exact headingUndivided.unterminated d inHeading
    · decide
    · exact innerUndivided.unterminated d inInner
    · decide
    · exact tailUndivided.unterminated d inTail
  have trimmed : IsTrimmed (heading ++ '(' :: (inner ++ ')' :: (tail ++ [c]))) := by
    constructor
    · intro d head
      apply front d
      cases heading with
      | nil => exact head
      | cons e heading => exact head
    · intro d final
      have whole : heading ++ '(' :: (inner ++ ')' :: (tail ++ [c])) =
          (heading ++ '(' :: (inner ++ ')' :: tail)) ++ [c] := by simp
      rw [whole, List.getLast?_concat] at final
      rwa [← Option.some.inj final]
  have piece : segments (gap ++ (heading ++ '(' :: (inner ++ ')' :: (tail ++ [c])))) =
      [gap ++ (heading ++ '(' :: (inner ++ ')' :: (tail ++ [c])))] := by
    simpa using segments_of_unterminated unterminated terminator
  have trimPiece : trim (gap ++ (heading ++ '(' :: (inner ++ ')' :: (tail ++ [c])))) =
      heading ++ '(' :: (inner ++ ')' :: (tail ++ [c])) := by
    simpa using trim_surround blank blank_nil trimmed
  unfold areas
  rw [piece, List.map_singleton, trimPiece, List.filterMap_cons, List.filterMap_nil,
    reads_areaShape headingUndivided innerUndivided tailUndivided last]
  rfl

end Text
end Testwright
