import Mathlib.Data.List.Chain
import Mathlib.Data.List.Induction
import Testwright.Proofs.Declaration.Name
import Testwright.Proofs.Matcher.Searching
import Testwright.Proofs.Matcher.Taken

namespace Testwright
namespace Lexeme

/-!
# Looking for a keyword in a spelling

The readers of declarations look for a keyword where a blank or the start of the
text precedes it and something ends it.  In a spelling such a place is a lexeme:
two words never stand directly behind each other, so no keyword comes about from
pieces of two lexemes.  `Seeks` says what a search of that kind needs, and a list
of lexemes without the keyword is silent for it (`silent_of_free`).

Keywords of visibility, and the word `final`, are also taken out.  What remains
is a spelling of the other lexemes, except that of two words `final` with a
single blank between them one may stay.
-/

open Character (isBlank isDottedPart isNamePart)
open Matcher (Silent Stops)
open Text (Blank Visible)

/-! ## Words and marks -/

/-- A lexeme made of the characters of dotted names. -/
def IsWord (lexeme : Lexeme) : Prop :=
  lexeme.text ≠ [] ∧ ∀ c ∈ lexeme.text, isDottedPart c = true

/-- A lexeme without a name character. -/
def IsMark (lexeme : Lexeme) : Prop :=
  lexeme.text ≠ [] ∧ ∀ c ∈ lexeme.text, isNamePart c = false ∧ isBlank c = false

/-- Two neighbours are loose if no word can come about from both. -/
def Loose (first second : Lexeme) : Prop :=
  second.apart = true ∨ IsMark first ∨ IsMark second

/-- Lexemes that can be told from each other in every spelling. -/
structure IsSound (lexemes : List Lexeme) : Prop where
  kinds : ∀ l ∈ lexemes, IsWord l ∨ IsMark l
  chain : lexemes.IsChain Loose

theorem isVisible_of_kind {l : Lexeme} (kind : IsWord l ∨ IsMark l) : l.IsVisible := by
  rcases kind with word | mark
  · exact ⟨word.1, fun c member => Character.not_isBlank_of_isDottedPart (word.2 c member)⟩
  · exact ⟨mark.1, fun c member => (mark.2 c member).2⟩

theorem IsSound.visible {lexemes : List Lexeme} (h : IsSound lexemes) :
    ∀ l ∈ lexemes, l.IsVisible :=
  fun l member => isVisible_of_kind (h.kinds l member)

theorem isSound_nil : IsSound [] :=
  ⟨by simp, List.IsChain.nil⟩

theorem isSound_singleton {l : Lexeme} (kind : IsWord l ∨ IsMark l) : IsSound [l] :=
  ⟨by simpa using kind, List.isChain_singleton l⟩

theorem IsSound.append {first second : List Lexeme} (h : IsSound first) (h' : IsSound second)
    (between : ∀ a ∈ first.getLast?, ∀ b ∈ second.head?, Loose a b) :
    IsSound (first ++ second) where
  kinds := List.forall_mem_append.mpr ⟨h.kinds, h'.kinds⟩
  chain := h.chain.append h'.chain between

theorem isSound_append_iff {first second : List Lexeme} :
    IsSound (first ++ second) ↔ IsSound first ∧ IsSound second ∧
      ∀ a ∈ first.getLast?, ∀ b ∈ second.head?, Loose a b := by
  constructor
  · intro h
    obtain ⟨kinds, kinds'⟩ := List.forall_mem_append.mp h.kinds
    obtain ⟨chain, chain', between⟩ := List.isChain_append.mp h.chain
    exact ⟨⟨kinds, chain⟩, ⟨kinds', chain'⟩, between⟩
  · rintro ⟨first, second, between⟩
    exact first.append second between

theorem IsSound.tail {l : Lexeme} {lexemes : List Lexeme} (h : IsSound (l :: lexemes)) :
    IsSound lexemes := by
  have parted : IsSound ([l] ++ lexemes) := h
  exact (isSound_append_iff.mp parted).2.1

/-- What stands behind a word that is followed by a spelling. -/
theorem IsSound.stops {l : Lexeme} {lexemes : List Lexeme} (h : IsSound (l :: lexemes))
    {rest u : Text} (spelled : Spelled lexemes rest)
    (final : ∀ last ∈ (l :: lexemes).getLast?, IsMark last ∨ Stops isNamePart u) :
    IsMark l ∨ Stops isNamePart (rest ++ u) := by
  cases lexemes with
  | nil =>
      cases spelled
      exact final l rfl
  | cons second lexemes =>
      obtain ⟨gap, rest, rfl, blank, apart, -⟩ := spelled
      have loose : Loose l second := (List.isChain_cons_cons.mp h.chain).1
      cases gap with
      | cons d gap =>
          exact Or.inr (Character.not_isNamePart_of_isBlank (blank d List.mem_cons_self))
      | nil =>
          rcases loose with needed | mark | mark
          · exact absurd rfl (apart needed)
          · exact Or.inl mark
          · obtain ⟨c, w, text⟩ := List.exists_cons_of_ne_nil mark.1
            refine Or.inr ?_
            rw [text]
            exact (mark.2 c (by simp [text])).1

/-! ## Searches for a keyword -/

/-- A text made of name characters. -/
def IsKeyword (w : Text) : Prop :=
  w ≠ [] ∧ ∀ c ∈ w, isNamePart c = true

instance (w : Text) : Decidable (IsKeyword w) :=
  inferInstanceAs (Decidable (_ ∧ _))

/-- Where the matcher reads anything, one of the words stands at the start of the
text or behind a blank, and a blank behind it. -/
def Seeks (m : Matcher Unit) (words : List Text) : Prop :=
  ∀ behind ahead, m ⟨behind, ahead⟩ ≠ [] → ∃ w ∈ words, ∃ c rest, isBlank c = true ∧
    ((behind = [] ∧ ahead = w ++ c :: rest) ∨
      ∃ b, isBlank b = true ∧ ahead = b :: (w ++ c :: rest))

/-- A keyword in front of a lexeme is the lexeme. -/
theorem eq_of_front {l : Lexeme} {w rest rest' : Text} {c : Char} (kind : IsWord l ∨ IsMark l)
    (stops : IsMark l ∨ Stops isNamePart rest) (keyword : IsKeyword w)
    (ends : isDottedPart c = false) (same : l.text ++ rest = w ++ c :: rest') : l.text = w := by
  obtain ⟨d, w', rfl⟩ := List.exists_cons_of_ne_nil keyword.1
  have part := keyword.2 d List.mem_cons_self
  have notMark : ¬ IsMark l := by
    intro mark
    obtain ⟨e, text', shape⟩ := List.exists_cons_of_ne_nil mark.1
    rw [shape] at same
    obtain ⟨rfl, -⟩ := List.cons.inj same
    rw [(mark.2 e (by simp [shape])).1] at part
    cases part
  have word := kind.resolve_right notMark
  have stopped := stops.resolve_left notMark
  rcases List.append_eq_append_iff.mp same with ⟨a, shape, here⟩ | ⟨a, shape, here⟩
  · cases a with
    | nil => rw [shape, List.append_nil]
    | cons e a =>
        rw [here] at stopped
        have inKeyword := keyword.2 e (by rw [shape]; simp)
        rw [Matcher.stops_cons.mp stopped] at inKeyword
        cases inKeyword
  · cases a with
    | nil => rw [shape, List.append_nil]
    | cons e a =>
        obtain ⟨rfl, -⟩ := List.cons.inj here
        rw [word.2 c (by rw [shape]; simp)] at ends
        cases ends

/-- No blank stands in front of a keyword that begins a text. -/
theorem eq_nil_of_keyword_front {gap t w rest : Text} (blank : Blank gap) (keyword : IsKeyword w)
    (same : gap ++ t = w ++ rest) : gap = [] := by
  have front : ∀ c, (gap ++ t).head? = some c → isBlank c = false := by
    intro c head
    rw [same, List.head?_append_of_ne_nil _ keyword.1] at head
    exact Character.not_isBlank_of_isNamePart (keyword.2 c (List.mem_of_mem_head? head))
  exact blank.eq_nil_of_front front

section

variable {m : Matcher Unit} {words : List Text} (seeks : Seeks m words)
  (keywords : ∀ w ∈ words, IsKeyword w)

include seeks keywords

/-- A reading that begins in front of a lexeme, at the start of the text or at the
last blank, finds that lexeme with a blank behind it. -/
theorem keyword_of_reads {l : Lexeme} (kind : IsWord l ∨ IsMark l) {gap rest behind x y : Text}
    (blank : Blank gap) (stops : IsMark l ∨ Stops isNamePart rest) (cut : gap ++ l.text = x ++ y)
    (nonempty : y ≠ []) (reads : m ⟨x.reverse ++ behind, y ++ rest⟩ ≠ []) :
    l.text ∈ words ∧ (∃ c r, isBlank c = true ∧ rest = c :: r) ∧
      ((behind = [] ∧ gap = []) ∨ ∃ b, gap = x ++ [b]) := by
  obtain ⟨nonemptyText, visible⟩ := isVisible_of_kind kind
  -- Whichever blanks stand in front of it, the keyword is the lexeme.
  have here : ∀ {gap' w r : Text} {c : Char}, Blank gap' → w ∈ words → isBlank c = true →
      gap' ++ (l.text ++ rest) = w ++ c :: r → gap' = [] ∧ l.text ∈ words ∧ rest = c :: r := by
    intro gap' w r c blank' isWord blankC same
    have none := eq_nil_of_keyword_front blank' (keywords w isWord) same
    subst none
    have found := eq_of_front kind stops (keywords w isWord)
      (Character.not_isDottedPart_of_isBlank blankC) same
    rw [List.nil_append, found] at same
    exact ⟨rfl, found ▸ isWord, List.append_cancel_left same⟩
  obtain ⟨w, isWord, c, r, blankC, ⟨atStart, same⟩ | ⟨b, blankB, same⟩⟩ := seeks _ _ reads
  · have first : x = [] := List.reverse_eq_nil_iff.mp (List.append_eq_nil_iff.mp atStart).1
    subst first
    rw [List.nil_append] at cut
    rw [← cut, List.append_assoc] at same
    obtain ⟨none, found, follows⟩ := here blank isWord blankC same
    exact ⟨found, ⟨c, r, blankC, follows⟩, Or.inl ⟨by simpa using atStart, none⟩⟩
  · obtain ⟨d, y, rfl⟩ := List.exists_cons_of_ne_nil nonempty
    obtain ⟨rfl, behindBlank⟩ := List.cons.inj same
    rcases List.append_eq_append_iff.mp cut with ⟨a, -, inText⟩ | ⟨a, inGap, shape⟩
    · have seen := visible d (by rw [inText]; simp)
      rw [blankB] at seen
      cases seen
    · cases a with
      | nil =>
          have seen :=
            visible d (by rw [← List.nil_append l.text, ← shape]; exact List.mem_cons_self)
          rw [blankB] at seen
          cases seen
      | cons e a =>
          obtain ⟨rfl, tail⟩ := List.cons.inj shape
          have whole : a ++ (l.text ++ rest) = w ++ c :: r := by
            rw [tail] at behindBlank
            simpa using behindBlank
          obtain ⟨none, found, follows⟩ :=
            here (fun f member => blank f (by rw [inGap]; simp [member]))
            isWord blankC whole
          subst none
          exact ⟨found, ⟨c, r, blankC, follows⟩, Or.inr ⟨d, inGap⟩⟩

/-- The blanks in front of a lexeme that is no keyword, and the lexeme, are
silent. -/
theorem silent_lexeme {l : Lexeme} (kind : IsWord l ∨ IsMark l) (other : l.text ∉ words)
    {gap rest : Text} (blank : Blank gap) (stops : IsMark l ∨ Stops isNamePart rest)
    (behind : Text) : Silent m behind (gap ++ l.text) rest := by
  intro x y cut nonempty
  apply Classical.byContradiction
  intro reads
  exact other (keyword_of_reads seeks keywords kind blank stops cut nonempty reads).1

/-- So are they if no blank stands behind the lexeme. -/
theorem silent_unparted {l : Lexeme} (kind : IsWord l ∨ IsMark l) {gap rest : Text}
    (blank : Blank gap) (stops : IsMark l ∨ Stops isNamePart rest) (close : Stops isBlank rest)
    (behind : Text) :
    Silent m behind (gap ++ l.text) rest := by
  intro x y cut nonempty
  apply Classical.byContradiction
  intro reads
  obtain ⟨-, ⟨c, r, blankC, rfl⟩, -⟩ :=
    keyword_of_reads seeks keywords kind blank stops cut nonempty reads
  rw [Matcher.stops_cons.mp close] at blankC
  cases blankC

/-- Lexemes without a keyword among them are silent for the search. -/
theorem silent_of_free {lexemes : List Lexeme} (sound : IsSound lexemes)
    (free : ∀ l ∈ lexemes, l.text ∉ words) {t u : Text} (spelled : Spelled lexemes t)
    (final : ∀ last ∈ lexemes.getLast?, IsMark last ∨ Stops isNamePart u) (behind : Text) :
    Silent m behind t u := by
  induction lexemes generalizing t behind with
  | nil =>
      cases spelled
      exact Matcher.silent_nil m behind u
  | cons l lexemes ih =>
      have spelled' := spelled
      obtain ⟨gap, rest, rfl, blank, -, others⟩ := spelled
      have stops := sound.stops others final
      have final' : ∀ last ∈ lexemes.getLast?, IsMark last ∨ Stops isNamePart u := by
        intro last member
        apply final last
        cases lexemes with
        | nil => cases member
        | cons second lexemes => rwa [List.getLast?_cons_cons]
      rw [← List.append_assoc, Matcher.silent_append]
      exact ⟨silent_lexeme seeks keywords (sound.kinds l List.mem_cons_self)
          (free l List.mem_cons_self) blank stops behind,
        ih sound.tail (fun l' member => free l' (List.mem_cons_of_mem l member)) others final' _⟩

theorem not_reads_at_end (behind : Text) : m ⟨behind, []⟩ = [] := by
  apply Classical.byContradiction
  intro reads
  obtain ⟨w, isWord, c, r, -, ⟨-, same⟩ | ⟨b, -, same⟩⟩ := seeks _ _ reads
  · have := (List.append_eq_nil_iff.mp same.symm).1
    exact (keywords w isWord).1 this
  · cases same

/-- Blanks that no keyword follows are silent. -/
theorem silent_of_blank {gap u : Text} (blank : Blank gap)
    (nothing : ∀ w ∈ words, ∀ r, u ≠ w ++ r) (behind : Text) : Silent m behind gap u := by
  have notHere : ∀ {gap' w r : Text}, Blank gap' → w ∈ words → gap' ++ u ≠ w ++ r := by
    intro gap' w r blank' isWord same
    have none := eq_nil_of_keyword_front blank' (keywords w isWord) same
    subst none
    exact nothing w isWord r same
  intro x y cut nonempty
  apply Classical.byContradiction
  intro reads
  have blankY : Blank y :=
    fun c member => blank c (by rw [cut]; exact List.mem_append_right x member)
  obtain ⟨w, isWord, c, r, -, ⟨-, same⟩ | ⟨b, -, same⟩⟩ := seeks _ _ reads
  · exact notHere blankY isWord same
  · obtain ⟨d, y, rfl⟩ := List.exists_cons_of_ne_nil nonempty
    obtain ⟨-, behindBlank⟩ := List.cons.inj same
    exact notHere (fun e member => blankY e (List.mem_cons_of_mem d member)) isWord behindBlank

/-- A search for a keyword that is no lexeme finds nothing. -/
theorem occursIn_of_free {lexemes : List Lexeme} (sound : IsSound lexemes)
    (free : ∀ l ∈ lexemes, l.text ∉ words) {t gap : Text} (spelled : Spelled lexemes t)
    (blank : Blank gap) : m.occursIn (t ++ gap) = false := by
  have stops : Stops isNamePart gap := by
    cases gap with
    | nil => rfl
    | cons d gap => exact Character.not_isNamePart_of_isBlank (blank d List.mem_cons_self)
  have inText : Silent m [] t (gap ++ []) := by
    rw [List.append_nil]
    exact silent_of_free seeks keywords sound free spelled (fun _ _ => Or.inr stops) []
  have nothing : ∀ w ∈ words, ∀ r, [] ≠ w ++ r := fun w isWord r same =>
    (keywords w isWord).1 (List.append_eq_nil_iff.mp same.symm).1
  have silent : Silent m [] (t ++ gap) [] :=
    Matcher.silent_append.mpr ⟨inText, silent_of_blank seeks keywords blank nothing _⟩
  have none := Matcher.findFrom_eq_none silent (not_reads_at_end seeks keywords _)
  unfold Matcher.occursIn Matcher.find?
  rw [none]
  rfl

end

/-! ## The word `final` -/

theorem isKeyword_final : ∀ w ∈ ["final".toList], IsKeyword w := by decide

theorem seeks_finalWord : Seeks Matcher.finalWord ["final".toList] := by
  intro behind ahead reads
  obtain ⟨reading, rest, readings⟩ := List.exists_cons_of_ne_nil reads
  have takes : Matcher.Takes Matcher.finalWord fun s =>
      ∃ b c, s = b :: ("final".toList ++ [c]) ∧ isBlank b = true ∧ isBlank c = true := by
    apply ((Matcher.takes_one _).bind fun _ => (Matcher.takes_word _).bind fun _ =>
      Matcher.takes_one _).mono
    rintro s ⟨_, _, rfl, ⟨b, rfl, blankB⟩, _, _, rfl, rfl, ⟨c, rfl, blankC⟩⟩
    exact ⟨b, c, rfl, blankB, blankC⟩
  obtain ⟨s, ⟨b, c, rfl, blankB, blankC⟩, shape, -⟩ :=
    takes ⟨behind, ahead⟩ reading (by rw [readings]; exact List.mem_cons_self)
  exact ⟨"final".toList, by simp, c, reading.2.ahead, blankC,
    Or.inr ⟨b, blankB, by simpa using shape⟩⟩

theorem reads_finalWord {b c : Char} (blankB : isBlank b = true) (blankC : isBlank c = true)
    (behind rest : Text) :
    Matcher.Reads Matcher.finalWord ⟨behind, b :: "final".toList ++ [c] ++ rest⟩ ()
      ⟨(b :: "final".toList ++ [c]).reverse ++ behind, rest⟩ := by
  have shape : b :: "final".toList ++ [c] ++ rest = b :: ("final".toList ++ (c :: rest)) := by simp
  unfold Matcher.finalWord Matcher.Reads
  rw [shape, Matcher.bind_of_single (Matcher.one_of_true blankB _ _),
    Matcher.bind_of_single (Matcher.word_append _ _ _), Matcher.one_of_true blankC]
  simp

/-- What is left of lexemes if some of those with this text are taken out. -/
inductive Erased (w : Text) : List Lexeme → List Lexeme → Prop
  | nil : Erased w [] []
  | keep (l : Lexeme) {lexemes rest : List Lexeme} (h : Erased w lexemes rest) :
      Erased w (l :: lexemes) (l :: rest)
  | drop {l : Lexeme} (same : l.text = w) {lexemes rest : List Lexeme} (h : Erased w lexemes rest) :
      Erased w (l :: lexemes) rest

/-- The lexemes with no blank needed in front of the first. -/
def freeFirst : List Lexeme → List Lexeme
  | [] => []
  | l :: lexemes => near l.text :: lexemes

theorem Spelled.freeFirst {lexemes : List Lexeme} {t : Text} (h : Spelled lexemes t) :
    Spelled (freeFirst lexemes) t := by
  cases lexemes with
  | nil => exact h
  | cons l lexemes =>
      obtain ⟨gap, rest, rfl, blank, -, spelled⟩ := h
      exact ⟨gap, rest, rfl, blank, by simp, spelled⟩

/-- Whether a blank begins the text. -/
def BlankFirst (t : Text) : Prop :=
  ∃ c rest, isBlank c = true ∧ t = c :: rest

theorem blankFirst_append {gap : Text} (blank : Blank gap) (nonempty : gap ≠ []) (t : Text) :
    BlankFirst (gap ++ t) := by
  obtain ⟨c, gap, rfl⟩ := List.exists_cons_of_ne_nil nonempty
  exact ⟨c, gap ++ t, blank c List.mem_cons_self, rfl⟩

theorem Spelled.of_freeFirst {lexemes : List Lexeme} {t : Text}
    (h : Spelled (Lexeme.freeFirst lexemes) t) (visible : ∀ l ∈ lexemes, l.IsVisible)
    (enough : BlankFirst t ∨ ∀ l, lexemes.head? = some l → l.apart = false) :
    Spelled lexemes t := by
  cases lexemes with
  | nil => exact h
  | cons l lexemes =>
      obtain ⟨gap, rest, rfl, blank, -, spelled⟩ := h
      refine ⟨gap, rest, rfl, blank, fun apart none => ?_, spelled⟩
      subst none
      rcases enough with ⟨c, r, blankC, same⟩ | free
      · obtain ⟨nonempty, seen⟩ := visible l List.mem_cons_self
        obtain ⟨d, w, text⟩ := List.exists_cons_of_ne_nil nonempty
        have first : d = c := by
          simp only [near_text, List.nil_append, text, List.cons_append] at same
          exact (List.cons.inj same).1
        rw [← first] at blankC
        rw [seen d (by simp [text])] at blankC
        cases blankC
      · rw [free l rfl] at apart
        cases apart

theorem freeFirst_of_blank_append {lexemes : List Lexeme} {c : Char} {t : Text}
    (h : Spelled lexemes (c :: t)) (visible : ∀ l ∈ lexemes, l.IsVisible)
    (blankC : isBlank c = true) :
    Spelled (freeFirst lexemes) t := by
  cases lexemes with
  | nil => cases h
  | cons l lexemes =>
      obtain ⟨gap, rest, shape, blank, -, spelled⟩ := h
      cases gap with
      | nil =>
          obtain ⟨nonempty, seen⟩ := visible l List.mem_cons_self
          obtain ⟨d, w, text⟩ := List.exists_cons_of_ne_nil nonempty
          rw [List.nil_append, text] at shape
          obtain ⟨rfl, -⟩ := List.cons.inj shape
          rw [seen c (by simp [text])] at blankC
          cases blankC
      | cons d gap =>
          obtain ⟨rfl, rfl⟩ := List.cons.inj shape
          exact ⟨gap, rest, rfl, fun e member => blank e (List.mem_cons_of_mem c member),
            by simp, spelled⟩

theorem Erased.subset {w : Text} {lexemes rest : List Lexeme} (h : Erased w lexemes rest) :
    ∀ l ∈ rest, l ∈ lexemes := by
  induction h with
  | nil => simp
  | keep l _ ih =>
      intro l' member
      rcases List.mem_cons.mp member with rfl | member
      · exact List.mem_cons_self
      · exact List.mem_cons_of_mem l (ih l' member)
  | drop _ _ ih => exact fun l' member => List.mem_cons_of_mem _ (ih l' member)

theorem Erased.eq_of_free {w : Text} {lexemes rest : List Lexeme} (h : Erased w lexemes rest)
    (free : ∀ l ∈ lexemes, l.text ≠ w) : rest = lexemes := by
  induction h with
  | nil => rfl
  | keep l _ ih => rw [ih fun l' member => free l' (List.mem_cons_of_mem l member)]
  | drop same _ _ => exact absurd same (free _ List.mem_cons_self)

theorem Erased.append_inv {w : Text} {first second rest : List Lexeme}
    (h : Erased w (first ++ second) rest) :
    ∃ rest₁ rest₂, rest = rest₁ ++ rest₂ ∧ Erased w first rest₁ ∧ Erased w second rest₂ := by
  induction first generalizing rest with
  | nil => exact ⟨[], rest, rfl, Erased.nil, h⟩
  | cons l first ih =>
      cases h with
      | keep _ h =>
          obtain ⟨rest₁, rest₂, rfl, inFirst, inSecond⟩ := ih h
          exact ⟨l :: rest₁, rest₂, rfl, Erased.keep l inFirst, inSecond⟩
      | drop same h =>
          obtain ⟨rest₁, rest₂, rfl, inFirst, inSecond⟩ := ih h
          exact ⟨rest₁, rest₂, rfl, Erased.drop same inFirst, inSecond⟩

/-- The word `final` with blanks on both sides is taken, and nothing else. -/
theorem silent_finalWord {l : Lexeme} (kind : IsWord l ∨ IsMark l) {gap r behind : Text}
    (blank : Blank gap) (stops : IsMark l ∨ Stops isNamePart r)
    (other : ¬ (l.text = "final".toList ∧ gap ≠ [] ∧ BlankFirst r)) :
    Silent Matcher.finalWord behind (gap ++ l.text) r := by
  intro x y cut nonempty
  apply Classical.byContradiction
  intro reads
  obtain ⟨isFinal, ⟨c, r', blankC, rfl⟩, place⟩ :=
    keyword_of_reads seeks_finalWord isKeyword_final kind blank stops cut nonempty reads
  refine other ⟨by simpa using isFinal, ?_, c, r', blankC, rfl⟩
  rintro rfl
  -- Without a blank in front of it the word is not even tried.
  obtain ⟨d, y, rfl⟩ := List.exists_cons_of_ne_nil nonempty
  have visible := (isVisible_of_kind kind).2 d (by rw [← List.nil_append l.text, cut]; simp)
  apply reads
  exact Matcher.bind_of_nil (Matcher.one_of_stops (Matcher.stops_cons.mpr visible) _)

theorem blankFirst_append_congr {s t t' : Text} (nonempty : s ≠ []) (h : BlankFirst (s ++ t)) :
    BlankFirst (s ++ t') := by
  obtain ⟨d, s, rfl⟩ := List.exists_cons_of_ne_nil nonempty
  obtain ⟨c, r, blankC, same⟩ := h
  obtain ⟨rfl, -⟩ := List.cons.inj same
  exact ⟨d, s ++ t', blankC, rfl⟩

/-- A spelling that no blank begins needs none in front of its first lexeme. -/
theorem Spelled.head_of_not_blankFirst {lexemes : List Lexeme} {t : Text} (h : Spelled lexemes t)
    (noBlank : ¬ BlankFirst t) : ∀ l, lexemes.head? = some l → l.apart = false := by
  intro l head
  cases lexemes with
  | nil => cases head
  | cons l' lexemes =>
      obtain ⟨gap, rest, rfl, blank, apart, -⟩ := h
      rw [← Option.some.inj head]
      apply Bool.eq_false_iff.mpr
      intro needed
      exact noBlank (blankFirst_append blank (apart needed) _)

/-- Taking the word `final` out leaves a spelling of what remains.  A blank in
front of the text stays, and a first lexeme without one stays too. -/
theorem exists_erased {lexemes : List Lexeme} (sound : IsSound lexemes) {t : Text} (behind : Text)
    (spelled : Spelled (freeFirst lexemes) t) :
    ∃ rest, Erased "final".toList lexemes rest ∧
      Spelled (freeFirst rest) (Matcher.replaceAllFrom Matcher.finalWord [' '] behind 0 t) ∧
      (BlankFirst t → BlankFirst (Matcher.replaceAllFrom Matcher.finalWord [' '] behind 0 t)) ∧
      (¬ BlankFirst t → rest.head? = lexemes.head?) ∧ (lexemes ≠ [] → rest ≠ []) := by
  induction lexemes generalizing t behind with
  | nil =>
      cases spelled
      refine ⟨[], Erased.nil, rfl, ?_, fun _ => rfl, id⟩
      rintro ⟨c, r, -, impossible⟩
      cases impossible
  | cons l lexemes ih =>
      obtain ⟨gap, r, rfl, blank, -, others⟩ := spelled
      rw [near_text]
      have kind := sound.kinds l List.mem_cons_self
      have stops : IsMark l ∨ Stops isNamePart r := by
        have free : ∀ last ∈ (l :: lexemes).getLast?, IsMark last ∨ Stops isNamePart [] :=
          fun _ _ => Or.inr rfl
        simpa using sound.stops others free
      by_cases taken : l.text = "final".toList ∧ gap ≠ [] ∧ BlankFirst r
      · obtain ⟨same, nonempty, c, r, blankC, rfl⟩ := taken
        have more : lexemes ≠ [] := by
          rintro rfl
          cases others
        obtain ⟨gap, b, rfl⟩ : ∃ gap' b, gap = gap' ++ [b] :=
          ⟨gap.dropLast, gap.getLast nonempty, (List.dropLast_concat_getLast nonempty).symm⟩
        have blankB : isBlank b = true := blank b (by simp)
        have blankGap : Blank gap := fun d member => blank d (by simp [member])
        have silent : Silent Matcher.finalWord behind gap (b :: "final".toList ++ [c] ++ r) := by
          apply silent_of_blank seeks_finalWord isKeyword_final blankGap
          intro w isWord r' same'
          have none :=
            eq_nil_of_keyword_front (Text.blank_singleton blankB) (isKeyword_final w isWord)
            (same'.symm ▸ rfl : [b] ++ ("final".toList ++ [c] ++ r) = w ++ r')
          cases none
        obtain ⟨rest, erased, inRest, -, -, some⟩ := ih sound.tail
          ((b :: "final".toList ++ [c]).reverse ++ (gap.reverse ++ behind))
          (freeFirst_of_blank_append others sound.tail.visible blankC)
        have shape : gap ++ [b] ++ (l.text ++ c :: r) =
            gap ++ (b :: "final".toList ++ [c] ++ r) := by
          simp [same]
        have blankT : BlankFirst (gap ++ (b :: "final".toList ++ [c] ++ r)) := by
          rw [← shape]
          exact blankFirst_append blank nonempty _
        have step : Matcher.replaceAllFrom Matcher.finalWord [' '] behind 0
            (gap ++ (b :: "final".toList ++ [c] ++ r)) = _ := Matcher.replaceAllFrom_append silent
        rw [Matcher.replaceAllFrom_of_reads (by simp)
          (reads_finalWord blankB blankC (gap.reverse ++ behind) r)] at step
        rw [shape, step, ← List.append_assoc]
        have blank' : Blank (gap ++ [' ']) := blankGap.append (Text.blank_singleton (by decide))
        refine ⟨rest, Erased.drop same erased, inRest.blank_append ?_ blank',
          fun _ => blankFirst_append blank' (by simp) _, fun impossible => absurd blankT impossible,
          fun _ => some more⟩
        cases rest with
        | nil => exact absurd rfl (some more)
        | cons l' rest => simp [freeFirst]
      · have silent : Silent Matcher.finalWord behind (gap ++ l.text) r :=
          silent_finalWord kind blank stops taken
        obtain ⟨rest, erased, inRest, front, head, -⟩ :=
          ih sound.tail ((gap ++ l.text).reverse ++ behind) others.freeFirst
        rw [← List.append_assoc, Matcher.replaceAllFrom_append silent]
        have nonempty : gap ++ l.text ≠ [] := by
          intro none
          exact (isVisible_of_kind kind).1 (List.append_eq_nil_iff.mp none).2
        have spelledRest := Spelled.of_freeFirst inRest
          (fun l' member => sound.tail.visible l' (erased.subset l' member)) (by
            by_cases blankR : BlankFirst r
            · exact Or.inl (front blankR)
            · refine Or.inr fun l' first => ?_
              exact others.head_of_not_blankFirst blankR l' (by rw [← head blankR]; exact first))
        refine ⟨l :: rest, Erased.keep l erased, ⟨gap, _, by simp, blank, by simp, spelledRest⟩,
          fun blankT => blankFirst_append_congr nonempty blankT, fun _ => rfl, fun _ => by simp⟩

/-! ## Keywords of visibility -/

/-- A reading that begins at the start of the text or at a blank, as what stands
behind that. -/
theorem exists_taken {later : Matcher Unit} {P : Text → Prop} (takes : Matcher.Takes later P)
    {behind ahead : Text}
    (reads : (do Matcher.orElse Matcher.textStart (Matcher.one isBlank); later : Matcher Unit)
      ⟨behind, ahead⟩ ≠ []) :
    ∃ s rest, P s ∧ ((behind = [] ∧ ahead = s ++ rest) ∨
      ∃ b, isBlank b = true ∧ ahead = b :: (s ++ rest)) := by
  obtain ⟨⟨⟨⟩, last⟩, rest, readings⟩ := List.exists_cons_of_ne_nil reads
  have member : ((), last) ∈ (do Matcher.orElse Matcher.textStart (Matcher.one isBlank); later :
      Matcher Unit) ⟨behind, ahead⟩ := by
    rw [readings]
    exact List.mem_cons_self
  obtain ⟨⟨⟩, between, first, second⟩ := Matcher.mem_bind.mp member
  obtain ⟨s, holds, shape, -⟩ := takes between _ second
  refine ⟨s, last.ahead, holds, ?_⟩
  rcases Matcher.mem_orElse.mp first with atStart | behindBlank
  · rw [Matcher.textStart_apply] at atStart
    split at atStart
    · next empty =>
        simp only [List.mem_singleton, Prod.mk.injEq, true_and] at atStart
        subst atStart
        exact Or.inl ⟨List.isEmpty_iff.mp empty, shape⟩
    · cases atStart
  · obtain ⟨b, rest', rfl, blankB, rfl⟩ := Matcher.mem_one.mp behindBlank
    exact Or.inr ⟨b, blankB, by rw [← shape]⟩

theorem seeks_of_takes {words : List Text} {later : Matcher Unit}
    (takes : Matcher.Takes later fun s => ∃ w ∈ words, ∃ c rest,
      isBlank c = true ∧ s = w ++ c :: rest) :
    Seeks (do Matcher.orElse Matcher.textStart (Matcher.one isBlank); later) words := by
  intro behind ahead reads
  obtain ⟨_, rest, ⟨w, isWord, c, r, blankC, rfl⟩, place⟩ := exists_taken takes reads
  refine ⟨w, isWord, c, r ++ rest, blankC, ?_⟩
  simpa using place

theorem seeks_visibilityWord : Seeks Matcher.visibilityWord Visibility.keywords := by
  apply seeks_of_takes
  apply ((Matcher.takes_anyOf _).bind fun _ => Matcher.takes_run1 _).mono
  rintro s ⟨w, gap, rfl, isWord, nonempty, blank⟩
  obtain ⟨c, gap, rfl⟩ := List.exists_cons_of_ne_nil nonempty
  exact ⟨w, isWord, c, gap, blank c List.mem_cons_self, rfl⟩

theorem seeks_blankDelimited (w : Text) : Seeks (Matcher.blankDelimited w) [w] := by
  apply seeks_of_takes
  apply ((Matcher.takes_word _).bind fun _ => Matcher.takes_one _).mono
  rintro s ⟨_, _, rfl, rfl, c, rfl, blankC⟩
  exact ⟨_, by simp, c, [], blankC, rfl⟩

theorem isKeyword_visibility : ∀ w ∈ Visibility.keywords, IsKeyword w := by decide

/-- No keyword of visibility begins another one. -/
theorem anyOf_keywords {w : Text} (isWord : w ∈ Visibility.keywords) (behind rest : Text) :
    Matcher.anyOf Visibility.keywords ⟨behind, w ++ rest⟩ =
      [((), ⟨w.reverse ++ behind, rest⟩)] := by
  have apart : ∀ w ∈ Visibility.keywords, ∀ w' ∈ Visibility.keywords, w' ≠ w →
      ¬ w' <+: w ∧ ¬ w <+: w' := by decide
  exact Matcher.anyOf_append isWord (by decide) (apart w isWord) behind rest

theorem stops_of_visible {l : Lexeme} (visible : l.IsVisible) (rest : Text) :
    Stops isBlank (l.text ++ rest) := by
  obtain ⟨c, w, text⟩ := List.exists_cons_of_ne_nil visible.1
  rw [text]
  exact visible.2 c (by simp [text])

theorem reads_visibilityWord {w gap r : Text} (isWord : w ∈ Visibility.keywords) (blank : Blank gap)
    (nonempty : gap ≠ []) (stops : Stops isBlank r) {b : Char} (blankB : isBlank b = true)
    (behind : Text) :
    Matcher.Reads Matcher.visibilityWord ⟨behind, b :: (w ++ gap) ++ r⟩ ()
      ⟨(b :: (w ++ gap)).reverse ++ behind, r⟩ := by
  have keyword := isKeyword_visibility w isWord
  have goesOn : ∀ behind', (Matcher.anyOf Visibility.keywords >>= fun _ => Matcher.run1 isBlank)
      ⟨behind', w ++ (gap ++ r)⟩ = [((), ⟨gap.reverse ++ (w.reverse ++ behind'), r⟩)] := by
    intro behind'
    rw [Matcher.bind_of_single (anyOf_keywords isWord _ _),
      Matcher.run1_append blank nonempty stops]
  -- At the start of the text the keyword would have to stand where the blank does.
  have notAtStart : ∀ behind', (Matcher.anyOf Visibility.keywords >>= fun _ => Matcher.run1 isBlank)
      ⟨behind', b :: (w ++ (gap ++ r))⟩ = [] := by
    intro behind'
    apply Matcher.bind_of_nil
    apply Matcher.anyOf_eq_nil
    rintro w' isWord' ⟨rest, begins⟩
    have none :=
      eq_nil_of_keyword_front (Text.blank_singleton blankB) (isKeyword_visibility w' isWord')
      (begins.symm ▸ rfl : [b] ++ (w ++ (gap ++ r)) = w' ++ rest)
    cases none
  have shape : b :: (w ++ gap) ++ r = b :: (w ++ (gap ++ r)) := by simp
  have behindBlank : (Matcher.one isBlank >>= fun _ => Matcher.anyOf Visibility.keywords >>=
      fun _ => Matcher.run1 isBlank) ⟨behind, b :: (w ++ (gap ++ r))⟩ =
        [((), ⟨gap.reverse ++ (w.reverse ++ b :: behind), r⟩)] := by
    rw [Matcher.bind_of_single (Matcher.one_of_true blankB _ _), goesOn]
  have atStart : (Matcher.textStart >>= fun _ => Matcher.anyOf Visibility.keywords >>=
      fun _ => Matcher.run1 isBlank) ⟨behind, b :: (w ++ (gap ++ r))⟩ = [] := by
    rw [Matcher.bind_apply, Matcher.textStart_apply]
    split
    · simpa using notAtStart behind
    · rfl
  have both : Matcher.visibilityWord ⟨behind, b :: (w ++ (gap ++ r))⟩ =
      (Matcher.textStart >>= fun _ => Matcher.anyOf Visibility.keywords >>=
        fun _ => Matcher.run1 isBlank) ⟨behind, b :: (w ++ (gap ++ r))⟩ ++
      (Matcher.one isBlank >>= fun _ => Matcher.anyOf Visibility.keywords >>=
        fun _ => Matcher.run1 isBlank) ⟨behind, b :: (w ++ (gap ++ r))⟩ :=
    List.flatMap_append
  unfold Matcher.Reads
  rw [shape, both, atStart, behindBlank]
  simp

theorem reads_visibilityWord_start {w gap r : Text} (isWord : w ∈ Visibility.keywords)
    (blank : Blank gap) (nonempty : gap ≠ []) (stops : Stops isBlank r) :
    Matcher.Reads Matcher.visibilityWord ⟨[], w ++ gap ++ r⟩ () ⟨(w ++ gap).reverse ++ [], r⟩ := by
  have shape : w ++ gap ++ r = w ++ (gap ++ r) := by simp
  have first : Matcher.Reads (Matcher.orElse Matcher.textStart (Matcher.one isBlank))
      ⟨[], w ++ (gap ++ r)⟩ () ⟨[], w ++ (gap ++ r)⟩ :=
    Matcher.Reads.orElse_left (Matcher.Reads.of_eq_cons rfl)
  have second : Matcher.Reads (Matcher.anyOf Visibility.keywords >>= fun _ => Matcher.run1 isBlank)
      ⟨[], w ++ (gap ++ r)⟩ () ⟨gap.reverse ++ (w.reverse ++ []), r⟩ := by
    apply Matcher.Reads.of_eq_cons
    rw [Matcher.bind_of_single (anyOf_keywords isWord _ _),
      Matcher.run1_append blank nonempty stops]
  have place : (w ++ gap).reverse ++ [] = gap.reverse ++ (w.reverse ++ []) := by simp
  rw [shape, place]
  exact first.bind second

theorem IsSound.freeFirst {lexemes : List Lexeme} (h : IsSound lexemes) :
    IsSound (freeFirst lexemes) := by
  cases lexemes with
  | nil => exact h
  | cons l lexemes =>
      refine ⟨List.forall_mem_cons.mpr ⟨h.kinds l List.mem_cons_self, h.tail.kinds⟩, ?_⟩
      cases lexemes with
      | nil => exact List.isChain_singleton _
      | cons second lexemes =>
          obtain ⟨loose, chain⟩ := List.isChain_cons_cons.mp h.chain
          exact List.isChain_cons_cons.mpr ⟨loose, chain⟩

theorem final_nil {lexemes : List Lexeme} :
    ∀ last ∈ lexemes.getLast?, IsMark last ∨ Stops isNamePart [] :=
  fun _ _ => Or.inr rfl

/-- Without a keyword of visibility a spelling stays as it is. -/
theorem replaceAll_visibilityWord_of_free {lexemes : List Lexeme} (sound : IsSound lexemes)
    (free : ∀ l ∈ lexemes, l.text ∉ Visibility.keywords) {t : Text} (spelled : Spelled lexemes t) :
    Matcher.visibilityWord.replaceAll [' '] t = t :=
  Matcher.replaceAllFrom_of_silent
    (silent_of_free seeks_visibilityWord isKeyword_visibility sound free spelled final_nil [])

/-- The one keyword of visibility is taken out of a spelling. -/
theorem replaceAll_visibilityWord {before after : List Lexeme} {v : Lexeme}
    (sound : IsSound (before ++ v :: after)) (isWord : v.text ∈ Visibility.keywords)
    (freeBefore : ∀ l ∈ before, l.text ∉ Visibility.keywords)
    (freeAfter : ∀ l ∈ after, l.text ∉ Visibility.keywords) (apart : before = [] ∨ v.apart = true)
    (apartAfter : ∃ l rest, after = l :: rest ∧ l.apart = true) {t : Text}
    (spelled : Spelled (before ++ v :: after) t) :
    Spelled (before ++ after) (Matcher.visibilityWord.replaceAll [' '] t) := by
  obtain ⟨soundBefore, soundRest, -⟩ := isSound_append_iff.mp sound
  have soundAfter := soundRest.tail
  obtain ⟨a, _, rfl, inBefore, gap, _, rfl, blank, needed, others⟩ := spelled_append.mp spelled
  obtain ⟨next, rest, rfl, nextApart⟩ := apartAfter
  obtain ⟨gap', r, rfl, blank', needed', inRest⟩ := others
  have nonempty' := needed' nextApart
  have visibleNext := soundAfter.visible next List.mem_cons_self
  have bare : Spelled (freeFirst (next :: rest)) (next.text ++ r) :=
    ⟨[], r, rfl, Text.blank_nil, by simp, inRest⟩
  have freeBare : ∀ l ∈ freeFirst (next :: rest), l.text ∉ Visibility.keywords :=
    List.forall_mem_cons.mpr ⟨freeAfter next List.mem_cons_self,
      fun l member => freeAfter l (List.mem_cons_of_mem next member)⟩
  have silentAfter : ∀ behind,
      Silent Matcher.visibilityWord behind (next.text ++ r) [] := fun behind =>
    silent_of_free seeks_visibilityWord isKeyword_visibility soundAfter.freeFirst freeBare bare
      final_nil behind
  have stops := stops_of_visible visibleNext r
  -- What remains behind the keyword has a space in front of it.
  have behindSpace : ∀ {gap'' : Text}, Blank gap'' →
      Spelled (next :: rest) (gap'' ++ ([' '] ++ (next.text ++ r))) := fun blank'' =>
    ⟨_ ++ [' '], r, by simp, blank''.append (Text.blank_singleton (by decide)), by simp, inRest⟩
  cases gap using List.reverseRecOn with
  | nil =>
      have first : before = [] := apart.resolve_right fun needs => needed needs rfl
      subst first
      cases inBefore
      have step : Matcher.visibilityWord.replaceAll [' '] (v.text ++ gap' ++ (next.text ++ r)) =
          [' '] ++ Matcher.replaceAllFrom Matcher.visibilityWord [' ']
            ((v.text ++ gap').reverse ++ []) 0 (next.text ++ r) :=
        Matcher.replaceAllFrom_of_reads (by simp [nonempty'])
          (reads_visibilityWord_start isWord blank' nonempty' stops)
      have shape : [] ++ ([] ++ (v.text ++ (gap' ++ (next.text ++ r)))) =
          v.text ++ gap' ++ (next.text ++ r) := by simp
      rw [shape, step, Matcher.replaceAllFrom_of_silent (silentAfter _)]
      exact behindSpace Text.blank_nil
  | append_singleton gap b =>
      have blankB : isBlank b = true := blank b (by simp)
      have blankGap : Blank gap := fun d member => blank d (by simp [member])
      have silentBefore : Silent Matcher.visibilityWord []
          a (gap ++ (b :: (v.text ++ gap') ++ (next.text ++ r))) := by
        refine silent_of_free seeks_visibilityWord isKeyword_visibility soundBefore
          freeBefore inBefore
          (fun _ _ => Or.inr ?_) []
        cases gap with
        | nil => exact Character.not_isNamePart_of_isBlank blankB
        | cons d gap => exact Character.not_isNamePart_of_isBlank (blankGap d List.mem_cons_self)
      have silentGap : ∀ behind, Silent Matcher.visibilityWord behind gap
          (b :: (v.text ++ gap') ++ (next.text ++ r)) := by
        intro behind
        apply silent_of_blank seeks_visibilityWord isKeyword_visibility blankGap
        intro w isWord' r' same
        have none := eq_nil_of_keyword_front (Text.blank_singleton blankB)
          (isKeyword_visibility w isWord')
          (same ▸ rfl : [b] ++ (v.text ++ gap' ++ (next.text ++ r)) = w ++ r')
        cases none
      have shape : a ++ (gap ++ [b] ++ (v.text ++ (gap' ++ (next.text ++ r)))) =
          a ++ (gap ++ (b :: (v.text ++ gap') ++ (next.text ++ r))) := by simp
      have read : Matcher.replaceAllFrom Matcher.visibilityWord [' ']
          (gap.reverse ++ (a.reverse ++ []))
          0 (b :: (v.text ++ gap') ++ (next.text ++ r)) = [' '] ++
            Matcher.replaceAllFrom Matcher.visibilityWord [' ']
              ((b :: (v.text ++ gap')).reverse ++ (gap.reverse ++ (a.reverse ++ []))) 0
              (next.text ++ r) :=
        Matcher.replaceAllFrom_of_reads (by simp)
          (reads_visibilityWord isWord blank' nonempty' stops blankB _)
      unfold Matcher.replaceAll
      rw [shape, Matcher.replaceAllFrom_append silentBefore,
        Matcher.replaceAllFrom_append (silentGap _), read,
        Matcher.replaceAllFrom_of_silent (silentAfter _)]
      exact spelled_append.mpr ⟨a, _, rfl, inBefore, behindSpace blankGap⟩

end Lexeme
end Testwright
