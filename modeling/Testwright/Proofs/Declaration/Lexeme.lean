import Mathlib.Data.List.Basic
import Mathlib.Data.List.Induction
import Testwright.Proofs.Text.Areas

namespace Testwright

/-!
# Lexemes and their layouts

A declaration is written as a list of lexemes with blanks between them.  A
lexeme says whether it needs a blank in front of it; apart from that the layout
is free, so a list of lexemes has many spellings.  `Spelled` relates a list to
each of them, and `print` is the one with no blank that is not needed.

Tidying a spelling, and putting it on one line, gives a spelling of the same
lexemes.  That is all that the readers of declarations need to know about
normalization.
-/

/-- A piece of a declaration, and whether a blank must stand in front of it. -/
structure Lexeme where
  text : Text
  apart : Bool

namespace Lexeme

open Character (isBlank)
open Text (Blank Visible)

/-- A lexeme that may stand directly behind another. -/
def near (text : Text) : Lexeme :=
  ⟨text, false⟩

/-- A lexeme that a blank parts from the one before it. -/
def behindBlank (text : Text) : Lexeme :=
  ⟨text, true⟩

@[simp] theorem near_text (text : Text) : (near text).text = text := rfl

@[simp] theorem near_apart (text : Text) : (near text).apart = false := rfl

@[simp] theorem behindBlank_text (text : Text) : (behindBlank text).text = text := rfl

@[simp] theorem behindBlank_apart (text : Text) : (behindBlank text).apart = true := rfl

/-- The lexemes with a blank in front of the first. -/
def partFirst : List Lexeme → List Lexeme
  | [] => []
  | lexeme :: lexemes => behindBlank lexeme.text :: lexemes

/-- A lexeme that can be told from the blanks around it. -/
def IsVisible (lexeme : Lexeme) : Prop :=
  lexeme.text ≠ [] ∧ Visible lexeme.text

theorem isVisible_near {text : Text} (nonempty : text ≠ []) (visible : Visible text) :
    (near text).IsVisible :=
  ⟨nonempty, visible⟩

/-- Whether a text is the lexemes in order, with blanks between them. -/
def Spelled : List Lexeme → Text → Prop
  | [], t => t = []
  | lexeme :: lexemes, t =>
      ∃ gap rest, t = gap ++ (lexeme.text ++ rest) ∧ Blank gap ∧ (lexeme.apart = true → gap ≠ []) ∧
        Spelled lexemes rest

/-- The spelling with one space where a blank is needed, and no other. -/
def print (lexemes : List Lexeme) : Text :=
  lexemes.flatMap fun lexeme => (if lexeme.apart then [' '] else []) ++ lexeme.text

theorem spelled_print (lexemes : List Lexeme) : Spelled lexemes (print lexemes) := by
  induction lexemes with
  | nil => rfl
  | cons lexeme lexemes ih =>
      refine ⟨if lexeme.apart then [' '] else [], print lexemes, by simp [print], ?_, ?_, ih⟩
      · intro c member
        split at member
        · rw [List.mem_singleton.mp member]
          decide
        · cases member
      · intro apart
        simp [apart]

/-! ## Parts of a spelling -/

theorem spelled_append {first second : List Lexeme} {t : Text} :
    Spelled (first ++ second) t ↔ ∃ a b, t = a ++ b ∧ Spelled first a ∧ Spelled second b := by
  induction first generalizing t with
  | nil =>
      constructor
      · exact fun h => ⟨[], t, rfl, rfl, h⟩
      · rintro ⟨_, b, rfl, rfl, h⟩
        exact h
  | cons lexeme first ih =>
      constructor
      · rintro ⟨gap, rest, rfl, blank, apart, spelled⟩
        obtain ⟨a, b, rfl, inFirst, inSecond⟩ := ih.mp spelled
        exact ⟨gap ++ (lexeme.text ++ a), b, by simp,
          ⟨gap, a, rfl, blank, apart, inFirst⟩, inSecond⟩
      · rintro ⟨_, b, rfl, ⟨gap, a, rfl, blank, apart, inFirst⟩, inSecond⟩
        exact ⟨gap, a ++ b, by simp, blank, apart, ih.mpr ⟨a, b, rfl, inFirst, inSecond⟩⟩

theorem spelled_singleton {lexeme : Lexeme} {t : Text} :
    Spelled [lexeme] t ↔
      ∃ gap, t = gap ++ lexeme.text ∧ Blank gap ∧ (lexeme.apart = true → gap ≠ []) := by
  constructor
  · rintro ⟨gap, _, rfl, blank, apart, rfl⟩
    exact ⟨gap, by simp, blank, apart⟩
  · rintro ⟨gap, rfl, blank, apart⟩
    exact ⟨gap, [], by simp, blank, apart, rfl⟩

/-- The blanks in front of a spelling are no part of what it requires of the
first lexeme, if that lexeme has some already. -/
theorem Spelled.blank_append {lexemes : List Lexeme} {t : Text} (h : Spelled lexemes t)
    (nonempty : lexemes ≠ []) {gap : Text} (blank : Blank gap) : Spelled lexemes (gap ++ t) := by
  cases lexemes with
  | nil => exact absurd rfl nonempty
  | cons lexeme lexemes =>
      obtain ⟨gap', rest, rfl, blank', apart, spelled⟩ := h
      refine ⟨gap ++ gap', rest, by simp, blank.append blank', fun needed none => ?_, spelled⟩
      exact apart needed (List.append_eq_nil_iff.mp none).2

theorem Spelled.of_part_first {lexemes : List Lexeme} {t : Text}
    (h : Spelled (partFirst lexemes) t) :
    Spelled lexemes t := by
  cases lexemes with
  | nil => exact h
  | cons lexeme lexemes =>
      obtain ⟨gap, rest, rfl, blank, apart, spelled⟩ := h
      exact ⟨gap, rest, rfl, blank, fun _ => apart rfl, spelled⟩

/-- Behind the blanks in front of it, a parted spelling begins with its first
lexeme. -/
theorem Spelled.exists_behind {first : Text} {lexemes : List Lexeme} {t : Text}
    (h : Spelled (partFirst (near first :: lexemes)) t) :
    ∃ gap rest, t = gap ++ (first ++ rest) ∧ Blank gap ∧ gap ≠ [] ∧
      Spelled (near first :: lexemes) (first ++ rest) := by
  obtain ⟨gap, rest, rfl, blank, apart, spelled⟩ := h
  exact ⟨gap, rest, rfl, blank, apart rfl, [], rest, rfl, Text.blank_nil, by simp, spelled⟩

/-- A parted spelling is one of the same lexemes behind blanks. -/
theorem Spelled.exists_blank {lexemes : List Lexeme} {t : Text} (h : Spelled (partFirst lexemes) t)
    (nonempty : lexemes ≠ []) (free : ∀ l, lexemes.head? = some l → l.apart = false) :
    ∃ gap rest, t = gap ++ rest ∧ Blank gap ∧ gap ≠ [] ∧ Spelled lexemes rest := by
  cases lexemes with
  | nil => exact absurd rfl nonempty
  | cons lexeme lexemes =>
      obtain ⟨gap, rest, rfl, blank, apart, spelled⟩ := h
      exact ⟨gap, lexeme.text ++ rest, rfl, blank, apart rfl, [], rest, rfl, Text.blank_nil,
        by simp [free lexeme rfl], spelled⟩

/-- What holds of blanks and of the characters of all lexemes holds of the
characters of a spelling. -/
theorem Spelled.forall_mem {lexemes : List Lexeme} {P : Char → Prop}
    (blanks : ∀ c, isBlank c = true → P c) (inLexemes : ∀ l ∈ lexemes, ∀ c ∈ l.text, P c)
    {t : Text} (h : Spelled lexemes t) : ∀ c ∈ t, P c := by
  induction lexemes generalizing t with
  | nil =>
      cases h
      intro c member
      cases member
  | cons lexeme lexemes ih =>
      obtain ⟨gap, rest, rfl, blank, -, spelled⟩ := h
      intro c member
      rcases List.mem_append.mp member with inGap | member
      · exact blanks c (blank c inGap)
      · rcases List.mem_append.mp member with here | later
        · exact inLexemes lexeme List.mem_cons_self c here
        · exact ih (fun l inRest => inLexemes l (List.mem_cons_of_mem lexeme inRest))
            spelled c later

theorem Spelled.ne_nil {lexemes : List Lexeme} {t : Text} (h : Spelled lexemes t)
    (visible : ∀ l ∈ lexemes, l.IsVisible) (nonempty : lexemes ≠ []) : t ≠ [] := by
  cases lexemes with
  | nil => exact absurd rfl nonempty
  | cons lexeme lexemes =>
      obtain ⟨gap, rest, rfl, -, -, -⟩ := h
      intro none
      have := (List.append_eq_nil_iff.mp (List.append_eq_nil_iff.mp none).2).1
      exact (visible lexeme List.mem_cons_self).1 this

/-- A spelling ends where its last lexeme does. -/
theorem Spelled.back {lexemes : List Lexeme} {t : Text} (h : Spelled lexemes t)
    (visible : ∀ l ∈ lexemes, l.IsVisible) :
    ∀ c, t.getLast? = some c → isBlank c = false := by
  cases lexemes using List.reverseRecOn with
  | nil =>
      cases h
      intro c last
      cases last
  | append_singleton lexemes lexeme =>
      obtain ⟨a, b, rfl, -, last⟩ := spelled_append.mp h
      obtain ⟨gap, rfl, -, -⟩ := spelled_singleton.mp last
      obtain ⟨nonempty, seen⟩ := visible lexeme (by simp)
      intro c atEnd
      rw [← List.append_assoc, List.getLast?_append_of_ne_nil _ nonempty] at atEnd
      exact seen c (List.mem_of_getLast? atEnd)

/-- The blanks around a spelling may be trimmed off if none is needed in front
of it. -/
theorem Spelled.trim {lexemes : List Lexeme} {t gap : Text} (h : Spelled lexemes t)
    (visible : ∀ l ∈ lexemes, l.IsVisible)
    (free : ∀ l, lexemes.head? = some l → l.apart = false) (blank : Blank gap) :
    Spelled lexemes (Text.trim (t ++ gap)) := by
  cases lexemes with
  | nil =>
      cases h
      exact Text.trim_of_blank blank
  | cons lexeme lexemes =>
      obtain ⟨front, rest, rfl, blank', -, spelled⟩ := h
      have bare : Spelled (lexeme :: lexemes) (lexeme.text ++ rest) :=
        ⟨[], rest, rfl, Text.blank_nil, by simp [free lexeme rfl], spelled⟩
      obtain ⟨nonempty, seen⟩ := visible lexeme List.mem_cons_self
      have trimmed : Text.IsTrimmed (lexeme.text ++ rest) := by
        refine ⟨fun c head => ?_, bare.back visible⟩
        rw [List.head?_append_of_ne_nil _ nonempty] at head
        exact seen c (List.mem_of_mem_head? head)
      rw [List.append_assoc, Text.trim_surround blank' blank trimmed]
      exact bare

/-! ## Lists with commas -/

/-- Items with a comma between each two. -/
def commaLexemes : List (List Lexeme) → List Lexeme
  | [] => []
  | [item] => item
  | item :: second :: items => item ++ near [','] :: commaLexemes (second :: items)

/-- A spelling with blanks behind it, the way an item stands in front of a
comma. -/
def Covers (lexemes : List Lexeme) (piece : Text) : Prop :=
  ∃ s gap, piece = s ++ gap ∧ Spelled lexemes s ∧ Blank gap

/-- A spelled list is its items with commas between them. -/
theorem exists_pieces {items : List (List Lexeme)} (nonempty : items ≠ []) {last : Lexeme}
    {t : Text} (h : Spelled (commaLexemes items ++ [last]) t) :
    ∃ pieces, t = [','].intercalate pieces ++ last.text ∧ List.Forall₂ Covers items pieces := by
  induction items generalizing t with
  | nil => exact absurd rfl nonempty
  | cons item items ih =>
      cases items with
      | nil =>
          obtain ⟨a, b, rfl, spelled, final⟩ := spelled_append.mp h
          obtain ⟨gap, rfl, blank, -⟩ := spelled_singleton.mp final
          exact ⟨[a ++ gap], by simp,
            List.Forall₂.cons ⟨a, gap, rfl, spelled, blank⟩ List.Forall₂.nil⟩
      | cons second items =>
          rw [commaLexemes, List.append_assoc, List.cons_append] at h
          obtain ⟨a, b, rfl, spelled, gap, r, rfl, blank, -, others⟩ := spelled_append.mp h
          obtain ⟨pieces, rfl, written⟩ := ih (by simp) others
          refine ⟨(a ++ gap) :: pieces, ?_, List.Forall₂.cons ⟨a, gap, rfl, spelled, blank⟩ written⟩
          have more : pieces ≠ [] := by
            rintro rfl
            cases written
          rw [Text.intercalate_cons_of_ne_nil _ _ more]
          simp

/-! ## Spellings made tidy and put on one line -/

theorem Spelled.tidy {lexemes : List Lexeme} {t : Text} (h : Spelled lexemes t)
    (visible : ∀ l ∈ lexemes, l.IsVisible) : Spelled lexemes (Text.tidy t) := by
  induction lexemes generalizing t with
  | nil =>
      cases h
      rfl
  | cons lexeme lexemes ih =>
      obtain ⟨gap, rest, rfl, blank, apart, spelled⟩ := h
      obtain ⟨nonempty, seen⟩ := visible lexeme List.mem_cons_self
      obtain ⟨c, w, text⟩ := List.exists_cons_of_ne_nil nonempty
      have first : isBlank c = false := seen c (by simp [text])
      obtain ⟨gap', moved, blank', some⟩ := Text.tidy_blanks_append blank first (w ++ rest)
      refine ⟨gap', Text.tidy rest, ?_, blank', fun needed => some (apart needed),
        ih spelled fun l member => visible l (List.mem_cons_of_mem lexeme member)⟩
      have whole : gap ++ (lexeme.text ++ rest) = gap ++ c :: (w ++ rest) := by simp [text]
      have inner : c :: (w ++ rest) = lexeme.text ++ rest := by simp [text]
      rw [whole, moved, inner, Text.tidy_visible_append seen]

theorem onOneLine_append (s t : Text) :
    Text.onOneLine (s ++ t) = Text.onOneLine s ++ Text.onOneLine t := by
  simp [Text.onOneLine]

theorem onOneLine_cons {c : Char} (notReturn : c ≠ '\r') (t : Text) :
    Text.onOneLine (c :: t) = (if c = '\n' then ' ' else c) :: Text.onOneLine t := by
  simp [Text.onOneLine, notReturn]

theorem onOneLine_of_visible {w : Text} (visible : Visible w) : Text.onOneLine w = w := by
  induction w with
  | nil => rfl
  | cons c w ih =>
      have here := visible c List.mem_cons_self
      rw [onOneLine_cons (Text.ne_return_of_visible here), if_neg (Text.ne_newline_of_visible here),
        ih fun d member => visible d (List.mem_cons_of_mem c member)]

theorem blank_onOneLine {gap : Text} (blank : Blank gap) : Blank (Text.onOneLine gap) := by
  intro c member
  simp only [Text.onOneLine, List.mem_map, List.mem_filter] at member
  obtain ⟨d, ⟨inGap, -⟩, rfl⟩ := member
  split
  · decide
  · exact blank d inGap

/-- A text on one line has the same words. -/
theorem words_onOneLine {t : Text} (noReturn : '\r' ∉ t) :
    Text.words (Text.onOneLine t) = Text.words t := by
  have pieces : Text.splitOn isBlank (Text.onOneLine t) = Text.splitOn isBlank t := by
    induction t with
    | nil => rfl
    | cons c t ih =>
        rw [List.mem_cons, not_or] at noReturn
        have later := ih noReturn.2
        rw [onOneLine_cons (Ne.symm noReturn.1), Text.splitOn, Text.splitOn, later]
        by_cases feed : c = '\n'
        · subst feed
          rfl
        · rw [if_neg feed]
  rw [Text.words, Text.words, pieces]

theorem onOneLine_ne_nil {t : Text} (noReturn : '\r' ∉ t) (nonempty : t ≠ []) :
    Text.onOneLine t ≠ [] := by
  obtain ⟨c, rest, rfl⟩ := List.exists_cons_of_ne_nil nonempty
  rw [onOneLine_cons fun same => noReturn (by simp [same])]
  simp

theorem Spelled.onOneLine {lexemes : List Lexeme} {t : Text} (h : Spelled lexemes t)
    (visible : ∀ l ∈ lexemes, l.IsVisible) (noReturn : '\r' ∉ t) :
    Spelled lexemes (Text.onOneLine t) := by
  induction lexemes generalizing t with
  | nil =>
      cases h
      rfl
  | cons lexeme lexemes ih =>
      obtain ⟨gap, rest, rfl, blank, apart, spelled⟩ := h
      simp only [List.mem_append, not_or] at noReturn
      refine ⟨Text.onOneLine gap, Text.onOneLine rest, ?_, blank_onOneLine blank,
        fun needed => onOneLine_ne_nil noReturn.1 (apart needed),
        ih spelled (fun l member => visible l (List.mem_cons_of_mem lexeme member)) noReturn.2.2⟩
      rw [onOneLine_append, onOneLine_append,
        onOneLine_of_visible (visible lexeme List.mem_cons_self).2]

end Lexeme
end Testwright
