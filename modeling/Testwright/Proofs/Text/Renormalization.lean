import Testwright.Proofs.Text.Continuation
import Testwright.Proofs.Text.Scanning

namespace Testwright

/-!
# Normalizing twice

A text is hollow if it has no comments and nothing but line breaks in its literals.
Blanking a text out makes it hollow, unless a double quote stands directly behind a
string literal: then the quotes that are left meet and open a text block when they are
read again.  Taking annotations away and tidying lines keep a text hollow, and a hollow
text is blanked out already (`Hollow.blankOut_eq`).

So the second pass of `normalize` has annotations to take away or nothing at all; and
an annotation can come about only where a sign that began none stands in front of
one.  `normalize_normalize_iff` says exactly this.
-/

namespace Region

/-! ## Double quotes behind string literals -/

/-- No double quote stands directly behind the closing quote of a string literal, where
the text is read from a region on. -/
def QuotesApart : Region → Nat → Text → Prop
  | _, _, [] => True
  | region, pending + 1, _ :: t => QuotesApart region pending t
  | region, 0, c :: t =>
      ¬ (region = string ∧ c = '"' ∧ t.head? = some '"') ∧
        QuotesApart (region.step c t).region (region.step c t).passed t

instance decidableQuotesApart : ∀ region pending t, Decidable (QuotesApart region pending t)
  | _, _, [] => inferInstanceAs (Decidable True)
  | region, pending + 1, _ :: t => decidableQuotesApart region pending t
  | region, 0, c :: t =>
      have := decidableQuotesApart (region.step c t).region (region.step c t).passed t
      inferInstanceAs (Decidable (¬ (region = string ∧ c = '"' ∧ t.head? = some '"') ∧
        QuotesApart (region.step c t).region (region.step c t).passed t))

/-! ## Hollow texts -/

/-- The region is a literal that ends with this quote. -/
def IsLiteral (region : Region) (quote : Char) : Prop :=
  region = string ∧ quote = '"' ∨ region = character ∧ quote = '\x27'

theorem IsLiteral.step_eq {region : Region} {quote : Char} (h : IsLiteral region quote) (c : Char)
    (ahead : Text) :
    region.step c ahead = stepInLiteral region quote c := by
  rcases h with ⟨rfl, rfl⟩ | ⟨rfl, rfl⟩ <;> rfl

theorem IsLiteral.visible {region : Region} {quote : Char} (h : IsLiteral region quote) :
    Character.isBlank quote = false := by
  rcases h with ⟨-, rfl⟩ | ⟨-, rfl⟩ <;> decide

theorem IsLiteral.quote_ne {region : Region} {quote : Char} (h : IsLiteral region quote) :
    quote ≠ '\\' ∧ isQuiet quote = false := by
  rcases h with ⟨-, rfl⟩ | ⟨-, rfl⟩ <;> decide

/-- The text, read from a region on, has no comments, and its literals hold line breaks
only. -/
inductive Hollow : Region → Text → Prop
  | nil (region : Region) : Hollow region []
  | quiet {c : Char} {t : Text} (own : isQuiet c = true) (rest : Hollow code t) :
      Hollow code (c :: t)
  | slash {t : Text} (noLine : t.head? ≠ some '/') (noBlock : t.head? ≠ some '*')
      (rest : Hollow code t) :
      Hollow code ('/' :: t)
  | string {t : Text} (single : ¬ ['"', '"'] <+: t) (rest : Hollow string t) :
      Hollow code ('"' :: t)
  | character {t : Text} (rest : Hollow character t) : Hollow code ('\x27' :: t)
  | textBlock {t : Text} (rest : Hollow textBlock t) : Hollow code (textBlockQuotes ++ t)
  | ends {region : Region} {quote c : Char} {t : Text} (literal : IsLiteral region quote)
      (final : c = quote ∨ c = '\n') (rest : Hollow code t) : Hollow region (c :: t)
  | blockEnds {t : Text} (rest : Hollow code t) : Hollow .textBlock (textBlockQuotes ++ t)
  | blockBreak {t : Text} (rest : Hollow .textBlock t) : Hollow .textBlock ('\n' :: t)

/-- A hollow text is blanked out already. -/
theorem Hollow.blankOut_eq {region : Region} {t : Text} (h : Hollow region t) :
    blankOut region 0 t = t := by
  induction h with
  | nil region => rfl
  | quiet own rest ih =>
      simp only [isQuiet, Bool.not_eq_true', Bool.or_eq_false_iff, beq_eq_false_iff_ne] at own
      simp [blankOut, step, stepInCode, own, ih]
  | slash noLine noBlock rest ih => simp [blankOut, step, stepInCode, noLine, noBlock, ih]
  | @string t single rest ih =>
      have noBlock : ['"', '"'].isPrefixOf t = false := by
        rw [← Bool.not_eq_true, List.isPrefixOf_iff_prefix]
        exact single
      simp [blankOut, step, stepInCode, noBlock, ih]
  | character rest ih => simp [blankOut, step, stepInCode, ih]
  | textBlock rest ih => simp [blankOut, step, stepInCode, textBlockQuotes, ih]
  | @ends region quote c t literal final rest ih =>
      rw [blankOut, literal.step_eq, stepInLiteral]
      rcases final with rfl | rfl
      · by_cases feed : c = '\n'
        · simp [feed, ih]
        · simp [literal.quote_ne.1, feed, ih]
      · simp [ih]
  | blockEnds rest ih => simp [blankOut, step, stepInTextBlock, textBlockQuotes, ih]
  | blockBreak rest ih => simp [blankOut, step, stepInTextBlock, onlyBreak, ih]

/-- A character that stands for itself in code stands in no literal of a hollow text. -/
theorem Hollow.of_append_cons {region : Region} {a b : Text} {c : Char}
    (h : Hollow region (a ++ c :: b)) (own : isQuiet c = true) (noBreak : c ≠ '\n') :
    Hollow code b := by
  have behind : ∀ {s t a : Text}, (∀ d ∈ s, isQuiet d = false ∨ d = '\n') → a ++ c :: b = s ++ t →
      ∃ a', a' ++ c :: b = t := by
    intro s t a other whole
    have absent : c ∉ s := by
      intro member
      rcases other c member with signs | feed
      · rw [own] at signs
        cases signs
      · exact noBreak feed
    rcases Text.exists_behind absent whole.symm with ⟨a', -, rest⟩
    exact ⟨a', rest.symm⟩
  generalize whole : a ++ c :: b = t at h
  induction h generalizing a with
  | nil region => exact absurd whole (by simp)
  | quiet own' rest ih =>
      cases a with
      | nil => exact (List.cons.inj whole).2 ▸ rest
      | cons e a => exact ih (List.cons.inj whole).2
  | @slash t noLine noBlock rest ih =>
      rcases behind (s := ['/']) (t := t) (by decide) whole with ⟨a', cut⟩
      exact ih cut
  | @string t single rest ih =>
      rcases behind (s := ['"']) (t := t) (by decide) whole with ⟨a', cut⟩
      exact ih cut
  | @character t rest ih =>
      rcases behind (s := ['\x27']) (t := t) (by decide) whole with ⟨a', cut⟩
      exact ih cut
  | @ends region quote d t literal final rest ih =>
      have other : ∀ e ∈ [d], isQuiet e = false ∨ e = '\n' :=
        List.forall_mem_singleton.mpr (final.imp_left fun same => by rw [same, literal.quote_ne.2])
      rcases behind (t := t) other whole with ⟨a', cut⟩
      exact ih cut
  | textBlock rest ih | blockEnds rest ih =>
      rcases behind (by decide) whole with ⟨a', cut⟩
      exact ih cut
  | @blockBreak t rest ih =>
      rcases behind (s := ['\n']) (t := t) (by decide) whole with ⟨a', cut⟩
      exact ih cut

theorem Hollow.eq_code {region : Region} {t : Text} {c : Char} (h : Hollow region t)
    (head : t.head? = some c) (own : isQuiet c = true) (noBreak : c ≠ '\n') : region = code := by
  cases h with
  | nil => cases head
  | quiet | slash | string | character | textBlock => rfl
  | @ends region quote d t literal final rest =>
      rcases Option.some.inj head with rfl
      rcases final with rfl | feed
      · rw [literal.quote_ne.2] at own
        cases own
      · exact absurd feed noBreak
  | blockEnds rest =>
      rcases Option.some.inj head with rfl
      exact absurd own (by decide)
  | blockBreak rest => exact absurd (Option.some.inj head).symm noBreak

/-! ## Blanking out -/

/-- A visible head of what is written in code is the head of the text. -/
theorem head?_of_head?_blankOut {t : Text} {c : Char} (noSpace : c ≠ ' ')
    (head : (blankOut code 0 t).head? = some c) : t.head? = some c := by
  cases t with
  | nil => exact head
  | cons d t =>
      rw [blankOut, step, stepInCode] at head
      split_ifs at head with line block text string character
      · exact absurd (Option.some.inj head).symm noSpace
      · exact absurd (Option.some.inj head).symm noSpace
      · rw [text.1]
        exact head
      · rw [string]
        exact head
      · rw [character]
        exact head
      · exact head

/-- The quotes of a string literal do not meet another one. -/
theorem not_prefix_blankOut_string {pending : Nat} {t : Text}
    (apart : QuotesApart string pending t) :
    ¬ ['"', '"'] <+: blankOut string pending t := by
  induction t generalizing pending with
  | nil => simp [blankOut]
  | cons c t ih =>
      cases pending with
      | succ pending => exact ih apart
      | zero =>
          rcases apart with ⟨here, apart⟩
          rw [blankOut]
          simp only [step, stepInLiteral] at apart ⊢
          split_ifs at apart ⊢ with escape feed quote
          · exact ih apart
          · simp
          · intro meets
            rcases List.cons_prefix_cons.mp meets with ⟨-, r, same⟩
            have head : (blankOut code 0 t).head? = some '"' := (congrArg List.head? same).symm
            exact here ⟨rfl, quote, head?_of_head?_blankOut (by decide) head⟩
          · exact ih apart

/-- Where what is written for a region stands: a comment leaves none of its own. -/
def shown : Region → Region
  | lineComment | blockComment => code
  | region => region

theorem IsLiteral.shown_eq {region : Region} {quote : Char} (h : IsLiteral region quote) :
    region.shown = region := by
  rcases h with ⟨rfl, -⟩ | ⟨rfl, -⟩ <;> rfl

theorem Hollow.onlyBreak_append {region : Region} {c : Char} {t : Text}
    (feed : Hollow region t → Hollow region ('\n' :: t)) (rest : Hollow region t) :
    Hollow region (onlyBreak c ++ t) := by
  unfold onlyBreak
  split
  · exact feed rest
  · exact rest

theorem hollow_newline {t : Text} (rest : Hollow code t) : Hollow code ('\n' :: t) :=
  .quiet (by decide) rest

theorem hollow_stepInCode {c : Char} {t : Text} (apart : QuotesApart code 0 (c :: t))
    (rest : Hollow (stepInCode c t).region.shown
      (blankOut (stepInCode c t).region (stepInCode c t).passed t)) :
    Hollow code ((stepInCode c t).written ++ blankOut (stepInCode c t).region
      (stepInCode c t).passed t) := by
  have inside := apart.2
  simp only [step, stepInCode] at inside rest ⊢
  split_ifs at inside rest ⊢ with line block text string character
  · exact .quiet (by decide) rest
  · exact .quiet (by decide) rest
  · exact .textBlock rest
  · exact .string (not_prefix_blankOut_string inside) rest
  · exact .character rest
  · by_cases slash : c = '/'
    · subst slash
      have noLine : (blankOut code 0 t).head? ≠ some '/' := fun head =>
        line ⟨rfl, head?_of_head?_blankOut (by decide) head⟩
      have noBlock : (blankOut code 0 t).head? ≠ some '*' := fun head =>
        block ⟨rfl, head?_of_head?_blankOut (by decide) head⟩
      exact .slash noLine noBlock rest
    · exact .quiet (by simp [isQuiet, string, character, slash]) rest

theorem hollow_stepInBlockComment {c : Char} {t : Text}
    (rest : Hollow (stepInBlockComment c t).region.shown
      (blankOut (stepInBlockComment c t).region (stepInBlockComment c t).passed t)) :
    Hollow code ((stepInBlockComment c t).written ++
      blankOut (stepInBlockComment c t).region (stepInBlockComment c t).passed t) := by
  simp only [stepInBlockComment] at rest ⊢
  split_ifs at rest ⊢
  · exact rest
  · exact Hollow.onlyBreak_append hollow_newline rest

theorem hollow_stepInLiteral {region : Region} {quote c : Char} {t : Text}
    (literal : IsLiteral region quote)
    (rest : Hollow (stepInLiteral region quote c).region.shown
      (blankOut (stepInLiteral region quote c).region (stepInLiteral region quote c).passed t)) :
    Hollow region ((stepInLiteral region quote c).written ++
      blankOut (stepInLiteral region quote c).region (stepInLiteral region quote c).passed t) := by
  simp only [stepInLiteral] at rest ⊢
  split_ifs at rest ⊢
  · simp only [literal.shown_eq] at rest
    exact rest
  · exact .ends literal (Or.inr rfl) rest
  · exact .ends literal (Or.inl rfl) rest
  · simp only [literal.shown_eq] at rest
    exact rest

theorem hollow_stepInTextBlock {c : Char} {t : Text}
    (rest : Hollow (stepInTextBlock c t).region.shown
      (blankOut (stepInTextBlock c t).region (stepInTextBlock c t).passed t)) :
    Hollow textBlock ((stepInTextBlock c t).written ++
      blankOut (stepInTextBlock c t).region (stepInTextBlock c t).passed t) := by
  simp only [stepInTextBlock] at rest ⊢
  split_ifs at rest ⊢
  · cases t with
    | nil => exact rest
    | cons d t => exact Hollow.onlyBreak_append .blockBreak rest
  · exact .blockEnds rest
  · exact Hollow.onlyBreak_append .blockBreak rest

/-- Blanking out makes a text hollow where no double quote stands behind a string
literal. -/
theorem hollow_blankOut {region : Region} {pending : Nat} {t : Text}
    (apart : QuotesApart region pending t) :
    Hollow region.shown (blankOut region pending t) := by
  induction t generalizing region pending with
  | nil => exact .nil _
  | cons c t ih =>
      cases pending with
      | succ pending => exact ih apart
      | zero =>
          have rest := ih apart.2
          rw [blankOut]
          cases region with
          | code => exact hollow_stepInCode apart rest
          | lineComment =>
              by_cases feed : c = '\n'
              · subst feed
                exact hollow_newline rest
              · simpa [step, stepInLineComment, onlyBreak, feed] using rest
          | blockComment => exact hollow_stepInBlockComment rest
          | string => exact hollow_stepInLiteral (Or.inl ⟨rfl, rfl⟩) rest
          | character => exact hollow_stepInLiteral (Or.inr ⟨rfl, rfl⟩) rest
          | textBlock => exact hollow_stepInTextBlock rest

end Region

namespace Text

open Character (isBlank isDottedPart)
open Region (Hollow QuotesApart isQuiet)

/-! ## Taking annotations away -/

theorem isQuiet_of_isDottedPart {c : Char} (dotted : isDottedPart c = true) :
    isQuiet c = true ∧ c ≠ '\n' := by
  have other : ∀ d, isDottedPart d = false → c ≠ d := by
    rintro d noPart rfl
    rw [noPart] at dotted
    cases dotted
  exact ⟨by simp [isQuiet, other '"' (by decide), other '\x27' (by decide), other '/' (by decide)],
    other '\n' (by decide)⟩

/-- An annotation begins with its sign and ends in code. -/
theorem IsMark.exists_ends {r t : Text} (mark : IsMark r t) :
    ∃ inner c, r = '@' :: (inner ++ [c]) ∧ isQuiet c = true ∧ c ≠ '\n' := by
  cases mark with
  | @bare gap w t blank some dotted stops none =>
      rcases List.eq_nil_or_concat w with rfl | ⟨w', c, rfl⟩
      · exact absurd rfl some
      · rw [List.concat_eq_append] at dotted ⊢
        exact ⟨gap ++ w', c, by simp, isQuiet_of_isDottedPart (dotted c (by simp))⟩
  | @full gap w gap' inner t blank some dotted blank' plain =>
      exact ⟨gap ++ (w ++ (gap' ++ '(' :: inner)), ')', by simp, by decide⟩

/-- What heads a text without its annotations heads the text, spaces aside. -/
theorem prefix_of_prefix_dropAnnotations {s t : Text} (noSpace : ' ' ∉ s)
    (head : s <+: dropAnnotations t) :
    s <+: t := by
  induction s generalizing t with
  | nil => exact List.nil_prefix
  | cons c s ih =>
      rw [List.mem_cons, not_or] at noSpace
      rcases isMark_or_noMark t with ⟨r, rest, rfl, mark⟩ | none
      · rw [dropAnnotations_mark mark] at head
        exact absurd (List.cons_prefix_cons.mp head).1.symm noSpace.1
      · cases t with
        | nil => exact head
        | cons d t =>
            rw [dropAnnotations_cons none] at head
            rcases List.cons_prefix_cons.mp head with ⟨rfl, behind⟩
            exact List.cons_prefix_cons.mpr ⟨rfl, ih noSpace.2 behind⟩

theorem head?_of_head?_dropAnnotations {t : Text} {c : Char} (noSpace : c ≠ ' ')
    (head : (dropAnnotations t).head? = some c) : t.head? = some c := by
  rcases List.head?_eq_some_iff.mp head with ⟨rest, same⟩
  have front : [c] <+: dropAnnotations t := ⟨rest, same.symm⟩
  rcases prefix_of_prefix_dropAnnotations (by simpa using Ne.symm noSpace) front with ⟨rest', whole⟩
  rw [← whole]
  rfl

/-- A text stays hollow without its annotations, since they begin and end in code. -/
theorem hollow_dropAnnotations {region : Region} {t : Text} (h : Hollow region t) :
    Hollow region (dropAnnotations t) := by
  induction size : t.length using Nat.strongRecOn generalizing region t with
  | ind n ih =>
      rcases isMark_or_noMark t with ⟨r, rest, rfl, mark⟩ | none
      · rcases mark.exists_ends with ⟨inner, c, rfl, own, noBreak⟩
        rcases h.eq_code rfl (by decide) (by decide) with rfl
        have behind : Hollow .code rest :=
          Hollow.of_append_cons (a := '@' :: inner) (by simpa using h) own noBreak
        rw [dropAnnotations_mark mark]
        exact .quiet (by decide) (ih rest.length (by simp [← size]; omega) behind rfl)
      · have shorter : ∀ {region : Region} {s t' : Text}, s ++ t' = t → s ≠ [] → Hollow region t' →
            Hollow region (dropAnnotations t') := by
          rintro region s t' rfl some rest
          have positive := List.length_pos_iff.mpr some
          exact ih t'.length (by rw [← size, List.length_append]; omega) rest rfl
        cases h with
        | nil => exact .nil _
        | @quiet c t own rest =>
            rw [dropAnnotations_cons none]
            exact .quiet own (shorter (s := [c]) rfl (by simp) rest)
        | @slash t noLine noBlock rest =>
            rw [dropAnnotations_cons none]
            exact .slash (fun head => noLine (head?_of_head?_dropAnnotations (by decide) head))
              (fun head => noBlock (head?_of_head?_dropAnnotations (by decide) head))
              (shorter (s := ['/']) rfl (by simp) rest)
        | @string t single rest =>
            rw [dropAnnotations_cons none]
            exact .string (fun meets => single (prefix_of_prefix_dropAnnotations (by decide) meets))
              (shorter (s := ['"']) rfl (by simp) rest)
        | @character t rest =>
            rw [dropAnnotations_cons none]
            exact .character (shorter (s := ['\x27']) rfl (by simp) rest)
        | textBlock rest =>
            rw [dropAnnotations_append_of_not_mem (by decide)]
            exact .textBlock (shorter rfl (by decide) rest)
        | @ends region quote c t literal final rest =>
            rw [dropAnnotations_cons none]
            exact .ends literal final (shorter (s := [c]) rfl (by simp) rest)
        | blockEnds rest =>
            rw [dropAnnotations_append_of_not_mem (by decide)]
            exact .blockEnds (shorter rfl (by decide) rest)
        | @blockBreak t rest =>
            rw [dropAnnotations_cons none]
            exact .blockBreak (shorter (s := ['\n']) rfl (by simp) rest)

/-- No annotation stands in the text. -/
def Unmarked (t : Text) : Prop :=
  ∀ x y, t = x ++ y → NoMark y

theorem unmarked_cons {c : Char} {t : Text} (none : NoMark (c :: t)) (rest : Unmarked t) :
    Unmarked (c :: t) := by
  intro x y cut
  cases x with
  | nil =>
      rw [← show c :: t = y from cut]
      exact none
  | cons d x => exact rest x y (List.cons.inj cut).2

theorem dropAnnotations_of_unmarked {t : Text} (none : Unmarked t) : dropAnnotations t = t := by
  induction t with
  | nil => rfl
  | cons c t ih =>
      have rest : Unmarked t := fun x y cut => none (c :: x) y (by rw [cut]; rfl)
      rw [dropAnnotations_cons (none [] _ rfl), ih rest]

/-- Taking annotations away makes a text shorter, if it has any. -/
theorem unmarked_or_length_lt (t : Text) : Unmarked t ∨ (dropAnnotations t).length < t.length := by
  induction t using induction_on_marks with
  | nil => exact Or.inl fun x y cut => (List.append_eq_nil_iff.mp cut.symm).2 ▸ by simp [NoMark]
  | mark r t mark ih =>
      rcases mark.exists_ends with ⟨inner, c, rfl, -, -⟩
      have noLonger : (dropAnnotations t).length ≤ t.length := by
        rcases ih with none | less
        · rw [dropAnnotations_of_unmarked none]
        · exact less.le
      refine Or.inr ?_
      rw [dropAnnotations_mark mark]
      simp only [List.length_cons, List.length_append, List.length_nil]
      omega
  | kept c t none ih =>
      rcases ih with rest | less
      · exact Or.inl (unmarked_cons none rest)
      · refine Or.inr ?_
        rw [dropAnnotations_cons none]
        simpa using less

/-! ## Tidying lines -/

theorem tidyLines_visible {c : Char} (visible : isBlank c = false) (t : Text) :
    tidyLines (c :: t) = c :: tidyLines t := by
  rw [tidyLines_cons (ne_newline_of_visible visible), if_neg (by simp [visible]),
    untab_of_not_isBlank visible]

/-- Tidied lines begin with a blank where the text does. -/
theorem isBlank_head_tidyLines {c d : Char} {t : Text} (blank : isBlank d = true)
    (head : (tidyLines (d :: t)).head? = some c) : isBlank c = true := by
  by_cases feed : d = '\n'
  · subst feed
    rw [tidyLines_newline] at head
    exact Option.some.inj head ▸ blank
  · rw [tidyLines_cons feed] at head
    split at head
    · next dropped =>
        rcases dropped.2 with none | newline
        · rw [none] at head
          cases head
        · rw [newline] at head
          exact Option.some.inj head ▸ (by decide)
    · rw [← Option.some.inj head, isBlank_untab, blank]

/-- What is visible at the head of tidied lines heads the text. -/
theorem prefix_of_prefix_tidyLines {s t : Text} (shown : Visible s) (head : s <+: tidyLines t) :
    s <+: t := by
  induction s generalizing t with
  | nil => exact List.nil_prefix
  | cons c s ih =>
      cases t with
      | nil => exact head
      | cons d t =>
          by_cases blank : isBlank d = true
          · rcases head with ⟨r, same⟩
            have hidden := isBlank_head_tidyLines blank (congrArg List.head? same).symm
            rw [shown c List.mem_cons_self] at hidden
            cases hidden
          · rw [tidyLines_visible (by simpa using blank)] at head
            rcases List.cons_prefix_cons.mp head with ⟨rfl, behind⟩
            exact List.cons_prefix_cons.mpr
              ⟨rfl, ih (fun e member => shown e (List.mem_cons_of_mem c member)) behind⟩

theorem head?_of_head?_tidyLines {t : Text} {c : Char} (visible : isBlank c = false)
    (head : (tidyLines t).head? = some c) : t.head? = some c := by
  rcases List.head?_eq_some_iff.mp head with ⟨rest, same⟩
  rcases prefix_of_prefix_tidyLines (List.forall_mem_singleton.mpr visible) ⟨rest, same.symm⟩ with
    ⟨rest', whole⟩
  rw [← whole]
  rfl

theorem isQuiet_untab {c : Char} (own : isQuiet c = true) : isQuiet (untab c) = true := by
  unfold untab
  split
  · decide
  · exact own

/-- A text stays hollow when its lines are tidied. -/
theorem hollow_tidyLines {region : Region} {t : Text} (h : Hollow region t) :
    Hollow region (tidyLines t) := by
  have quotes : ∀ t, tidyLines (Region.textBlockQuotes ++ t) =
      Region.textBlockQuotes ++ tidyLines t := by
    intro t
    simp only [Region.textBlockQuotes, List.cons_append, List.nil_append]
    rw [tidyLines_visible (by decide), tidyLines_visible (by decide), tidyLines_visible (by decide)]
  induction h with
  | nil region => exact .nil region
  | @quiet c t own rest ih =>
      by_cases feed : c = '\n'
      · rw [feed, tidyLines_newline]
        exact .quiet (by decide) ih
      · rw [tidyLines_cons feed]
        split
        · exact ih
        · exact .quiet (isQuiet_untab own) ih
  | slash noLine noBlock rest ih =>
      rw [tidyLines_visible (by decide)]
      exact .slash (fun head => noLine (head?_of_head?_tidyLines (by decide) head))
        (fun head => noBlock (head?_of_head?_tidyLines (by decide) head)) ih
  | string single rest ih =>
      rw [tidyLines_visible (by decide)]
      exact .string (fun meets => single (prefix_of_prefix_tidyLines (by decide) meets)) ih
  | character rest ih =>
      rw [tidyLines_visible (by decide)]
      exact .character ih
  | textBlock rest ih =>
      rw [quotes]
      exact .textBlock ih
  | @ends region quote c t literal final rest ih =>
      rcases final with rfl | rfl
      · rw [tidyLines_visible literal.visible]
        exact .ends literal (Or.inl rfl) ih
      · rw [tidyLines_newline]
        exact .ends literal (Or.inr rfl) ih
  | blockEnds rest ih =>
      rw [quotes]
      exact .blockEnds ih
  | blockBreak rest ih =>
      rw [tidyLines_newline]
      exact .blockBreak ih

theorem length_tidyLines_le (t : Text) : (tidyLines t).length ≤ t.length := by
  induction t with
  | nil => exact Nat.le_refl _
  | cons c t ih =>
      by_cases feed : c = '\n'
      · rw [feed, tidyLines_newline]
        exact Nat.succ_le_succ ih
      · rw [tidyLines_cons feed]
        split
        · exact Nat.le_succ_of_le ih
        · exact Nat.succ_le_succ ih

theorem tidyLines_eq_tidy {t : Text} (noReturn : '\r' ∉ t) : tidyLines t = tidy t := by
  rw [tidy, unifyLineBreaks_of_not_mem noReturn]

/-! ## The second pass -/

/-- What the first pass leaves has unified line breaks and tidy lines. -/
theorem normalize_laidOut (s : Text) :
    '\r' ∉ normalize s ∧ tidyLines (normalize s) = normalize s := by
  have noReturn : '\r' ∉ dropAnnotations (Region.blankOut .code 0 (unifyLineBreaks s)) :=
    fun member => not_mem_return_unifyLineBreaks s
      (Region.mem_of_mem_blankOut (by decide) (by decide)
        (mem_of_mem_dropAnnotations (by decide) member))
  have tidied : normalize s =
      tidy (dropAnnotations (Region.blankOut .code 0 (unifyLineBreaks s))) :=
    tidyLines_eq_tidy noReturn
  have noReturn' : '\r' ∉ normalize s := by
    rw [tidied]
    exact not_mem_return_tidy _
  exact ⟨noReturn', by rw [tidyLines_eq_tidy noReturn', tidied, tidy_tidy]⟩

theorem hollow_normalize {s : Text} (apart : QuotesApart .code 0 (unifyLineBreaks s)) :
    Hollow .code (normalize s) :=
  hollow_tidyLines (hollow_dropAnnotations (Region.hollow_blankOut apart))

/-- Where no double quote stands directly behind a string literal, normalizing twice is
normalizing once exactly if the first pass leaves no annotation. -/
theorem normalize_normalize_iff {s : Text} (apart : QuotesApart .code 0 (unifyLineBreaks s)) :
    normalize (normalize s) = normalize s ↔ Unmarked (normalize s) := by
  rcases normalize_laidOut s with ⟨noReturn, tidied⟩
  have again : normalize (normalize s) = tidyLines (dropAnnotations (normalize s)) := by
    rw [normalize, unifyLineBreaks_of_not_mem noReturn, (hollow_normalize apart).blankOut_eq]
  constructor
  · intro same
    refine (unmarked_or_length_lt (normalize s)).resolve_right fun less => ?_
    have noLonger := length_tidyLines_le (dropAnnotations (normalize s))
    rw [← again, same] at noLonger
    exact absurd less (Nat.not_lt.mpr noLonger)
  · intro none
    rw [again, dropAnnotations_of_unmarked none, tidied]

theorem normalize_normalize_iff_annotated :
    let s := "/* x */ @A(\"y\") int f() \x7b return g(\"a\", \"b\"); \x7d // c".toList
    QuotesApart .code 0 (unifyLineBreaks s) ∧ normalize (normalize s) = normalize s ∧
    Unmarked (normalize s) := by
  intro s
  have apart : QuotesApart .code 0 (unifyLineBreaks s) := by decide +kernel
  have same : normalize (normalize s) = normalize s := by decide +kernel
  exact ⟨apart, same, (normalize_normalize_iff apart).mp same⟩

/-- The quotes of two string literals side by side open a text block, and a sign in
front of an annotation begins one when that is gone. -/
theorem not_normalize_normalize :
    normalize (normalize "\"a\"\"b\" x".toList) ≠ normalize "\"a\"\"b\" x".toList ∧
      normalize (normalize "@@a b".toList) ≠ normalize "@@a b".toList := by
  decide +kernel

end Text
end Testwright
