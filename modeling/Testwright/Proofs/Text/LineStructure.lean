import Testwright.Proofs.Text.Renormalization

namespace Testwright

/-!
# Line breaks of a normalized text

Without annotations every line break of a source is one of the normalized text, with
one exception: a backslash in a string or character literal takes the line break
behind it along, and nothing is written for it.  `breakCount_normalize` counts these;
so the lines are kept exactly if there are none of them (`breakCount_normalize_iff`).
Text blocks are different, there an escaped line break still ends a line.
-/

namespace Region

/-- The character is a backslash in a string or character literal, and the line feed
behind it goes with it. -/
def IsBreakTaken (region : Region) (c : Char) (ahead : Text) : Prop :=
  (region = string ∨ region = character) ∧ c = '\\' ∧ ahead.head? = some '\n'

instance (region : Region) (c : Char) (ahead : Text) : Decidable (region.IsBreakTaken c ahead) :=
  inferInstanceAs (Decidable (_ ∧ _))

/-- How many line feeds go with a backslash in a string or character literal, where the
text is read from a region on. -/
def takenBreaks : Region → Nat → Text → Nat
  | _, _, [] => 0
  | region, pending + 1, _ :: t => takenBreaks region pending t
  | region, 0, c :: t =>
      (if region.IsBreakTaken c t then 1 else 0) +
        takenBreaks (region.step c t).region (region.step c t).passed t

theorem count_onlyBreak (c : Char) : (onlyBreak c).count '\n' = [c].count '\n' := by
  unfold onlyBreak
  split
  · next feed => rw [feed]
  · next other => simp [other]

variable {c : Char} {ahead : Text}

theorem count_stepInCode (c : Char) (ahead : Text) : (stepInCode c ahead).written.count '\n' =
    [c].count '\n' + (ahead.take (stepInCode c ahead).passed).count '\n' := by
  simp only [stepInCode]
  split_ifs with line block text string character
  · rcases List.head?_eq_some_iff.mp line.2 with ⟨rest, rfl⟩
    simp [line.1]
  · rcases List.head?_eq_some_iff.mp block.2 with ⟨rest, rfl⟩
    simp [block.1]
  · rcases List.isPrefixOf_iff_prefix.mp text.2 with ⟨rest, rfl⟩
    simp [text.1, textBlockQuotes]
  · simp [string]
  · simp [character]
  · simp

theorem count_stepInBlockComment (c : Char) (ahead : Text) :
    (stepInBlockComment c ahead).written.count '\n' =
    [c].count '\n' + (ahead.take (stepInBlockComment c ahead).passed).count '\n' := by
  simp only [stepInBlockComment]
  split_ifs with ends
  · rcases List.head?_eq_some_iff.mp ends.2 with ⟨rest, rfl⟩
    simp [ends.1]
  · simp [count_onlyBreak]

theorem count_stepInTextBlock (c : Char) (ahead : Text) :
    (stepInTextBlock c ahead).written.count '\n' =
    [c].count '\n' + (ahead.take (stepInTextBlock c ahead).passed).count '\n' := by
  simp only [stepInTextBlock]
  split_ifs with escape ends
  · cases ahead with
    | nil => simp [escape]
    | cons d ahead => simp [escape, count_onlyBreak]
  · rcases List.isPrefixOf_iff_prefix.mp ends.2 with ⟨rest, rfl⟩
    simp [ends.1, textBlockQuotes]
  · simp [count_onlyBreak]

/-- In a literal a backslash takes a line feed and nothing is written for it. -/
theorem count_stepInLiteral (region : Region) {quote : Char} (other : quote ≠ '\n') (c : Char)
    (ahead : Text) :
    (stepInLiteral region quote c).written.count
      '\n' + (if c = '\\' ∧ ahead.head? = some '\n' then 1 else 0) =
      [c].count '\n' + (ahead.take (stepInLiteral region quote c).passed).count '\n' := by
  simp only [stepInLiteral]
  by_cases escape : c = '\\'
  · cases ahead with
    | nil => simp [escape]
    | cons d ahead => simp [escape, List.count_singleton]
  · by_cases feed : c = '\n'
    · simp [feed]
    · by_cases final : c = quote
      · subst final
        simp [escape, other]
      · simp [escape, feed, final]

/-- One step writes the line feeds of the characters it reads, except one that a
backslash takes. -/
theorem count_step (region : Region) (c : Char) (ahead : Text) :
    (region.step c ahead).written.count '\n' + (if region.IsBreakTaken c ahead then 1 else 0) =
      [c].count '\n' + (ahead.take (region.step c ahead).passed).count '\n' := by
  cases region with
  | code => simpa [step, IsBreakTaken] using count_stepInCode c ahead
  | lineComment => simp [step, stepInLineComment, IsBreakTaken, count_onlyBreak]
  | blockComment => simpa [step, IsBreakTaken] using count_stepInBlockComment c ahead
  | string =>
      simpa [step, IsBreakTaken] using count_stepInLiteral string (by decide : '"' ≠ '\n') c ahead
  | character =>
      simpa [step, IsBreakTaken] using
        count_stepInLiteral character (by decide : '\x27' ≠ '\n') c ahead
  | textBlock => simpa [step, IsBreakTaken] using count_stepInTextBlock c ahead

/-- The scan writes the line feeds of the text, except those that backslashes take. -/
theorem count_blankOut (region : Region) (pending : Nat) (t : Text) :
    (blankOut region pending t).count '\n' + takenBreaks region pending t =
      (t.drop pending).count '\n' := by
  induction t generalizing region pending with
  | nil => simp [blankOut, takenBreaks]
  | cons c t ih =>
      cases pending with
      | succ pending => exact ih region pending
      | zero =>
          have here := count_step region c t
          have behind := ih (region.step c t).region (region.step c t).passed
          have parts : t.count '\n' =
              (t.take (region.step c t).passed).count '\n' +
                (t.drop (region.step c t).passed).count '\n' := by
            rw [← List.count_append, List.take_append_drop]
          have whole : (c :: t).count '\n' = [c].count '\n' + t.count '\n' := by
            rw [← List.count_append, List.singleton_append]
          rw [blankOut, takenBreaks, List.count_append, List.drop_zero, whole, parts]
          omega

/-! ## Where a line break is taken -/

/-- Behind some part of the text, read from a region on, the scan stands in a string or
character literal in front of a backslash and a line feed. -/
def TakesBreak (region : Region) (pending : Nat) (t : Text) : Prop :=
  ∃ front back literal, t = front ++ '\\' :: '\n' :: back ∧
    (literal = string ∨ literal = character) ∧
    after region pending front = (literal, 0)

theorem takesBreak_cons_pending {region : Region} {pending : Nat} {t : Text} :
    TakesBreak region (pending + 1) (c :: t) ↔ TakesBreak region pending t := by
  constructor
  · rintro ⟨- | ⟨d, front⟩, back, literal, cut, isLiteral, inside⟩
    · cases inside
    · exact ⟨front, back, literal, (List.cons.inj cut).2, isLiteral, inside⟩
  · rintro ⟨front, back, literal, rfl, isLiteral, inside⟩
    exact ⟨c :: front, back, literal, rfl, isLiteral, inside⟩

theorem takesBreak_cons {region : Region} {t : Text} : TakesBreak region 0 (c :: t) ↔
    region.IsBreakTaken c t ∨ TakesBreak (region.step c t).region (region.step c t).passed t := by
  -- a backslash is no character that a step looks ahead for
  have same : ∀ front back, region.step c (front ++ '\\' :: '\n' :: back) = region.step c front :=
    fun front back => step_append_calm (by decide) (by decide) front _
  constructor
  · rintro ⟨- | ⟨d, front⟩, back, literal, cut, isLiteral, inside⟩
    · rcases List.cons.inj cut with ⟨rfl, rfl⟩
      rcases Prod.mk.inj inside with ⟨rfl, -⟩
      exact Or.inl ⟨isLiteral, rfl, rfl⟩
    · obtain ⟨rfl, rfl⟩ : c = d ∧ t = front ++ '\\' :: '\n' :: back := List.cons.inj cut
      refine Or.inr ⟨front, back, literal, rfl, isLiteral, ?_⟩
      rw [same]
      exact inside
  · rintro (⟨isLiteral, rfl, head⟩ | ⟨front, back, literal, rfl, isLiteral, inside⟩)
    · rcases List.head?_eq_some_iff.mp head with ⟨back, rfl⟩
      exact ⟨[], back, region, rfl, isLiteral, rfl⟩
    · rw [same] at inside
      exact ⟨c :: front, back, literal, rfl, isLiteral, inside⟩

theorem takenBreaks_eq_zero_iff {region : Region} {pending : Nat} {t : Text} :
    takenBreaks region pending t = 0 ↔ ¬ TakesBreak region pending t := by
  induction t generalizing region pending with
  | nil => simp [takenBreaks, TakesBreak]
  | cons c t ih =>
      cases pending with
      | succ pending => rw [takesBreak_cons_pending, ← ih, takenBreaks]
      | zero =>
          rw [takesBreak_cons, not_or, ← ih, takenBreaks, Nat.add_eq_zero_iff, ite_eq_right_iff]
          simp

end Region

namespace Text

open Region (takenBreaks TakesBreak)

/-! ## Line breaks of a text -/

/-- How many line breaks the text has: a carriage return goes with the line feed behind
it. -/
def breakCount : Text → Nat
  | [] => 0
  | '\r' :: '\n' :: t => breakCount t + 1
  | c :: t => (if c = '\r' ∨ c = '\n' then 1 else 0) + breakCount t

theorem count_unifyLineBreaks (t : Text) : (unifyLineBreaks t).count '\n' = breakCount t := by
  fun_induction unifyLineBreaks t with
  | case1 => rfl
  | case2 t ih => rw [breakCount, List.count_cons_self, ih]
  | case3 t alone ih =>
      rw [breakCount.eq_3, List.count_cons_self, ih, if_pos (Or.inl rfl), Nat.add_comm]
      exact fun rest _ same => alone rest same
  | case4 c t pair notReturn ih =>
      have other : c ≠ '\r' := notReturn
      rw [breakCount.eq_3 c t fun rest isReturn => absurd isReturn other, List.count_cons, ih,
        Nat.add_comm]
      simp [other]

theorem breakCount_of_not_mem {t : Text} (noReturn : '\r' ∉ t) : breakCount t = t.count '\n' := by
  rw [← count_unifyLineBreaks, unifyLineBreaks_of_not_mem noReturn]

theorem count_tidyLines (t : Text) : (tidyLines t).count '\n' = t.count '\n' := by
  induction t with
  | nil => rfl
  | cons c t ih =>
      by_cases feed : c = '\n'
      · rw [feed, tidyLines_newline, List.count_cons_self, List.count_cons_self, ih]
      · have feed' : untab c ≠ '\n' := fun same => feed (untab_eq_newline_iff.mp same)
        rw [tidyLines_cons feed, List.count_cons_of_ne feed]
        split
        · exact ih
        · rw [List.count_cons_of_ne feed', ih]

/-- The line breaks of a text without annotations are those of the normalized text and
those that backslashes take in literals. -/
theorem breakCount_normalize {s : Text} (unsigned : '@' ∉ s) :
    breakCount (normalize s) + takenBreaks .code 0 (unifyLineBreaks s) = breakCount s := by
  have unsigned' : '@' ∉ Region.blankOut .code 0 (unifyLineBreaks s) := fun member =>
    unsigned ((mem_of_mem_unifyLineBreaks
      (Region.mem_of_mem_blankOut (by decide) (by decide) member)).resolve_right
      (by decide))
  have kept : dropAnnotations (Region.blankOut .code 0 (unifyLineBreaks s)) =
      Region.blankOut .code 0 (unifyLineBreaks s) :=
        (drops_of_not_mem unsigned' []).dropAnnotations_eq
  rw [breakCount_of_not_mem (normalize_laidOut s).1, normalize, kept, count_tidyLines,
    Region.count_blankOut, List.drop_zero, count_unifyLineBreaks]

/-- A text without annotations keeps its line breaks when it is normalized, exactly if no
backslash takes one along in a string or character literal. -/
theorem breakCount_normalize_iff {s : Text} (unsigned : '@' ∉ s) :
    breakCount (normalize s) = breakCount s ↔ ¬ TakesBreak .code 0 (unifyLineBreaks s) := by
  rw [← Region.takenBreaks_eq_zero_iff, ← breakCount_normalize unsigned]
  omega

theorem breakCount_normalize_iff_blocks :
    let s := "/* x\r\ny */ String q = \"\"\"\n a \\\n b\"\"\"; // z\r char c = '\\\\\nint d;".toList
    '@' ∉ s ∧ breakCount (normalize s) = 5 ∧ breakCount s = 5 ∧
    ¬ TakesBreak .code 0 (unifyLineBreaks s) := by
  intro s
  have unsigned : '@' ∉ s := by decide +kernel
  have lines : breakCount (normalize s) = 5 ∧ breakCount s = 5 := by decide +kernel
  exact ⟨unsigned, lines.1, lines.2,
    (breakCount_normalize_iff unsigned).mp (lines.1.trans lines.2.symm)⟩

/-- The line break behind a backslash in a string literal is lost. -/
theorem not_breakCount_normalize :
    let s := "String s = \"a\\\nint b;\n".toList
    '@' ∉ s ∧ normalize s = "String s = \"\n".toList ∧ breakCount s = 2 ∧
    breakCount (normalize s) = 1 := by
  decide +kernel

end Text
end Testwright
