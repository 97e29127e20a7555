import Testwright.Proofs.Text.Lines

namespace Testwright

/-!
# Texts that span lines

A text that goes on to a mark, such as the header of a class to its opening brace, begins in
one line of a source and ends in that line or a later one.  Each line that it touches shows
a piece of it (`Text.IsLinePiece`), and the lines from the first to the last hold it
(`Line.exists_span`).  So what leaves these lines as they are leaves the text as it is.
-/

namespace Text

/-- What a line shows of a text that goes on to a mark: a part of the text, or its end with
the mark and anything behind that. -/
def IsLinePiece (body : Text) (mark : Char) (s : Text) : Prop :=
  s <:+: body ∨ ∃ back rest, back <:+ body ∧ s = back ++ mark :: rest

theorem IsLinePiece.of_suffix {body body' s : Text} {mark : Char} (h : IsLinePiece body' mark s)
    (suffix : body' <:+ body) :
    IsLinePiece body mark s := by
  rcases h with inside | ⟨back, rest, isBack, rfl⟩
  · exact .inl (inside.trans suffix.isInfix)
  · exact .inr ⟨back, rest, isBack.trans suffix, rfl⟩

/-- A text that goes on to a mark stands behind the first of two texts, or in it, or begins
in it and ends behind it. -/
theorem exists_across {s t x body rest : Text} {mark : Char}
    (same : s ++ t = x ++ (body ++ mark :: rest)) :
    (∃ x', x = s ++ x' ∧ t = x' ++ (body ++ mark :: rest)) ∨
    (∃ rest', s = x ++ (body ++ mark :: rest')) ∨
      ∃ front back, body = front ++ back ∧ front ≠ [] ∧ s = x ++ front ∧
        t = back ++ mark :: rest := by
  rcases List.append_eq_append_iff.mp same with ⟨x', behind, later⟩ | ⟨front, begins, tails⟩
  · exact .inl ⟨x', behind, later⟩
  · by_cases none : front = []
    · exact .inl ⟨[], by simpa [none] using begins.symm, by simpa [none] using tails.symm⟩
    · rcases List.append_eq_append_iff.mp tails with ⟨k, rfl, ends⟩ | ⟨back, whole, ends⟩
      · cases k with
        | nil =>
            exact .inr (.inr ⟨body, [], by simp, by simpa using none, by simpa using begins,
              by simpa using ends.symm⟩)
        | cons d k =>
            rcases (List.cons.inj ends).1 with rfl
            exact .inr (.inl ⟨k, begins⟩)
      · exact .inr (.inr ⟨front, back, whole, none, begins, ends⟩)

end Text

namespace Line

open Text (IsLinePiece)

variable {lines : List Line} {mark : Char}

/-- The lines of a text that begins with the first of them. -/
theorem exists_span_of_start {body rest : Text} (whole : texts lines = body ++ mark :: rest) :
    ∃ spanned lower, lines = spanned ++ lower ∧
      (∀ line ∈ spanned, IsLinePiece body mark line.text) ∧
      ∃ rest', texts spanned = body ++ mark :: rest' := by
  induction lines generalizing body with
  | nil => exact absurd whole (by simp [texts])
  | cons line lines ih =>
      have across : ∀ body', body = line.text ++ body' → texts lines = body' ++ mark :: rest →
          ∃ spanned lower, line :: lines = spanned ++ lower ∧
            (∀ line ∈ spanned, IsLinePiece body mark line.text) ∧
            ∃ rest', texts spanned = body ++ mark :: rest' := by
        rintro body' rfl whole'
        rcases ih whole' with ⟨spanned, lower, rfl, pieces, rest', held⟩
        refine ⟨line :: spanned, lower, rfl,
          List.forall_mem_cons.mpr ⟨.inl (List.prefix_append _ _).isInfix,
          fun other member => (pieces other member).of_suffix (List.suffix_append _ _)⟩, rest', ?_⟩
        rw [List.append_assoc, ← held]
        rfl
      rcases Text.exists_across (x := []) whole with ⟨x', behind, later⟩ | ⟨rest', inside⟩ |
        ⟨front, back, parted, -, here, later⟩
      · rcases List.append_eq_nil_iff.mp behind.symm with ⟨none, rfl⟩
        exact across body (by rw [none, List.nil_append]) later
      · refine ⟨[line], lines, rfl,
          List.forall_mem_singleton.mpr (.inr ⟨body, rest', List.suffix_rfl, inside⟩), rest', ?_⟩
        simpa [texts] using inside
      · exact across back (by rw [parted, here, List.nil_append]) later

/-- The lines of a text: in the first one it begins. -/
theorem exists_span {c : Char} {x body rest : Text}
    (whole : texts lines = x ++ (c :: body ++ mark :: rest)) :
    ∃ upper line spanned lower x' s, lines = upper ++ (line :: (spanned ++ lower)) ∧
      x = texts upper ++ x' ∧
      line.text = x' ++ c :: s ∧ IsLinePiece (c :: body) mark (c :: s) ∧
      (∀ line ∈ spanned, IsLinePiece (c :: body) mark line.text) ∧
      ∃ rest', c :: s ++ texts spanned = c :: body ++ mark :: rest' := by
  induction lines generalizing x with
  | nil => exact absurd whole (by simp [texts])
  | cons line lines ih =>
      rcases Text.exists_across whole with
        ⟨x', rfl, later⟩ | ⟨rest', here⟩ | ⟨front, back, parted, some, here, later⟩
      · rcases ih later with ⟨upper, first, spanned, lower, x'', s, rfl, rfl, held⟩
        exact ⟨line :: upper, first, spanned, lower, x'', s, rfl, by simp [texts], held⟩
      · exact ⟨[], line, [], lines, x, body ++ mark :: rest', rfl, rfl, here,
          .inr ⟨c :: body, rest', List.suffix_rfl, rfl⟩, List.forall_mem_nil _, rest',
          by simp [texts]⟩
      · obtain ⟨d, front, rfl⟩ := List.exists_cons_of_ne_nil some
        obtain ⟨rfl, rfl⟩ := List.cons.inj parted
        rcases exists_span_of_start later with ⟨spanned, lower, rfl, pieces, rest', held⟩
        have others : ∀ other ∈ spanned, IsLinePiece (c :: front ++ back) mark other.text :=
          fun other member => (pieces other member).of_suffix (List.suffix_append _ _)
        exact ⟨[], line, spanned, lower, x, front, rfl, rfl, here,
          .inl (List.prefix_append _ _).isInfix, others, rest',
          by rw [held, ← List.append_assoc]; rfl⟩

end Line
end Testwright
