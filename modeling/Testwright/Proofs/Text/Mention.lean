import Testwright.Proofs.Character.Classes
import Testwright.Proofs.Text.Normalization

namespace Testwright
namespace Text

/-!
# Words that a text mentions

A text mentions a word if the word stands in it with no character of a word on
either side.  Tidying a text adds no mention: it takes out blanks at the ends of
lines only, and so joins nothing.
-/

open Character (isBlank isWord)

/-- The runs of word characters in a text, and empty texts between the others. -/
def wordRuns (t : Text) : List Text :=
  splitOn (fun c => !isWord c) t

/-- Whether the word stands in the text between other characters. -/
def mentions (t w : Text) : Bool :=
  (wordRuns t).contains w

theorem wordRuns_nil : wordRuns [] = [[]] := rfl

theorem wordRuns_cons_of_not {c : Char} (other : isWord c = false) (t : Text) :
    wordRuns (c :: t) = [] :: wordRuns t := by
  simp [wordRuns, splitOn, other]

theorem wordRuns_cons_of_word {c : Char} (word : isWord c = true) {t first : Text}
    {others : List Text} (runs : wordRuns t = first :: others) :
    wordRuns (c :: t) = (c :: first) :: others := by
  have runs' : splitOn (fun c => !isWord c) t = first :: others := runs
  simp [wordRuns, splitOn, word, runs']

theorem wordRuns_append (s : Text) {c : Char} (other : isWord c = false) (t : Text) :
    wordRuns (s ++ c :: t) = wordRuns s ++ wordRuns t :=
  splitOn_append_cons (by simp [other]) s t

theorem wordRuns_of_words {w : Text} (words : ∀ c ∈ w, isWord c = true) : wordRuns w = [w] := by
  induction w with
  | nil => rfl
  | cons c w ih =>
      exact wordRuns_cons_of_word (words c List.mem_cons_self)
        (ih fun d member => words d (List.mem_cons_of_mem c member))

/-- Whether the last run of word characters in the text is the word, and nothing
follows it. -/
def endsIn (t w : Text) : Bool :=
  (wordRuns t).getLast? == some w

theorem endsIn_append {x w : Text} (words : ∀ c ∈ w, isWord c = true)
    (before : ∀ c, x.getLast? = some c → isWord c = false) : endsIn (x ++ w) w = true := by
  rcases List.eq_nil_or_concat x with rfl | ⟨x, b, rfl⟩
  · simp [endsIn, wordRuns_of_words words]
  · have other := before b (by simp)
    have shape : x ++ [b] ++ w = x ++ b :: w := by simp
    rw [List.concat_eq_append, shape, endsIn, wordRuns_append x other, wordRuns_of_words words]
    simp

/-- A word between other characters is mentioned. -/
theorem mentions_of_between {x w y : Text} (words : ∀ c ∈ w, isWord c = true)
    (before : ∀ c, x.getLast? = some c → isWord c = false)
    (behind : ∀ c, y.head? = some c → isWord c = false) : mentions (x ++ (w ++ y)) w = true := by
  have first : w ∈ wordRuns (w ++ y) := by
    cases y with
    | nil => simp [wordRuns_of_words words]
    | cons c y => simp [wordRuns_append w (behind c rfl), wordRuns_of_words words]
  apply List.contains_iff_mem.mpr
  rcases List.eq_nil_or_concat x with rfl | ⟨x, b, rfl⟩
  · exact first
  · have other := before b (by simp)
    have shape : x ++ [b] ++ (w ++ y) = x ++ b :: (w ++ y) := by simp
    rw [List.concat_eq_append, shape, wordRuns_append x other]
    exact List.mem_append_right _ first

theorem not_isWord_of_atLineEnd {t first : Text} {others : List Text} (atEnd : AtLineEnd t)
    (runs : wordRuns t = first :: others) : first = [] := by
  rcases atEnd with rfl | head
  · exact (List.cons.inj runs).1.symm
  · cases t with
    | nil => cases head
    | cons c t =>
        rw [Option.some.inj head, wordRuns_cons_of_not (by decide)] at runs
        exact (List.cons.inj runs).1.symm

/-- Tidying leaves the first run, and all runs behind it that are words. -/
theorem exists_wordRuns_tidy (t : Text) :
    ∃ first others others', wordRuns t = first :: others ∧ wordRuns (tidy t) = first :: others' ∧
      others.filter (!·.isEmpty) = others'.filter (!·.isEmpty) := by
  fun_induction unifyLineBreaks t with
  | case1 => exact ⟨[], [], [], rfl, rfl, rfl⟩
  | case2 t ih =>
      obtain ⟨first, others, others', runs, runs', same⟩ := ih
      refine ⟨[], [] :: first :: others, first :: others', ?_, ?_, ?_⟩
      · rw [wordRuns_cons_of_not (by decide), wordRuns_cons_of_not (by decide), runs]
      · rw [tidy_return_newline, wordRuns_cons_of_not (by decide), runs']
      · simp [List.filter_cons, same]
  | case3 t alone ih =>
      obtain ⟨first, others, others', runs, runs', same⟩ := ih
      refine ⟨[], first :: others, first :: others', ?_, ?_, ?_⟩
      · rw [wordRuns_cons_of_not (by decide), runs]
      · rw [tidy_return (head_ne_of_forall alone), wordRuns_cons_of_not (by decide), runs']
      · simp [List.filter_cons, same]
  | case4 d t _ notReturn ih =>
      obtain ⟨first, others, others', runs, runs', same⟩ := ih
      by_cases newline : d = '\n'
      · subst newline
        refine ⟨[], first :: others, first :: others', ?_, ?_, ?_⟩
        · rw [wordRuns_cons_of_not (by decide), runs]
        · rw [tidy_newline, wordRuns_cons_of_not (by decide), runs']
        · simp [List.filter_cons, same]
      · rw [tidy_cons newline notReturn]
        split
        · next dropped =>
            have nothing := not_isWord_of_atLineEnd dropped.2 runs'
            subst nothing
            refine ⟨[], [] :: others, others', ?_, runs', by simpa using same⟩
            rw [wordRuns_cons_of_not (Character.not_isWord_of_isBlank dropped.1), runs]
        · cases word : isWord d with
          | false =>
              have word' : isWord (untab d) = false := by
                unfold untab
                split
                · decide
                · exact word
              refine ⟨[], first :: others, first :: others', ?_, ?_, ?_⟩
              · rw [wordRuns_cons_of_not word, runs]
              · rw [wordRuns_cons_of_not word', runs']
              · simp [List.filter_cons, same]
          | true =>
              have untabbed : untab d = d :=
                untab_of_not_isBlank (Character.not_isBlank_of_isWord word)
              refine ⟨d :: first, others, others', wordRuns_cons_of_word word runs, ?_, same⟩
              rw [untabbed]
              exact wordRuns_cons_of_word word runs'

/-- A tidied text mentions no word that the text does not mention. -/
theorem mentions_of_mentions_tidy {t w : Text} (nonempty : w ≠ [])
    (h : mentions (tidy t) w = true) : mentions t w = true := by
  obtain ⟨first, others, others', runs, runs', same⟩ := exists_wordRuns_tidy t
  have member : w ∈ first :: others' := by
    rw [← runs']
    exact List.contains_iff_mem.mp h
  apply List.contains_iff_mem.mpr
  rw [runs]
  rcases List.mem_cons.mp member with rfl | inOthers
  · exact List.mem_cons_self
  · have kept : w ∈ others'.filter (!·.isEmpty) :=
      List.mem_filter.mpr ⟨inOthers, by simpa using nonempty⟩
    rw [← same] at kept
    exact List.mem_cons_of_mem first (List.mem_filter.mp kept).1

/-! ## Mentions in the parts of a text -/

/-- A text consists of word characters, or some of them stand in front of the first
other one. -/
theorem words_or_exists (t : Text) : (∀ c ∈ t, isWord c = true) ∨
    ∃ a c b, t = a ++ c :: b ∧ (∀ d ∈ a, isWord d = true) ∧ isWord c = false := by
  induction t with
  | nil => exact .inl (List.forall_mem_nil _)
  | cons c t ih =>
      cases word : isWord c with
      | false => exact .inr ⟨[], c, t, rfl, List.forall_mem_nil _, word⟩
      | true =>
          rcases ih with words | ⟨a, d, b, rfl, words, other⟩
          · exact .inl (List.forall_mem_cons.mpr ⟨word, words⟩)
          · exact .inr ⟨c :: a, d, b, rfl, List.forall_mem_cons.mpr ⟨word, words⟩, other⟩

/-- A run of word characters stands between other characters. -/
theorem exists_between {t w : Text} (member : w ∈ wordRuns t) :
    ∃ x y, t = x ++ (w ++ y) ∧ x.getLast?.any isWord = false ∧ y.head?.any isWord = false := by
  induction size : t.length using Nat.strongRecOn generalizing t with
  | ind n ih =>
      rcases words_or_exists t with words | ⟨a, c, b, rfl, words, other⟩
      · rw [wordRuns_of_words words] at member
        exact ⟨[], [], by simp [List.mem_singleton.mp member], rfl, rfl⟩
      · rw [wordRuns_append _ other, wordRuns_of_words words] at member
        rcases List.mem_append.mp member with here | later
        · rw [List.mem_singleton.mp here]
          exact ⟨[], c :: b, rfl, rfl, other⟩
        · have shorter : b.length < n := by
            rw [← size]
            simp only [List.length_append, List.length_cons]
            omega
          rcases ih b.length shorter later rfl with ⟨x, y, rfl, before, after⟩
          refine ⟨a ++ c :: x, y, by simp, ?_, after⟩
          rcases List.eq_nil_or_concat x with rfl | ⟨x', d, rfl⟩
          · simpa using other
          · have last : (a ++ c :: x'.concat d).getLast? = some d := by
              rw [List.concat_eq_append, ← List.cons_append, ← List.append_assoc,
                List.getLast?_concat]
            have other' : isWord d = false := by simpa using before
            rw [last]
            exact other'

theorem exists_wordRuns_cons (t : Text) : ∃ first rest, wordRuns t = first :: rest := by
  induction t with
  | nil => exact ⟨[], [], rfl⟩
  | cons c t ih =>
      rcases ih with ⟨first, rest, runs⟩
      cases word : isWord c with
      | false => exact ⟨[], wordRuns t, wordRuns_cons_of_not word t⟩
      | true => exact ⟨c :: first, rest, wordRuns_cons_of_word word runs⟩

/-- Word characters in front of a text lengthen its first run. -/
theorem exists_wordRuns_words_append {u : Text} (words : ∀ c ∈ u, isWord c = true) (t : Text) :
    ∃ first rest, wordRuns t = first :: rest ∧ wordRuns (u ++ t) = (u ++ first) :: rest := by
  induction u with
  | nil =>
      rcases exists_wordRuns_cons t with ⟨first, rest, runs⟩
      exact ⟨first, rest, runs, runs⟩
  | cons c u ih =>
      rcases ih fun d member => words d (List.mem_cons_of_mem c member) with
        ⟨first, rest, same, front⟩
      exact ⟨first, rest, same, wordRuns_cons_of_word (words c List.mem_cons_self) front⟩

/-- Word characters behind a text lengthen its last run. -/
theorem exists_wordRuns_append_words {u : Text} (words : ∀ c ∈ u, isWord c = true) (s : Text) :
    ∃ front last, wordRuns s = front ++ [last] ∧ wordRuns (s ++ u) = front ++ [last ++ u] := by
  induction s with
  | nil => exact ⟨[], [], rfl, wordRuns_of_words words⟩
  | cons c s ih =>
      rcases ih with ⟨front, last, runs, longer⟩
      cases word : isWord c with
      | false =>
          refine ⟨[] :: front, last, ?_, ?_⟩
          · rw [wordRuns_cons_of_not word, runs]
            rfl
          · rw [List.cons_append, wordRuns_cons_of_not word, longer]
            rfl
      | true =>
          cases front with
          | nil =>
              exact ⟨[], c :: last, wordRuns_cons_of_word word runs,
                wordRuns_cons_of_word word longer⟩
          | cons first front =>
              exact ⟨(c :: first) :: front, last, wordRuns_cons_of_word word runs,
                wordRuns_cons_of_word word longer⟩

section Word

variable {w : Text} (nonempty : w ≠ [])
include nonempty

theorem mentions_nil : mentions [] w = false := by
  simp [mentions, wordRuns_nil, nonempty]

omit nonempty in
theorem mentions_append_cons {c : Char} (other : isWord c = false) (s t : Text) :
    mentions (s ++ c :: t) w = (mentions s w || mentions t w) := by
  simp [mentions, wordRuns_append s other]

/-- Two texts in a row mention what one of them mentions, if no word goes across the
place between them. -/
theorem mentions_append {s t : Text}
    (edge : s.getLast?.any isWord = false ∨ t.head?.any isWord = false) :
    mentions (s ++ t) w = (mentions s w || mentions t w) := by
  rcases edge with last | head
  · rcases List.eq_nil_or_concat s with rfl | ⟨s, c, rfl⟩
    · simp [mentions_nil nonempty]
    · have other : isWord c = false := by simpa using last
      have parted : mentions (s ++ c :: []) w = _ := mentions_append_cons other s []
      rw [mentions_nil nonempty, Bool.or_false] at parted
      have whole : s.concat c ++ t = s ++ c :: t := by simp
      rw [whole, mentions_append_cons other, List.concat_eq_append, parted]
  · cases t with
    | nil => simp [mentions_nil nonempty]
    | cons c t =>
        have parted : mentions ([] ++ c :: t) w = _ := mentions_append_cons head [] t
        rw [mentions_nil nonempty, Bool.false_or, List.nil_append] at parted
        rw [mentions_append_cons head, parted]

theorem not_mentions_append {s t : Text}
    (edge : s.getLast?.any isWord = false ∨ t.head?.any isWord = false)
    (first : mentions s w = false) (second : mentions t w = false) :
    mentions (s ++ t) w = false := by
  rw [mentions_append nonempty edge, first, second]
  rfl

omit nonempty in
theorem not_mentions_append_cons {c : Char} (other : isWord c = false) {s t : Text}
    (first : mentions s w = false) (second : mentions t w = false) :
    mentions (s ++ c :: t) w = false := by
  rw [mentions_append_cons other, first, second]
  rfl

/-- Between two texts, one that begins and ends with other characters parts the words. -/
theorem not_mentions_between {s : Text} (between : Text) {t : Text} (some : between ≠ [])
    (front : between.head?.any isWord = false) (back : between.getLast?.any isWord = false)
    (first : mentions s w = false) (middle : mentions between w = false)
    (second : mentions t w = false) :
    mentions (s ++ between ++ t) w = false := by
  have back' : (s ++ between).getLast?.any isWord = false := by
    rcases List.eq_nil_or_concat between |>.resolve_left some with ⟨front', c, rfl⟩
    simpa using back
  exact not_mentions_append nonempty (.inl back')
    (not_mentions_append nonempty (.inr front) first middle) second

/-- Other characters mention nothing. -/
theorem not_mentions_of_others {t : Text} (others : ∀ c ∈ t, isWord c = false) :
    mentions t w = false := by
  induction t with
  | nil => exact mentions_nil nonempty
  | cons c t ih =>
      exact not_mentions_append_cons (others c List.mem_cons_self) (s := []) (mentions_nil nonempty)
        (ih fun d member => others d (List.mem_cons_of_mem c member))

/-- Other characters in front of a text add nothing to what it mentions. -/
theorem mentions_others_append (gap : Text) (others : ∀ c ∈ gap, isWord c = false) (t : Text) :
    mentions (gap ++ t) w = mentions t w := by
  have edge : gap.getLast?.any isWord = false := by
    cases last : gap.getLast? with
    | none => rfl
    | some c => exact others c (List.mem_of_getLast? last)
  rw [mentions_append nonempty (.inl edge), not_mentions_of_others nonempty others, Bool.false_or]

/-- What a part mentions, the whole mentions, if no word goes across the ends of the
part. -/
theorem not_mentions_of_infix {a s b : Text} (before : a.getLast?.any isWord = false)
    (behind : b.head?.any isWord = false) (absent : mentions (a ++ (s ++ b)) w = false) :
    mentions s w = false := by
  rw [mentions_append nonempty (.inl before), mentions_append nonempty (.inr behind),
    Bool.or_eq_false_iff, Bool.or_eq_false_iff] at absent
  exact absent.2.1

omit nonempty in
/-- Word characters that do not begin the word may stand in front of a text. -/
theorem not_mentions_words_append {u t : Text} (words : ∀ c ∈ u, isWord c = true)
    (other : ¬ u <+: w) (absent : mentions t w = false) : mentions (u ++ t) w = false := by
  rcases exists_wordRuns_words_append words t with ⟨first, rest, runs, longer⟩
  have apart : u ++ first ≠ w := fun equal => other ⟨first, equal⟩
  simp only [mentions, runs, longer, List.contains_cons, Bool.or_eq_false_iff] at absent ⊢
  exact ⟨by simpa using Ne.symm apart, absent.2⟩

omit nonempty in
/-- Word characters that do not end the word may stand behind a text. -/
theorem not_mentions_append_words {u s : Text} (words : ∀ c ∈ u, isWord c = true)
    (other : ¬ u <:+ w) (absent : mentions s w = false) : mentions (s ++ u) w = false := by
  rcases exists_wordRuns_append_words words s with ⟨front, last, runs, longer⟩
  have apart : last ++ u ≠ w := fun equal => other ⟨last, equal⟩
  simp only [mentions, runs, longer, List.contains_eq_mem, List.mem_append, List.mem_singleton,
    decide_eq_false_iff_not, not_or] at absent ⊢
  exact ⟨absent.1, Ne.symm apart⟩

omit nonempty in
/-- A word is no longer one behind further word characters, as many as it has. -/
theorem not_mentions_longer {u s : Text} (words : ∀ c ∈ u, isWord c = true)
    (last : s.getLast?.any isWord = true) (longer : w.length ≤ u.length)
    (absent : mentions s w = false) : mentions (s ++ u) w = false := by
  rcases List.eq_nil_or_concat s with rfl | ⟨s, c, rfl⟩
  · cases last
  have word : ∀ d ∈ [c], isWord d = true := fun d member => by
    rw [List.mem_singleton.mp member]
    simpa using last
  rcases exists_wordRuns_append_words word s with ⟨front, run, -, runs⟩
  rcases exists_wordRuns_append_words words (s ++ [c]) with ⟨front', run', runs', whole⟩
  rcases List.append_inj' (runs'.symm.trans runs) rfl with ⟨rfl, same⟩
  have apart : w ≠ run' ++ u := fun equal => by
    have size := congrArg List.length equal
    rw [(List.cons.inj same).1] at size
    simp only [List.length_append, List.length_singleton] at size
    omega
  simp only [mentions, List.concat_eq_append, runs', whole, List.contains_eq_mem, List.mem_append,
    List.mem_singleton, decide_eq_false_iff_not, not_or] at absent ⊢
  exact ⟨absent.1, apart⟩

end Word

end Text
end Testwright
