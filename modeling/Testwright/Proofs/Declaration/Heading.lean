import Testwright.Proofs.Declaration.Keyword
import Testwright.Proofs.Matcher.Repetition
import Testwright.Proofs.Text.Areas

namespace Testwright
namespace Lexeme

/-!
# Words in front of a declaration

A declaration begins with keywords, each with a blank behind it: the modifiers
of a method, the visibility of a constructor, `public` and `class`.  `led` puts
such words in front of lexemes.  Which of them a reader finds in a spelling, and
where a reader that takes them all stops, is settled here once for every kind of
declaration.
-/

open Character (isBlank isDottedPart isNamePart)
open Matcher (Reads Stops)
open Text (Blank Visible)

/-- The lexemes behind words, with a blank in front of each word and of the
first lexeme. -/
def led (words : List Text) (rest : List Lexeme) : List Lexeme :=
  words.map behindBlank ++ partFirst rest

@[simp] theorem led_nil (rest : List Lexeme) : led [] rest = partFirst rest := rfl

@[simp] theorem led_cons (w : Text) (words : List Text) (rest : List Lexeme) :
    led (w :: words) rest = behindBlank w :: led words rest := rfl

theorem led_append (words words' : List Text) (rest : List Lexeme) :
    led (words ++ words') rest = words.map behindBlank ++ led words' rest := by
  simp [led]

theorem head_led {words : List Text} {rest : List Lexeme} :
    ∀ l ∈ (led words rest).head?, l.apart = true := by
  cases words with
  | nil =>
      cases rest with
      | nil => simp [partFirst]
      | cons l rest => simp [partFirst]
  | cons w words => simp

theorem led_ne_nil {words : List Text} {rest : List Lexeme} (some : rest ≠ []) :
    led words rest ≠ [] := by
  obtain ⟨l, rest, rfl⟩ := List.exists_cons_of_ne_nil some
  cases words with
  | nil => simp [partFirst]
  | cons w words => simp

theorem exists_freeFirst {lexemes : List Lexeme} (some : lexemes ≠ []) :
    ∃ first more, freeFirst lexemes = first :: more ∧ first.apart = false := by
  obtain ⟨l, lexemes, rfl⟩ := List.exists_cons_of_ne_nil some
  exact ⟨near l.text, lexemes, rfl, rfl⟩

theorem map_text_freeFirst (lexemes : List Lexeme) :
    (freeFirst lexemes).map Lexeme.text = lexemes.map Lexeme.text := by
  cases lexemes with
  | nil => rfl
  | cons l lexemes => rfl

theorem map_text_partFirst (lexemes : List Lexeme) :
    (partFirst lexemes).map Lexeme.text = lexemes.map Lexeme.text := by
  cases lexemes with
  | nil => rfl
  | cons l lexemes => rfl

theorem map_text_led (words : List Text) (rest : List Lexeme) :
    (led words rest).map Lexeme.text = words ++ rest.map Lexeme.text := by
  simp [led, map_text_partFirst, Function.comp_def]

/-- What holds of words and lexemes holds of the words in front of the lexemes. -/
theorem forall_mem_freeFirst_led {P : Text → Prop} {words : List Text} {rest : List Lexeme}
    (inWords : ∀ w ∈ words, P w) (inRest : ∀ l ∈ rest, P l.text) :
    ∀ l ∈ freeFirst (led words rest), P l.text := by
  have texts : ∀ x ∈ (freeFirst (led words rest)).map Lexeme.text, P x := by
    rw [map_text_freeFirst, map_text_led]
    refine List.forall_mem_append.mpr ⟨inWords, fun x member => ?_⟩
    obtain ⟨l, inList, rfl⟩ := List.mem_map.mp member
    exact inRest l inList
  exact fun l member => texts l.text (List.mem_map_of_mem member)

theorem isWord_of_isKeyword {w : Text} (keyword : IsKeyword w) : IsWord (behindBlank w) :=
  ⟨keyword.1, fun c member => Character.isDottedPart_of_isNamePart (keyword.2 c member)⟩

theorem IsSound.partFirst {lexemes : List Lexeme} (h : IsSound lexemes) :
    IsSound (partFirst lexemes) := by
  cases lexemes with
  | nil => exact h
  | cons l lexemes =>
      refine ⟨List.forall_mem_cons.mpr ⟨h.kinds l List.mem_cons_self, h.tail.kinds⟩, ?_⟩
      cases lexemes with
      | nil => exact List.isChain_singleton _
      | cons second lexemes =>
          obtain ⟨loose, chain⟩ := List.isChain_cons_cons.mp h.chain
          exact List.isChain_cons_cons.mpr ⟨loose, chain⟩

theorem isSound_led {words : List Text} {rest : List Lexeme} (keywords : ∀ w ∈ words, IsKeyword w)
    (sound : IsSound rest) : IsSound (led words rest) := by
  induction words with
  | nil => exact sound.partFirst
  | cons w words ih =>
      have others := ih fun w' member => keywords w' (List.mem_cons_of_mem w member)
      have first : IsSound [behindBlank w] :=
        isSound_singleton (Or.inl (isWord_of_isKeyword (keywords w List.mem_cons_self)))
      exact first.append others fun a _ b head => Or.inl (head_led b head)

/-- Behind a space the first lexeme has the blank that it needs. -/
theorem Spelled.behind_space {lexemes : List Lexeme} {t : Text}
    (h : Spelled (Lexeme.freeFirst lexemes) t) (some : lexemes ≠ []) :
    Spelled lexemes (' ' :: t) := by
  obtain ⟨l, lexemes, rfl⟩ := List.exists_cons_of_ne_nil some
  obtain ⟨gap, rest, rfl, blank, -, others⟩ := h
  exact ⟨' ' :: gap, rest, rfl, (Text.blank_singleton (by decide)).append blank, by simp, others⟩

theorem Spelled.blankFirst {lexemes : List Lexeme} {t : Text} (h : Spelled lexemes t)
    (apart : ∀ l ∈ lexemes.head?, l.apart = true) (some : lexemes ≠ []) : BlankFirst t := by
  obtain ⟨l, lexemes, rfl⟩ := List.exists_cons_of_ne_nil some
  obtain ⟨gap, rest, rfl, blank, needed, -⟩ := h
  exact blankFirst_append blank (needed (apart l rfl)) _

/-! ## Whether a word is among them -/

/-- Nothing, or a text that a blank ends. -/
def BlankLast (x : Text) : Prop :=
  x = [] ∨ ∃ x' b, x = x' ++ [b] ∧ isBlank b = true

/-- A text is blank, or it has a last word, in front of which there is nothing or a
blank. -/
theorem blank_or_exists_last (t : Text) :
    Blank t ∨ ∃ x w gap, t = x ++ (w ++ gap) ∧ BlankLast x ∧ Visible w ∧ w ≠ [] ∧ Blank gap := by
  induction t using List.reverseRecOn with
  | nil => exact Or.inl Text.blank_nil
  | append_singleton t c ih =>
      cases shown : isBlank c with
      | true =>
          rcases ih with blank | ⟨x, w, gap, rfl, edge, visible, some, blank⟩
          · exact Or.inl (blank.append (Text.blank_singleton shown))
          · exact Or.inr ⟨x, w, gap ++ [c], by simp, edge, visible, some,
              blank.append (Text.blank_singleton shown)⟩
      | false =>
          have alone : Visible [c] := List.forall_mem_singleton.mpr shown
          rcases ih with blank | ⟨x, w, gap, rfl, edge, visible, some, blank⟩
          · refine Or.inr ⟨t, [c], [], by simp, ?_, alone, by simp, Text.blank_nil⟩
            cases t using List.reverseRecOn with
            | nil => exact Or.inl rfl
            | append_singleton t d => exact Or.inr ⟨t, d, rfl, blank d (by simp)⟩
          · -- the character goes on with the last word, or begins a new one
            cases gap using List.reverseRecOn with
            | nil => exact Or.inr ⟨x, w ++ [c], [], by simp, edge,
                List.forall_mem_append.mpr ⟨visible, alone⟩, by simp, Text.blank_nil⟩
            | append_singleton gap d => exact Or.inr ⟨x ++ (w ++ (gap ++ [d])), [c], [], by simp,
                Or.inr ⟨x ++ (w ++ gap), d, by simp, blank d (by simp)⟩, alone, by simp,
                Text.blank_nil⟩

/-- The last word is the last one of the words. -/
theorem words_of_blankLast {x w gap : Text} (edge : BlankLast x)
    (visible : Visible w) (some : w ≠ []) (blank : Blank gap) :
    Text.words (x ++ (w ++ gap)) = Text.words x ++ [w] := by
  rcases edge with rfl | ⟨x, c, rfl, isBlank⟩
  · rw [List.nil_append, Text.words_append_right blank, Text.words_of_visible visible some]
    rfl
  · have single : Blank [c] := Text.blank_singleton isBlank
    rw [List.append_assoc, Text.words_append single (by simp), Text.words_append_right blank,
      Text.words_of_visible visible some, Text.words_append_right single]

/-- A text that has words ends with one of them. -/
theorem exists_blankLast {t : Text} (some : Text.words t ≠ []) :
    ∃ x w gap, t = x ++ (w ++ gap) ∧ BlankLast x ∧ Visible w ∧ w ≠ [] ∧ Blank gap := by
  refine (blank_or_exists_last t).resolve_left fun blank => some ?_
  simpa [Text.words, Text.splitOn] using Text.words_append_of_blank blank []

/-- A word with blanks behind it, and in front of it blanks or the start of the text, is
one of the words. -/
theorem words_append_word {x gap w gap' : Text} (blank : Blank gap) (edge : gap = [] → x = [])
    (visible : Visible w) (nonempty : w ≠ []) (blank' : Blank gap') (some : gap' ≠ []) (z : Text) :
    Text.words (x ++ (gap ++ (w ++ gap') ++ z)) = Text.words x ++ w :: Text.words z := by
  have alone : Text.words (w ++ (gap' ++ z)) = w :: Text.words z := by
    rw [Text.words_append blank' some, Text.words_of_visible visible nonempty]
    rfl
  have shape : gap ++ (w ++ gap') ++ z = gap ++ (w ++ (gap' ++ z)) := by simp
  rw [shape]
  by_cases none : gap = []
  · rw [edge none, none, List.nil_append, List.nil_append, alone]
    rfl
  · rw [Text.words_append blank none, alone]

/-- What can be read behind a blank, or at the start of the text, is found there. -/
theorem occursIn_of_blankLast {later : Matcher Unit} {x y : Text} (before : BlankLast x)
    (reads : ∀ behind, later ⟨behind, y⟩ ≠ []) :
    (do Matcher.orElse Matcher.textStart (Matcher.one isBlank); later : Matcher Unit).occursIn
      (x ++ y) =
      true := by
  rcases before with rfl | ⟨x, b, rfl, blankB⟩
  · refine Matcher.occursIn_iff.mpr ⟨[], y, rfl, ?_⟩
    obtain ⟨⟨⟨⟩, later⟩, rest, readings⟩ := List.exists_cons_of_ne_nil (reads [])
    have first : Reads (Matcher.orElse Matcher.textStart (Matcher.one isBlank)) ⟨[], y⟩
        () ⟨[], y⟩ :=
      Reads.orElse_left (Reads.of_eq_cons rfl)
    exact (first.bind (Reads.of_eq_cons readings)).ne_nil
  · refine Matcher.occursIn_iff.mpr ⟨x, b :: y, by simp, ?_⟩
    obtain ⟨reading, rest, readings⟩ := List.exists_cons_of_ne_nil (reads (b :: x.reverse))
    have taken : reading ∈ (do Matcher.orElse Matcher.textStart (Matcher.one isBlank); later :
        Matcher Unit) ⟨x.reverse, b :: y⟩ := by
      refine Matcher.mem_bind.mpr ⟨(), ⟨b :: x.reverse, y⟩, ?_, ?_⟩
      · exact Matcher.mem_orElse.mpr (Or.inr (by simp [Matcher.one_of_true blankB]))
      · rw [readings]
        exact List.mem_cons_self
    intro none
    rw [none] at taken
    cases taken

theorem occursIn_blankDelimited_append {w x y : Text} {c : Char} (before : BlankLast x)
    (blank : isBlank c = true) :
    (Matcher.blankDelimited w).occursIn (x ++ (w ++ c :: y)) = true := by
  refine occursIn_of_blankLast before fun behind => ?_
  rw [Matcher.bind_of_single (Matcher.word_append _ _ _), Matcher.one_of_true blank]
  simp

/-- A keyword shows in front of a declaration, or of blanks, if it is one of the
words there. -/
theorem occursIn_blankDelimited {words : List Text} {rest : List Lexeme} {w : Text}
    (keywords : ∀ w ∈ words, IsKeyword w) (keyword : IsKeyword w) (sound : IsSound rest)
    (free : ∀ l ∈ rest, l.text ≠ w) {t gap : Text}
    (spelled : Spelled (freeFirst (led words rest)) t) (blank : Blank gap)
    (ends : words ≠ [] → rest ≠ [] ∨ gap ≠ []) :
    (Matcher.blankDelimited w).occursIn (t ++ gap) = words.contains w := by
  by_cases member : w ∈ words
  · rw [List.contains_iff_mem.mpr member]
    have ends' := ends (List.ne_nil_of_mem member)
    obtain ⟨before, after, rfl⟩ := List.append_of_mem member
    have someLed : led (before ++ w :: after) rest ≠ [] := by simp [led_append]
    obtain ⟨a, _, shape, -, gap', r, rfl, blank', apart, others⟩ :=
      spelled_append.mp (led_append before (w :: after) rest ▸ spelled.behind_space someLed)
    have inLed : Spelled (led after rest) r := others
    obtain ⟨c, r', blankC, follows⟩ : BlankFirst (r ++ gap) := by
      by_cases some : led after rest = []
      · rw [some] at inLed
        cases inLed
        have noRest : rest = [] := Classical.byContradiction fun more => led_ne_nil more some
        simpa using blankFirst_append blank (ends'.resolve_left fun more => more noRest) []
      · obtain ⟨c, r', blankC, rfl⟩ := inLed.blankFirst head_led some
        exact ⟨c, r' ++ gap, blankC, rfl⟩
    obtain ⟨gap', b, rfl⟩ : ∃ gap'' b, gap' = gap'' ++ [b] :=
      ⟨_, _, (List.dropLast_concat_getLast (apart rfl)).symm⟩
    have blankB : isBlank b = true := blank' b (by simp)
    have whole : ' ' :: (t ++ gap) = (a ++ gap') ++ [b] ++ (w ++ c :: r') := by
      rw [← follows, ← List.cons_append, shape]
      simp
    cases front : a ++ gap' with
    | nil =>
        rw [front] at whole
        obtain ⟨-, same⟩ := List.cons.inj whole
        rw [same]
        exact occursIn_blankDelimited_append (Or.inl rfl) blankC
    | cons d x =>
        rw [front] at whole
        obtain ⟨-, same⟩ := List.cons.inj whole
        rw [same]
        exact occursIn_blankDelimited_append (Or.inr ⟨x, b, rfl, blankB⟩) blankC
  · rw [Bool.eq_false_iff.mpr fun found => member (List.contains_iff_mem.mp found)]
    refine occursIn_of_free (seeks_blankDelimited w) (by simpa using keyword)
      (isSound_led keywords sound).freeFirst ?_ spelled blank
    refine forall_mem_freeFirst_led (P := fun x => x ∉ [w])
      (fun x found same => ?_) fun l found same => ?_
    · rw [List.mem_singleton.mp same] at found
      exact member found
    · exact free l found (List.mem_singleton.mp same)

/-- The visibility that words in front of a declaration show. -/
def visibilityOf (implied : Visibility) (words : List Text) : Visibility :=
  if words.contains "public".toList then Visibility.publicAccess
  else if words.contains "protected".toList then Visibility.protectedAccess
  else if words.contains "private".toList then Visibility.privateAccess
  else implied

theorem ofSignature_eq {implied : Visibility} {words : List Text} {t : Text}
    (shows : ∀ w ∈ Visibility.keywords, (Matcher.blankDelimited w).occursIn t = words.contains w) :
    Visibility.ofSignature implied t = visibilityOf implied words := by
  have showsPublic : Visibility.shows t "public".toList = _ := shows "public".toList (by decide)
  have showsProtected : Visibility.shows t "protected".toList = _ :=
    shows "protected".toList (by decide)
  have showsPrivate : Visibility.shows t "private".toList = _ := shows "private".toList (by decide)
  unfold Visibility.ofSignature visibilityOf Visibility.showsNone Visibility.showsPublic
    Visibility.showsProtected Visibility.showsPrivate
  rw [showsPublic, showsProtected, showsPrivate]
  cases words.contains "public".toList with
  | true => rfl
  | false =>
      cases words.contains "protected".toList with
      | true => rfl
      | false =>
          cases words.contains "private".toList with
          | true => rfl
          | false => rfl

/-- What stands in front of the last lexeme of a heading ends with a blank. -/
theorem exists_last_word {words : List Text} {rest : List Lexeme} {l : Lexeme}
    (apart : rest ≠ [] → l.apart = true) {s : Text}
    (spelled : Spelled (freeFirst (led words (rest ++ [l]))) s) :
    ∃ x, s = x ++ l.text ∧ BlankLast x := by
  obtain ⟨front, last, whole, text, isApart⟩ : ∃ front last,
    led words (rest ++ [l]) = front ++ [last] ∧
      last.text = l.text ∧ last.apart = true := by
    cases rest with
    | nil => exact ⟨words.map behindBlank, behindBlank l.text, rfl, rfl, rfl⟩
    | cons first rest =>
        exact ⟨led words (first :: rest), l, by simp [led, partFirst], rfl, apart (by simp)⟩
  have spaced := spelled.behind_space (led_ne_nil (by simp))
  rw [whole] at spaced
  obtain ⟨a, _, shape, -, final⟩ := spelled_append.mp spaced
  obtain ⟨gap, rfl, blank, needed⟩ := spelled_singleton.mp final
  obtain ⟨gap, b, rfl⟩ : ∃ gap' b, gap = gap' ++ [b] :=
    ⟨_, _, (List.dropLast_concat_getLast (needed isApart)).symm⟩
  have blankB : isBlank b = true := blank b (by simp)
  have parted : ' ' :: s = (a ++ gap) ++ [b] ++ l.text := by simpa [text] using shape
  cases before : a ++ gap with
  | nil =>
      rw [before] at parted
      obtain ⟨-, rfl⟩ := List.cons.inj parted
      exact ⟨[], rfl, Or.inl rfl⟩
  | cons d x =>
      rw [before] at parted
      obtain ⟨-, rfl⟩ := List.cons.inj parted
      exact ⟨x ++ [b], by simp, Or.inr ⟨x, b, rfl, blankB⟩⟩

/-! ## Taking visibility out -/

theorem freeFirst_append {first second : List Lexeme} (some : first ≠ []) :
    freeFirst (first ++ second) = freeFirst first ++ second := by
  obtain ⟨l, first, rfl⟩ := List.exists_cons_of_ne_nil some
  rfl

theorem led_append_right (words : List Text) {rest : List Lexeme} (some : rest ≠ [])
    (more : List Lexeme) : led words (rest ++ more) = led words rest ++ more := by
  obtain ⟨l, rest, rfl⟩ := List.exists_cons_of_ne_nil some
  simp [led, partFirst]

/-- The words that are no keywords of visibility. -/
def unseen (words : List Text) : List Text :=
  words.filter fun w => !Visibility.keywords.contains w

theorem not_mem_visibility_led {words : List Text} {rest : List Lexeme}
    (none : words.filter Visibility.keywords.contains = [])
    (free : ∀ l ∈ rest, l.text ∉ Visibility.keywords) :
    ∀ l ∈ led words rest, l.text ∉ Visibility.keywords := by
  have texts : ∀ x ∈ (led words rest).map Lexeme.text, x ∉ Visibility.keywords := by
    rw [map_text_led]
    intro x member isVisibility
    rcases List.mem_append.mp member with inWords | inRest
    · have found : x ∈ words.filter Visibility.keywords.contains := by simp [inWords, isVisibility]
      rw [none] at found
      cases found
    · obtain ⟨l, inList, rfl⟩ := List.mem_map.mp inRest
      exact free l inList isVisibility
  exact fun l member => texts l.text (List.mem_map_of_mem member)

theorem unseen_eq_self {words : List Text} (none : words.filter Visibility.keywords.contains = []) :
    unseen words = words := by
  apply List.filter_eq_self.mpr
  intro w member
  cases found : Visibility.keywords.contains w with
  | false => rfl
  | true =>
      have inFilter : w ∈ words.filter Visibility.keywords.contains :=
        List.mem_filter.mpr ⟨member, found⟩
      rw [none] at inFilter
      cases inFilter

/-- Without the keyword of visibility a declaration is one with the other words
in front. -/
theorem replaceAll_visibilityWord_led {words : List Text} {rest : List Lexeme} {t : Text}
    (keywords : ∀ w ∈ words, IsKeyword w) (sound : IsSound rest) (some : rest ≠ [])
    (free : ∀ l ∈ rest, l.text ∉ Visibility.keywords)
    (single : (words.filter Visibility.keywords.contains).length ≤ 1)
    (spelled : Spelled (freeFirst (led words rest)) t) :
    Spelled (freeFirst (led (unseen words) rest)) (Matcher.visibilityWord.replaceAll [' '] t) := by
  have soundLed : ∀ {words' : List Text}, (∀ w ∈ words', w ∈ words) → IsSound (led words' rest) :=
    fun subset => isSound_led (fun w member => keywords w (subset w member)) sound
  by_cases shown : ∃ v ∈ words, v ∈ Visibility.keywords
  · obtain ⟨v, member, isVisibility⟩ := shown
    obtain ⟨before, after, rfl⟩ := List.append_of_mem member
    have seen : Visibility.keywords.contains v = true := by simpa using isVisibility
    rw [List.filter_append, List.filter_cons_of_pos seen, List.length_append,
      List.length_cons] at single
    have noneBefore : before.filter Visibility.keywords.contains = [] :=
      List.length_eq_zero_iff.mp (by omega)
    have noneAfter : after.filter Visibility.keywords.contains = [] :=
      List.length_eq_zero_iff.mp (by omega)
    have others : unseen (before ++ v :: after) = before ++ after := by
      have dropped : unseen (v :: after) = unseen after := by simp [unseen, isVisibility]
      rw [unseen, List.filter_append]
      exact congrArg₂ _ (unseen_eq_self noneBefore) (dropped.trans (unseen_eq_self noneAfter))
    have someAfter : led after rest ≠ [] := led_ne_nil some
    obtain ⟨l, more, shape⟩ := List.exists_cons_of_ne_nil someAfter
    have apartAfter : ∃ l more, led after rest = l :: more ∧ l.apart = true :=
      ⟨l, more, shape, head_led l (by rw [shape]; rfl)⟩
    have freeAfter := not_mem_visibility_led noneAfter free
    rw [others]
    cases before with
    | nil =>
        have soundBehind : IsSound (led (v :: after) rest) := soundLed fun w member => member
        have soundAll : IsSound ([] ++ near v :: led after rest) := soundBehind.freeFirst
        have spelled' : Spelled ([] ++ near v :: led after rest) t := spelled
        have taken :=
          replaceAll_visibilityWord soundAll isVisibility (by simp) freeAfter (Or.inl rfl)
          apartAfter spelled'
        exact taken.freeFirst
    | cons b before =>
        have parted : freeFirst (led (b :: before ++ v :: after) rest) =
            (near b :: before.map behindBlank) ++ behindBlank v :: led after rest := by
          rw [led_append]
          rfl
        have whole : (near b :: before.map behindBlank) ++ led after rest =
            freeFirst (led (b :: before ++ after) rest) := by
          rw [led_append]
          rfl
        have soundAll := (soundLed fun w member => member).freeFirst
        rw [parted] at soundAll spelled
        have freeBefore : ∀ l ∈ near b :: before.map behindBlank, l.text ∉ Visibility.keywords := by
          have free' : ∀ l ∈ led (b :: before) [], l.text ∉ Visibility.keywords :=
            not_mem_visibility_led noneBefore (by simp)
          simpa [led, Lexeme.partFirst] using free'
        have taken :=
          replaceAll_visibilityWord soundAll isVisibility freeBefore freeAfter (Or.inr rfl)
          apartAfter spelled
        rwa [whole] at taken
  · have none : words.filter Visibility.keywords.contains = [] := by
      rw [List.filter_eq_nil_iff]
      intro w member seen
      exact shown ⟨w, member, by simpa using seen⟩
    rw [unseen_eq_self none,
      replaceAll_visibilityWord_of_free (soundLed fun w member => member).freeFirst
      ?_ spelled]
    · exact spelled
    · have texts : ∀ x ∈ (freeFirst (led words rest)).map Lexeme.text, x ∉ Visibility.keywords := by
        rw [map_text_freeFirst]
        intro x member
        obtain ⟨l, inList, rfl⟩ := List.mem_map.mp member
        exact not_mem_visibility_led none free l inList
      exact fun l member => texts l.text (List.mem_map_of_mem member)

/-! ## Taking them all -/

/-- Words of which none begins another. -/
structure AreDistinct (choices : List Text) : Prop where
  keywords : ∀ w ∈ choices, IsKeyword w
  nodup : choices.Nodup
  apart : ∀ w ∈ choices, ∀ w' ∈ choices, w' ≠ w → ¬ w' <+: w ∧ ¬ w <+: w'

theorem areDistinct_visibility : AreDistinct Visibility.keywords where
  keywords := isKeyword_visibility
  nodup := by decide
  apart := by decide

theorem areDistinct_qualifiers : AreDistinct Matcher.qualifiers where
  keywords := by decide
  nodup := by decide
  apart := by decide

/-- One of the words, and the blanks behind it. -/
def choice (choices : List Text) : Matcher Unit :=
  Matcher.anyOf choices >>= fun _ => Matcher.run1 isBlank

theorem consumes_choice (choices : List Text) : Matcher.Consumes (choice choices) :=
  Matcher.Consumes.bind_right (Matcher.keeps_anyOf choices) fun _ => Matcher.consumes_run1 isBlank

theorem choice_append {choices : List Text} (distinct : AreDistinct choices) {w gap t : Text}
    (isChoice : w ∈ choices) (blank : Blank gap) (nonempty : gap ≠ []) (stops : Stops isBlank t)
    (behind : Text) :
    choice choices ⟨behind, w ++ (gap ++ t)⟩ =
      [((), ⟨gap.reverse ++ (w.reverse ++ behind), t⟩)] := by
  unfold choice
  rw [Matcher.bind_of_single (Matcher.anyOf_append isChoice distinct.nodup
      (distinct.apart w isChoice) _ _),
    Matcher.run1_append blank nonempty stops]

/-- A lexeme that is no choice is not taken. -/
theorem choice_eq_nil {choices : List Text} (distinct : AreDistinct choices) {l : Lexeme} {r : Text}
    (kind : IsWord l ∨ IsMark l) (stops : IsMark l ∨ Stops isNamePart r) (other : l.text ∉ choices)
    (behind : Text) : choice choices ⟨behind, l.text ++ r⟩ = [] := by
  apply ((Matcher.takes_anyOf choices).bind fun _ => Matcher.takes_run1 isBlank).eq_nil
  rintro _ t same ⟨w, gap, rfl, isChoice, nonempty, blank⟩
  obtain ⟨c, gap, rfl⟩ := List.exists_cons_of_ne_nil nonempty
  have ends := Character.not_isDottedPart_of_isBlank (blank c List.mem_cons_self)
  have shape : l.text ++ r = w ++ c :: (gap ++ t) := by simpa using same
  rw [eq_of_front kind stops (distinct.keywords w isChoice) ends shape] at other
  exact other isChoice

section

variable {choices : List Text} (distinct : AreDistinct choices) {words : List Text}
  (areChoices : ∀ w ∈ words, w ∈ choices) {first : Lexeme} {more : List Lexeme}
  (other : first.text ∉ choices) (sound : IsSound (first :: more)) {t : Text}
  (spelled : Spelled (led words (first :: more)) t)
include distinct areChoices other sound spelled

/-- A reader that takes all the words in front of a declaration stops at its
first lexeme, whatever stands behind the declaration. -/
theorem exists_lead_before {u : Text}
    (final : ∀ last ∈ (first :: more).getLast?, IsMark last ∨ Stops isNamePart u) :
    ∃ gap lead r, t = gap ++ (lead ++ (first.text ++ r)) ∧ Blank gap ∧ gap ≠ [] ∧
      Stops isBlank (lead ++ (first.text ++ (r ++ u))) ∧ Spelled more r ∧
      (∃ s gap', lead = s ++ gap' ∧ Spelled (freeFirst (words.map behindBlank)) s ∧ Blank gap' ∧
        (words ≠ [] → gap' ≠ [])) ∧
      ∀ behind, Reads (Matcher.many (choice choices)) ⟨behind, lead ++ (first.text ++ (r ++ u))⟩ ()
        ⟨lead.reverse ++ behind, first.text ++ (r ++ u)⟩ := by
  induction words generalizing t with
  | nil =>
      obtain ⟨gap, r, rfl, blank, needed, others⟩ := spelled
      have visible := isVisible_of_kind (sound.kinds first List.mem_cons_self)
      exact ⟨gap, [], r, rfl, blank, needed rfl, stops_of_visible visible (r ++ u), others,
        ⟨[], [], rfl, rfl, Text.blank_nil, by simp⟩, fun behind => Reads.many_stop
          (choice_eq_nil distinct (sound.kinds first List.mem_cons_self)
            (sound.stops others final) other behind)⟩
  | cons w words ih =>
      obtain ⟨gap, rest, rfl, blank, needed, others⟩ := spelled
      have isChoice := areChoices w List.mem_cons_self
      have keyword := distinct.keywords w isChoice
      obtain ⟨gap', lead, r, rfl, blank', nonempty', stops, inMore,
        ⟨s, gap'', rfl, inWords, blank'', _⟩,
        reads⟩ := ih (fun w' member => areChoices w' (List.mem_cons_of_mem w member)) others
      refine ⟨gap, w ++ (gap' ++ (s ++ gap'')), r, by simp, blank, needed rfl, ?_, inMore, ?_,
        fun behind => ?_⟩
      · have visible := isVisible_of_kind (Or.inl (isWord_of_isKeyword keyword))
        simpa using stops_of_visible visible (gap' ++ (s ++ gap'') ++ (first.text ++ (r ++ u)))
      · cases words with
        | nil =>
            cases inWords
            exact ⟨w, gap' ++ gap'', by simp, ⟨[], [], by simp, Text.blank_nil, by simp, rfl⟩,
              blank'.append blank'', by simp [nonempty']⟩
        | cons w' words =>
            obtain ⟨gap₁, rest, rfl, blank₁, -, inRest⟩ := inWords
            refine ⟨w ++ (gap' ++ (gap₁ ++ (w' ++ rest))), gap'', by simp,
              ⟨[], _, rfl, Text.blank_nil, by simp, gap' ++ gap₁, rest, by simp,
                blank'.append blank₁, by simp [nonempty'], inRest⟩, blank'', by simp_all⟩
      · have step := choice_append distinct isChoice blank' nonempty' stops behind
        have place : (w ++ (gap' ++ (s ++ gap''))).reverse ++ behind =
            (s ++ gap'').reverse ++ (gap'.reverse ++ (w.reverse ++ behind)) := by simp
        have shape : w ++ (gap' ++ (s ++ gap'')) ++ (first.text ++ (r ++ u)) =
            w ++ (gap' ++ (s ++ gap'' ++ (first.text ++ (r ++ u)))) := by simp
        rw [shape, place]
        exact Reads.many_step (consumes_choice choices) (Reads.of_eq_cons step) (reads _)

theorem exists_lead :
    ∃ gap lead r, t = gap ++ (lead ++ (first.text ++ r)) ∧ Blank gap ∧ gap ≠ [] ∧
      Stops isBlank (lead ++ (first.text ++ r)) ∧ Spelled more r ∧
      (∃ s gap', lead = s ++ gap' ∧ Spelled (freeFirst (words.map behindBlank)) s ∧ Blank gap' ∧
        (words ≠ [] → gap' ≠ [])) ∧
      ∀ behind, Reads (Matcher.many (choice choices)) ⟨behind, lead ++ (first.text ++ r)⟩ ()
        ⟨lead.reverse ++ behind, first.text ++ r⟩ := by
  simpa only [List.append_nil] using
    exists_lead_before distinct areChoices other sound spelled (u := []) fun _ _ => Or.inr rfl

end

end Lexeme
end Testwright
