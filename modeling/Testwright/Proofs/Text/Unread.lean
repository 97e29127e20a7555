import Testwright.Proofs.Text.Continuation
import Testwright.Proofs.Text.Scanning
import Testwright.Source.ClassReader

namespace Testwright

/-!
# What a reader of sources does not see

A comment reads as a space with its line breaks behind it, and a literal reads as its
two quotes.  The scan writes the same for both texts in all cases but one: a comment
up to the end of its line leaves a space in front of the line feed.  No annotation ends
between that space and the line feed, and tidying takes the space away
(`tidyLines_dropAnnotations_of_looser`).
-/

open Character (isBlank isDottedPart)

/-! ## The scan -/

namespace Region

/-- What a step into code passes over was seen ahead. -/
theorem passed_le_of_step {region : Region} {c : Char} {t : Text}
    (inCode : (region.step c t).region = code) :
    (region.step c t).passed ≤ t.length := by
  cases region with
  | code =>
      simp only [step, stepInCode] at inCode ⊢
      split_ifs at inCode ⊢
      exact Nat.zero_le _
  | lineComment => exact Nat.zero_le _
  | blockComment =>
      simp only [step, stepInBlockComment] at inCode ⊢
      split_ifs with ending
      · exact List.length_pos_iff.mpr (by rintro rfl; cases ending.2)
      · exact Nat.zero_le _
  | string | character =>
      simp only [step, stepInLiteral] at inCode ⊢
      split_ifs at inCode ⊢ <;> exact Nat.zero_le _
  | textBlock =>
      simp only [step, stepInTextBlock] at inCode ⊢
      split_ifs at inCode ⊢ with _ ending
      · exact (List.isPrefixOf_iff_prefix.mp ending.2).length_le

/-- In code the scan has nothing pending. -/
theorem pending_eq_zero {region : Region} {pending : Nat} {t : Text}
    (present : region = code → pending ≤ t.length) (inCode : (after region pending t).1 = code) :
    (after region pending t).2 = 0 := by
  induction t generalizing region pending with
  | nil => exact Nat.le_zero.mp (present inCode)
  | cons c t ih =>
      cases pending with
      | succ pending => exact ih (fun same => Nat.le_of_succ_le_succ (present same)) inCode
      | zero => exact ih passed_le_of_step inCode

/-- A comment writes its line breaks, up to its first ending. -/
theorem blankOut_blockComment {t : Text} (unended : ¬ "*/".toList <:+: t) (u : Text) :
    blankOut blockComment 0 (t ++ ("*/".toList ++ u)) =
      t.filter (· == '\n') ++ blankOut code 0 u := by
  induction t with
  | nil => rfl
  | cons c t ih =>
      have rest : ¬ "*/".toList <:+: t :=
        fun inside => unended (inside.trans (List.suffix_cons c t).isInfix)
      have goesOn : ¬ (c = '*' ∧ (t ++ ("*/".toList ++ u)).head? = some '/') := by
        rintro ⟨rfl, slash⟩
        cases t with
        | nil => exact absurd slash (by simp)
        | cons d t =>
            rcases Option.some.inj slash with rfl
            exact unended ⟨[], t, rfl⟩
      rw [List.cons_append, blankOut, step, stepInBlockComment, if_neg goesOn, ih rest,
        List.filter_cons]
      by_cases feed : c = '\n' <;> simp [onlyBreak, feed]

theorem blankOut_lineComment {t : Text} (oneLine : '\n' ∉ t) (u : Text) :
    blankOut lineComment 0 (t ++ '\n' :: u) = '\n' :: blankOut code 0 u := by
  induction t with
  | nil => rfl
  | cons c t ih =>
      rw [List.mem_cons, not_or] at oneLine
      have other : c ≠ '\n' := Ne.symm oneLine.1
      rw [List.cons_append, blankOut]
      simpa [step, stepInLineComment, onlyBreak, other] using ih oneLine.2

/-- The contents of a literal between these quotes: neither the quote nor a line break,
and each backslash with the character behind it. -/
inductive IsContent (quote : Char) : Text → Prop
  | nil : IsContent quote []
  | plain {c : Char} {t : Text} (noQuote : c ≠ quote) (noEscape : c ≠ '\\') (noBreak : c ≠ '\n')
      (noReturn : c ≠ '\r') (rest : IsContent quote t) : IsContent quote (c :: t)
  | escaped {c : Char} {t : Text} (noBreak : c ≠ '\n') (noReturn : c ≠ '\r')
      (rest : IsContent quote t) :
      IsContent quote ('\\' :: c :: t)

theorem IsContent.not_mem_return {quote : Char} {t : Text} (h : IsContent quote t) : '\r' ∉ t := by
  induction h with
  | nil => exact List.not_mem_nil
  | plain noQuote noEscape noBreak noReturn rest ih => simp [Ne.symm noReturn, ih]
  | escaped noBreak noReturn rest ih => simp [Ne.symm noReturn, ih]

/-- Contents do not end the literal and write nothing. -/
theorem IsContent.blankOut_append {quote : Char} {t : Text} (h : IsContent quote t)
    {region : Region} (literal : ∀ c ahead, region.step c ahead = stepInLiteral region quote c)
    (u : Text) :
    blankOut region 0 (t ++ u) = blankOut region 0 u := by
  induction h with
  | nil => rfl
  | plain noQuote noEscape noBreak noReturn rest ih =>
      rw [List.cons_append, blankOut, literal, stepInLiteral, if_neg noEscape, if_neg noBreak,
        if_neg noQuote]
      exact ih
  | escaped noBreak noReturn rest ih =>
      rw [List.cons_append, List.cons_append, blankOut, literal, stepInLiteral, if_pos rfl]
      exact ih

end Region

namespace Text

open Matcher (Stops isParenthesis)

/-! ## Spaces in front of line feeds -/

/-- The second text is the first one without some spaces that a line feed follows. -/
inductive Looser : Text → Text → Prop
  | nil : Looser [] []
  | cons (c : Char) {t t' : Text} (rest : Looser t t') : Looser (c :: t) (c :: t')
  | space {t t' : Text} (feed : t.head? = some '\n') (rest : Looser t t') : Looser (' ' :: t) t'

namespace Looser

variable {s t t' : Text}

theorem refl : ∀ t : Text, Looser t t
  | [] => .nil
  | c :: t => .cons c (refl t)

theorem of_eq (h : t = t') : Looser t t' :=
  h ▸ refl t

theorem append_left (h : Looser t t') : ∀ s : Text, Looser (s ++ t) (s ++ t')
  | [] => h
  | c :: s => .cons c (append_left h s)

theorem mem_iff (h : Looser t t') {c : Char} (noSpace : c ≠ ' ') : c ∈ t ↔ c ∈ t' := by
  induction h with
  | nil => rfl
  | cons d rest ih => simp only [List.mem_cons, ih]
  | space feed rest ih => simp only [List.mem_cons, noSpace, false_or, ih]

theorem blank_iff (h : Looser t t') : Blank t ↔ Blank t' := by
  constructor
  · intro blank c member
    by_cases isSpace : c = ' '
    · simp [isSpace]
    · exact blank c ((h.mem_iff isSpace).mpr member)
  · intro blank c member
    by_cases isSpace : c = ' '
    · simp [isSpace]
    · exact blank c ((h.mem_iff isSpace).mp member)

/-- A visible front stays as it is. -/
theorem exists_of_append (shown : Visible s) (h : Looser (s ++ t) t') :
    ∃ u, t' = s ++ u ∧ Looser t u := by
  induction s generalizing t' with
  | nil => exact ⟨t', rfl, h⟩
  | cons c s ih =>
      cases h with
      | cons c rest =>
          rcases ih (fun d member => shown d (List.mem_cons_of_mem c member)) rest with
            ⟨u, rfl, looser⟩
          exact ⟨u, rfl, looser⟩
      | space feed rest => exact absurd (shown ' ' List.mem_cons_self) (by decide)

/-- In front of something visible, the parts of the text are loosened on their own. -/
theorem exists_parts {c : Char} (shown : isBlank c = false) (h : Looser (s ++ c :: t) t') :
    ∃ v u, t' = v ++ c :: u ∧ Looser s v ∧ Looser t u := by
  induction s generalizing t' with
  | nil =>
      rcases exists_of_append (s := [c]) (List.forall_mem_singleton.mpr shown) h with
        ⟨u, rfl, looser⟩
      exact ⟨[], u, rfl, .nil, looser⟩
  | cons d s ih =>
      cases h with
      | cons d rest =>
          rcases ih rest with ⟨v, u, rfl, first, second⟩
          exact ⟨d :: v, u, rfl, .cons d first, second⟩
      | space feed rest =>
          rcases ih rest with ⟨v, u, rfl, first, second⟩
          refine ⟨v, u, rfl, .space ?_ first, second⟩
          cases s with
          | nil =>
              rcases Option.some.inj feed with rfl
              exact absurd shown (by decide)
          | cons e s => exact feed

/-- The parts of the loosened text come from parts of the text. -/
theorem exists_origin {v u : Text} (h : Looser t (v ++ u)) :
    ∃ a b, t = a ++ b ∧ Looser a v ∧ Looser b u := by
  cases v with
  | nil => exact ⟨[], t, rfl, .nil, h⟩
  | cons d v =>
      generalize whole : d :: v ++ u = w at h
      induction h generalizing d v with
      | nil => cases whole
      | cons c rest ih =>
          rcases List.cons.inj whole with ⟨rfl, rfl⟩
          cases v with
          | nil => exact ⟨[d], _, rfl, .cons d .nil, rest⟩
          | cons e v =>
              rcases ih e v rfl with ⟨a, b, rfl, first, second⟩
              exact ⟨d :: a, b, rfl, .cons d first, second⟩
      | space feed rest ih =>
          rcases ih d v whole with ⟨a, b, rfl, first, second⟩
          cases a with
          | nil => cases first
          | cons e a => exact ⟨' ' :: e :: a, b, rfl, .space feed first, second⟩

/-- A visible character of the loosened text is one of the text. -/
theorem eq_cons {c : Char} (shown : isBlank c = false) (h : Looser t (c :: t')) :
    ∃ u, t = c :: u ∧ Looser u t' := by
  cases h with
  | cons c rest => exact ⟨_, rfl, rest⟩
  | space feed rest =>
      cases rest with
      | cons c rest =>
          rcases Option.some.inj feed with rfl
          exact absurd shown (by decide)
      | space feed' rest => cases feed

theorem noArguments (h : Looser t t') (none : NoArguments t) : NoArguments t' := by
  rintro gap inner rest rfl blank
  rcases h.exists_origin with ⟨gap', opened, rfl, fromGap, fromOpened⟩
  rcases fromOpened.eq_cons (by decide) with ⟨closed, rfl, fromClosed⟩
  rcases fromClosed.exists_origin with ⟨inner', behind, rfl, fromInner, fromBehind⟩
  rcases fromBehind.eq_cons (by decide) with ⟨rest', rfl, -⟩
  rcases none gap' inner' rest' rfl (fromGap.blank_iff.mpr blank) with ⟨c, member, parenthesis⟩
  have noSpace : c ≠ ' ' := fun same => absurd (same ▸ parenthesis) (by decide)
  exact ⟨c, (fromInner.mem_iff noSpace).mp member, parenthesis⟩

theorem noMark (h : Looser t t') (none : NoMark t) : NoMark t' := by
  rintro gap c rest rfl blank
  by_cases shown : isBlank c = true
  · exact Character.not_isDottedPart_of_isBlank shown
  · rcases h.eq_cons (by decide) with ⟨u, rfl, behind⟩
    rcases behind.exists_origin with ⟨gap', v, rfl, fromGap, fromRest⟩
    rcases fromRest.eq_cons (by simpa using shown) with ⟨rest', rfl, -⟩
    exact none gap' c rest' rfl (fromGap.blank_iff.mpr blank)

theorem stops (h : Looser t t') (stop : Stops isDottedPart t) : Stops isDottedPart t' := by
  cases h with
  | nil => exact stop
  | cons c rest => exact stop
  | space feed rest =>
      cases rest with
      | nil => cases feed
      | cons c rest =>
          rcases Option.some.inj feed with rfl
          exact Matcher.stops_cons.mpr (by decide)
      | space feed' rest => cases feed

/-- An annotation in front is one in the loosened text. -/
theorem exists_mark {r rest : Text} (mark : IsMark r rest) (h : Looser (r ++ rest) t') :
    ∃ r' rest', t' = r' ++ rest' ∧ IsMark r' rest' ∧ Looser rest rest' := by
  -- The sign and the name of the annotation, whatever follows.
  have named : ∀ {gap w u v : Text}, w ≠ [] → (∀ c ∈ w, isDottedPart c = true) →
      Looser ('@' :: (gap ++ (w ++ u))) v → ∃ gap' u', v = '@' :: (gap' ++ (w ++ u')) ∧
        Looser gap gap' ∧ Looser u u' := by
    intro gap w u v some dotted looser
    have shown : Visible w :=
      fun c member => Character.not_isBlank_of_isDottedPart (dotted c member)
    rcases List.exists_cons_of_ne_nil some with ⟨d, w, rfl⟩
    cases looser with
    | cons c behind =>
        rcases behind.exists_parts (shown d List.mem_cons_self) with
          ⟨gap', v, rfl, fromGap, fromName⟩
        rcases exists_of_append (fun c member => shown c (List.mem_cons_of_mem d member))
          fromName with
          ⟨u', rfl, fromRest⟩
        exact ⟨gap', u', rfl, fromGap, fromRest⟩
  cases mark with
  | @bare gap w rest blank some dotted stops none =>
      rw [List.cons_append, List.append_assoc] at h
      rcases named some dotted h with ⟨gap', rest', rfl, fromGap, fromRest⟩
      exact ⟨'@' :: (gap' ++ w), rest', by simp,
        .bare (fromGap.blank_iff.mp blank) some dotted (fromRest.stops stops)
          (fromRest.noArguments none),
        fromRest⟩
  | @full gap w opening inner rest blank some dotted blank' plain =>
      have whole : ('@' :: (gap ++ (w ++ (opening ++ '(' :: (inner ++ [')']))))) ++ rest =
          '@' :: (gap ++ (w ++ (opening ++ '(' :: (inner ++ ')' :: rest)))) := by simp
      rw [whole] at h
      rcases named some dotted h with ⟨gap', u, rfl, fromGap, fromArguments⟩
      rcases fromArguments.exists_parts (by decide) with ⟨opening', v, rfl, fromOpening, fromInner⟩
      rcases fromInner.exists_parts (by decide) with ⟨inner', rest', rfl, inside, fromRest⟩
      have plain' : ∀ c ∈ inner', isParenthesis c = false := by
        intro c member
        by_cases isSpace : c = ' '
        · rw [isSpace]
          decide
        · exact plain c ((inside.mem_iff isSpace).mpr member)
      exact ⟨'@' :: (gap' ++ (w ++ (opening' ++ '(' :: (inner' ++ [')'])))), rest', by simp,
        .full (fromGap.blank_iff.mp blank) some dotted (fromOpening.blank_iff.mp blank') plain',
        fromRest⟩

end Looser

theorem tidyLines_cons_congr {t t' : Text} (same : tidyLines t = tidyLines t') (c : Char) :
    tidyLines (c :: t) = tidyLines (c :: t') := by
  by_cases feed : c = '\n'
  · rw [feed, tidyLines_newline, tidyLines_newline, same]
  · rw [tidyLines_cons feed, tidyLines_cons feed, same]

/-- Spaces in front of line feeds make no difference to what is left of a text without
its annotations, tidied. -/
theorem tidyLines_dropAnnotations_of_looser {t t' : Text} (h : Looser t t') :
    tidyLines (dropAnnotations t) = tidyLines (dropAnnotations t') := by
  induction size : t.length using Nat.strongRecOn generalizing t t' with
  | ind n ih =>
      rcases isMark_or_noMark t with ⟨r, rest, rfl, mark⟩ | none
      · rcases h.exists_mark mark with ⟨r', rest', rfl, mark', fromRest⟩
        have less : rest.length < n := by
          have positive := List.length_pos_iff.mpr mark.ne_nil
          rw [← size, List.length_append]
          omega
        rw [dropAnnotations_mark mark, dropAnnotations_mark mark']
        exact tidyLines_cons_congr (ih rest.length less fromRest rfl) ' '
      · cases h with
        | nil => rfl
        | @cons c t t' rest =>
            have none' : NoMark (c :: t') := (Looser.cons c rest).noMark none
            rw [dropAnnotations_cons none, dropAnnotations_cons none']
            exact tidyLines_cons_congr (ih t.length (by simp [← size]) rest rfl) c
        | @space t t' feed rest =>
            have same := ih t.length (by simp [← size]) rest rfl
            rw [dropAnnotations_cons none, ← same]
            cases t with
            | nil => cases feed
            | cons c t =>
                rcases Option.some.inj feed with rfl
                rw [dropAnnotations_cons (noMark_of_ne (by decide) t),
                  tidyLines_cons (by decide), if_pos]
                exact ⟨by decide, Or.inr (by rw [tidyLines_newline]; rfl)⟩

/-! ## Comments and literals -/

def blockComment (t : Text) : Text :=
  "/*".toList ++ (t ++ "*/".toList)

def lineComment (t : Text) : Text :=
  "//".toList ++ t

def quoted (quote : Char) (t : Text) : Text :=
  quote :: (t ++ [quote])

/-- The line breaks of a text, each as a line feed. -/
def lineBreaks (t : Text) : Text :=
  (unifyLineBreaks t).filter (· == '\n')

/-- The two sources are the same once normalized, and one class is read from both, unless
one of them is too large. -/
def ReadAlike (s s' : Text) : Prop :=
  normalize s = normalize s' ∧ ∀ (library : PatternLibrary) (policy : ExtractionPolicy),
    utf8Size s ≤ policy.maxSourceSize → utf8Size s' ≤ policy.maxSourceSize →
      ClassSurface.read library policy s = ClassSurface.read library policy s'

theorem readAlike_of_normalize {s s' : Text} (same : normalize s = normalize s') :
    ReadAlike s s' := by
  refine ⟨same, fun library policy fits fits' => ?_⟩
  rw [ClassSurface.read, ClassSurface.read, if_neg (Nat.not_lt.mpr fits),
    if_neg (Nat.not_lt.mpr fits'), same]

theorem not_infix_unifyLineBreaks {t : Text} (unended : ¬ "*/".toList <:+: t) :
    ¬ "*/".toList <:+: unifyLineBreaks t := by
  have later : ∀ (c : Char) (t : Text), ¬ "*/".toList <:+: c :: t →
      ¬ "*/".toList <:+: t := fun c t none inside =>
    none (inside.trans (List.suffix_cons c t).isInfix)
  have noFeed : ∀ t : Text, ¬ "*/".toList <+: '\n' :: t := by simp
  fun_induction unifyLineBreaks t with
  | case1 => exact unended
  | case2 t ih =>
      rw [List.infix_cons_iff, not_or]
      exact ⟨noFeed _, ih (later _ _ (later _ _ unended))⟩
  | case3 t alone ih =>
      rw [List.infix_cons_iff, not_or]
      exact ⟨noFeed _, ih (later _ _ unended)⟩
  | case4 c t alone notReturn ih =>
      rw [List.infix_cons_iff, not_or]
      refine ⟨fun front => ?_, ih (later _ _ unended)⟩
      rcases front with ⟨u, same⟩
      rcases List.cons.inj same with ⟨rfl, behind⟩
      have slash : (unifyLineBreaks t).head? = some '/' := by rw [← behind]; rfl
      rcases t with - | ⟨d, t⟩
      · cases slash
      · rcases Option.some.inj (head_of_head_unifyLineBreaks (by decide) slash) with rfl
        exact unended ⟨[], t, rfl⟩

section Masked

variable {p q : Text} (noReturn : '\r' ∉ p) (noReturn' : '\r' ∉ q)
  (inCode : (Region.after .code 0 p).1 = .code)
include noReturn noReturn' inCode

/-- A part in code may be traded for another one that the scan reads the same, or with
fewer spaces in front of line feeds. -/
theorem readAlike_of_looser {x x' : Text} (parted : Region.Parted p (unifyLineBreaks x ++ q))
    (parted' : Region.Parted p (unifyLineBreaks x' ++ q)) (apart : x.getLast? ≠ some '\r')
    (apart' : x'.getLast? ≠ some '\r')
    (looser : Looser (Region.blankOut .code 0 (unifyLineBreaks x ++ q))
      (Region.blankOut .code 0 (unifyLineBreaks x' ++ q))) :
    ReadAlike (p ++ (x ++ q)) (p ++ (x' ++ q)) := by
  have behind : Region.after .code 0 p = (.code, 0) :=
    Prod.ext inCode (Region.pending_eq_zero (fun _ => Nat.zero_le _) inCode)
  have noLast : p.getLast? ≠ some '\r' := fun last => noReturn (List.mem_of_getLast? last)
  have unified : ∀ y : Text, y.getLast? ≠ some '\r' →
      unifyLineBreaks (p ++ (y ++ q)) = p ++ (unifyLineBreaks y ++ q) :=
    fun y last => by
      rw [unifyLineBreaks_append fun same => absurd same noLast,
        unifyLineBreaks_append fun same => absurd same last, unifyLineBreaks_of_not_mem noReturn,
        unifyLineBreaks_of_not_mem noReturn']
  apply readAlike_of_normalize
  rw [normalize, normalize, unified x apart, unified x' apart',
    (Region.blankOut_append_of_parted behind parted).1,
    (Region.blankOut_append_of_parted behind parted').1]
  exact tidyLines_dropAnnotations_of_looser (looser.append_left _)

theorem readAlike_blockComment (noSlash : p.getLast? ≠ some '/') {t : Text}
    (unended : ¬ "*/".toList <:+: t) :
    ReadAlike (p ++ (blockComment t ++ q)) (p ++ (' ' :: lineBreaks t ++ q)) := by
  have unified : unifyLineBreaks (blockComment t) =
      '/' :: '*' :: (unifyLineBreaks t ++ "*/".toList) := by
    change '/' :: unifyLineBreaks ('*' :: (t ++ "*/".toList)) = _
    rw [unifyLineBreaks_cons (by decide), unifyLineBreaks_append fun _ => by decide]
    rfl
  have blanks : ∀ c ∈ ' ' :: lineBreaks t, c = ' ' ∨ c = '\n' := by
    intro c member
    rcases List.mem_cons.mp member with rfl | member
    · exact Or.inl rfl
    · exact Or.inr (by simpa using (List.mem_filter.mp member).2)
  have noReturn'' : '\r' ∉ ' ' :: lineBreaks t := fun member => by simpa using blanks '\r' member
  have written : Region.Writes (' ' :: lineBreaks t) (' ' :: lineBreaks t) :=
    Region.writes_quiet fun c member => by rcases blanks c member with rfl | rfl <;> decide
  have calm : Region.Calm (' ' :: lineBreaks t) q := Or.inl fun c last => by
    rcases blanks c (List.mem_of_getLast? last) with rfl | rfl <;> decide
  have noLast : (blockComment t).getLast? ≠ some '\r' := by
    rw [blockComment, ← List.append_assoc, List.getLast?_append_of_ne_nil _ (by decide)]
    decide
  refine readAlike_of_looser noReturn noReturn' inCode ?_ ?_ noLast
    (fun last => noReturn'' (List.mem_of_getLast? last)) (.of_eq ?_)
  · rw [unified]
    exact ⟨fun last => absurd last noSlash, fun _ => by simp⟩
  · rw [unifyLineBreaks_of_not_mem noReturn'']
    exact ⟨fun last => absurd last noSlash, fun _ => by simp⟩
  · rw [unified, unifyLineBreaks_of_not_mem noReturn'',
      (Region.blankOut_append written.2 calm).1, written.1]
    have comment := Region.blankOut_blockComment (not_infix_unifyLineBreaks unended) q
    rw [List.cons_append, List.cons_append, List.append_assoc]
    exact congrArg (' ' :: ·) comment

theorem readAlike_lineComment (noSlash : p.getLast? ≠ some '/') {t : Text} (oneLine : '\n' ∉ t)
    (noReturn'' : '\r' ∉ t) : ReadAlike (p ++ (lineComment t ++ '\n' :: q)) (p ++ '\n' :: q) := by
  have unified : unifyLineBreaks (lineComment t) = '/' :: '/' :: t :=
    unifyLineBreaks_of_not_mem (by simp [lineComment, noReturn''])
  have noLast : (lineComment t).getLast? ≠ some '\r' := fun last => by
    have member := List.mem_of_getLast? last
    simp [lineComment, noReturn''] at member
  have feed : '\r' ∉ '\n' :: q := by simp [noReturn']
  change ReadAlike (p ++ (lineComment t ++ '\n' :: q)) (p ++ ([] ++ '\n' :: q))
  refine readAlike_of_looser noReturn feed inCode ?_ ?_ noLast (by simp) ?_
  · rw [unified]
    exact ⟨fun last => absurd last noSlash, fun _ => by simp⟩
  · exact ⟨fun last => absurd last noSlash, fun _ => by simp [unifyLineBreaks]⟩
  · have comment := Region.blankOut_lineComment oneLine q
    rw [unified]
    change Looser (' ' :: Region.blankOut .lineComment 0 (t ++ '\n' :: q))
      ('\n' :: Region.blankOut .code 0 q)
    rw [comment]
    exact .space rfl (.refl _)

/-- A literal reads as its quotes, whatever stands between them, where its first quote
opens it. -/
theorem readAlike_quoted {quote : Char} (region : Region) (notReturn : quote ≠ '\r')
    (literal : ∀ c ahead, region.step c ahead = Region.stepInLiteral region quote c)
    (opens : ∀ u, Region.IsContent quote u →
      Region.step .code quote (u ++ quote :: q) = ⟨[quote], region, 0⟩)
    (parted : ∀ u : Text, Region.Parted p (quote :: u)) {t : Text}
    (content : Region.IsContent quote t) :
    ReadAlike (p ++ (quoted quote t ++ q)) (p ++ (quoted quote [] ++ q)) := by
  have noReturn'' : ∀ u, Region.IsContent quote u → '\r' ∉ quoted quote u := fun u inside => by
    simp [quoted, Ne.symm notReturn, inside.not_mem_return]
  have written : ∀ u, Region.IsContent quote u →
      Region.blankOut .code 0 (unifyLineBreaks (quoted quote u) ++ q) =
      quote :: Region.blankOut region 0 (quote :: q) := fun u inside => by
    rw [unifyLineBreaks_of_not_mem (noReturn'' u inside), quoted, List.cons_append,
      List.append_assoc, List.singleton_append, Region.blankOut, opens u inside,
      inside.blankOut_append literal]
    rfl
  have parted' : ∀ u, Region.IsContent quote u →
      Region.Parted p (unifyLineBreaks (quoted quote u) ++ q) :=
    fun u inside => by
      rw [unifyLineBreaks_of_not_mem (noReturn'' u inside)]
      exact parted _
  have noLast : ∀ u, Region.IsContent quote u →
      (quoted quote u).getLast? ≠ some '\r' := fun u inside last =>
    noReturn'' u inside (List.mem_of_getLast? last)
  exact readAlike_of_looser noReturn noReturn' inCode (parted' t content) (parted' [] .nil)
    (noLast t content)
    (noLast [] .nil) (.of_eq ((written t content).trans (written [] .nil).symm))

/-- Behind a part in code, a comment may be traded for a space and its line breaks, and
the contents of a literal may be left out: neither the normalized source nor the class
read from it shows them. -/
theorem readAlike_masked :
    (p.getLast? ≠ some '/' →
      (∀ t, ¬ "*/".toList <:+: t →
        ReadAlike (p ++ (blockComment t ++ q)) (p ++ (' ' :: lineBreaks t ++ q))) ∧
      ∀ t, '\n' ∉ t → '\r' ∉ t → ReadAlike (p ++ (lineComment t ++ '\n' :: q)) (p ++ '\n' :: q)) ∧
    (p.getLast? ≠ some '"' → q.head? ≠ some '"' → ∀ t, Region.IsContent '"' t →
      ReadAlike (p ++ (quoted '"' t ++ q)) (p ++ (quoted '"' [] ++ q))) ∧
    ∀ t, Region.IsContent '\x27' t →
      ReadAlike (p ++ (quoted '\x27' t ++ q)) (p ++ (quoted '\x27' [] ++ q)) := by
  refine ⟨fun noSlash =>
    ⟨fun t => readAlike_blockComment noReturn noReturn' inCode noSlash, fun t =>
    readAlike_lineComment noReturn noReturn' inCode noSlash⟩, fun noQuote noQuote' t content => ?_,
    fun t content => ?_⟩
  · refine readAlike_quoted noReturn noReturn' inCode .string (by decide) (fun _ _ => rfl)
      (fun u inside => ?_) (fun u => ⟨fun _ => by simp, fun last => absurd last noQuote⟩) content
    have noBlock : ['"', '"'].isPrefixOf (u ++ '"' :: q) = false := by
      cases inside with
      | nil =>
          cases q with
          | nil => rfl
          | cons c q =>
              have other : c ≠ '"' := fun same => noQuote' (congrArg some same)
              simp [List.isPrefixOf, Ne.symm other]
      | plain other _ _ _ _ => simp [List.isPrefixOf, Ne.symm other]
      | escaped _ _ _ => simp [List.isPrefixOf]
    simp [Region.step, Region.stepInCode, noBlock]
  · exact readAlike_quoted noReturn noReturn' inCode .character (by decide) (fun _ _ => rfl)
      (fun _ _ => rfl) (fun u => ⟨fun _ => by simp, fun _ => by simp⟩) content

end Masked

/-- A method between two comments, of which the second one looks like a method itself. -/
theorem readAlike_masked_between_comments :
    let p := "class A \x7b // \x27 /*\n int f();".toList
    let t := "int g(); // \"\r\n".toList
    let q := "\"\x7d".toList
    '\r' ∉ p ∧ '\r' ∉ q ∧ (Region.after .code 0 p).1 = .code ∧ p.getLast? ≠ some '/' ∧
      ¬ "*/".toList <:+: t ∧
      ReadAlike (p ++ (blockComment t ++ q)) (p ++ (' ' :: lineBreaks t ++ q)) := by
  intro p t q
  have noReturn : '\r' ∉ p := by decide +kernel
  have noReturn' : '\r' ∉ q := by decide +kernel
  have inCode : (Region.after .code 0 p).1 = .code := by decide +kernel
  have noSlash : p.getLast? ≠ some '/' := by decide +kernel
  have unended : ¬ "*/".toList <:+: t := by decide +kernel
  exact ⟨noReturn, noReturn', inCode, noSlash, unended,
    ((readAlike_masked noReturn noReturn' inCode).1 noSlash).1 t unended⟩

end Text

end Testwright
