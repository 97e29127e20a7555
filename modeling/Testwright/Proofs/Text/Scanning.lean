import Testwright.Proofs.Text.Normalization
import Testwright.Proofs.Text.Trimming

namespace Testwright

/-!
# Scanning a text part by part

What the scan for comments and literals makes of a text is made part by part, if
it stands in code at the place between the parts and decides nothing there by
looking ahead (`blankOut_append_of_parted`).  The scan looks ahead from slashes,
asterisks and double quotes only, and only for such characters; so it is enough that
one of the two characters at the place is none of them (`blankOut_append`).  What is
written for a character is a trace of it, unless it stands for itself in code
(`step_written`).
-/

namespace Text

/-! ## Line breaks -/

theorem unifyLineBreaks_append {a b : Text} (apart : a.getLast? = some '\r' → b.head? ≠ some '\n') :
    unifyLineBreaks (a ++ b) = unifyLineBreaks a ++ unifyLineBreaks b := by
  fun_induction unifyLineBreaks a with
  | case1 => rfl
  | case2 t ih =>
      have apart' : t.getLast? = some '\r' → b.head? ≠ some '\n' := by
        intro last
        exact apart (by simp [List.getLast?_cons, last])
      rw [List.cons_append, List.cons_append, unifyLineBreaks, ih apart', List.cons_append]
  | case3 t alone ih =>
      have apart' : t.getLast? = some '\r' → b.head? ≠ some '\n' := by
        intro last
        exact apart (by simp [List.getLast?_cons, last])
      rw [List.cons_append, unifyLineBreaks.eq_3, ih apart', List.cons_append]
      rintro rest same
      cases t with
      | nil => exact apart rfl (by rw [← List.nil_append b, same]; rfl)
      | cons c t => exact alone t (by rw [(List.cons.inj same).1])
  | case4 c t _ notReturn ih =>
      have apart' : t.getLast? = some '\r' → b.head? ≠ some '\n' := by
        intro last
        exact apart (by simp [List.getLast?_cons, last])
      rw [List.cons_append, unifyLineBreaks_cons notReturn, ih apart', List.cons_append]

/-- A carriage return at the end takes the line feed behind it along. -/
theorem unifyLineBreaks_append_newline {a : Text} (last : a.getLast? = some '\r') (b : Text) :
    unifyLineBreaks (a ++ '\n' :: b) = unifyLineBreaks a ++ unifyLineBreaks b := by
  rcases List.getLast?_eq_some_iff.mp last with ⟨front, rfl⟩
  have first : ∀ t : Text, t.head? = some '\r' →
      unifyLineBreaks (front ++ t) = unifyLineBreaks front ++ unifyLineBreaks t := fun t head =>
    unifyLineBreaks_append fun _ => by
      rw [head]
      decide
  rw [List.append_assoc, List.singleton_append, first _ rfl, first _ rfl, List.append_assoc]
  rfl

theorem not_mem_return_unifyLineBreaks (t : Text) : '\r' ∉ unifyLineBreaks t := by
  fun_induction unifyLineBreaks t with
  | case1 => simp
  | case2 t ih => simpa using ih
  | case3 t alone ih => simpa using ih
  | case4 c t _ notReturn ih =>
      rw [List.mem_cons, not_or]
      exact ⟨fun same => notReturn same.symm, ih⟩

theorem unifyLineBreaks_of_not_mem {t : Text} (absent : '\r' ∉ t) : unifyLineBreaks t = t := by
  induction t with
  | nil => rfl
  | cons c t ih =>
      rw [List.mem_cons, not_or] at absent
      rw [unifyLineBreaks_cons (Ne.symm absent.1), ih absent.2]

end Text

namespace Region

/-! ## The place between two parts -/

/-- The region behind a text, and how many of the characters that follow go with
it. -/
def after : Region → Nat → Text → Region × Nat
  | region, pending, [] => (region, pending)
  | region, pending + 1, _ :: t => after region pending t
  | region, 0, c :: t => after (region.step c t).region (region.step c t).passed t

/-- The scan does not look ahead from this character, nor for it. -/
def isCalm (c : Char) : Bool :=
  !(c == '/' || c == '*' || c == '"')

/-- The last character of the first part or the first one of the second is calm. -/
def Calm (s t : Text) : Prop :=
  (∀ c, s.getLast? = some c → isCalm c = true) ∨ ∀ c, t.head? = some c → isCalm c = true

theorem calm_of_front {a : Text} (each : ∀ c ∈ a, isCalm c = true) (nonempty : a ≠ [])
    (s t : Text) :
    Calm s (a ++ t) := by
  refine Or.inr fun c head => each c ?_
  rcases List.exists_cons_of_ne_nil nonempty with ⟨d, a, rfl⟩
  rcases Option.some.inj head with rfl
  exact List.mem_cons_self

/-- No comment opens and no quotes meet across the place between the two parts. -/
structure Parted (s t : Text) : Prop where
  slash : s.getLast? = some '/' → t.head? ≠ some '/' ∧ t.head? ≠ some '*'
  quote : s.getLast? = some '"' → t.head? ≠ some '"'

theorem Calm.parted {s t : Text} (h : Calm s t) : Parted s t where
  slash last := by
    rcases h with calm | calm
    · exact absurd (calm '/' last) (by decide)
    · exact ⟨fun first => absurd (calm '/' first) (by decide),
        fun first => absurd (calm '*' first) (by decide)⟩
  quote last := by
    rcases h with calm | calm
    · exact absurd (calm '"' last) (by decide)
    · exact fun first => absurd (calm '"' first) (by decide)

theorem Parted.tail {c d : Char} {s t : Text} (h : Parted (c :: d :: s) t) : Parted (d :: s) t where
  slash last := h.slash (by rw [List.getLast?_cons_cons, last])
  quote last := h.quote (by rw [List.getLast?_cons_cons, last])

/-- A step does not depend on what stands behind a place where the parts are parted,
unless it leaves text pending there. -/
theorem step_append {region : Region} {c : Char} {s t : Text} (parted : Parted (c :: s) t)
    (inCode : after region 0 (c :: s) = (code, 0)) : region.step c (s ++ t) = region.step c s := by
  have quotes : ['"', '"'].isPrefixOf (s ++ t) = ['"', '"'].isPrefixOf s ∨ c ≠ '"' := by
    match s with
    | [] =>
        by_cases isQuote : c = '"'
        · subst isQuote
          refine Or.inl ?_
          cases t with
          | nil => rfl
          | cons d t =>
              have other : d ≠ '"' := fun same => parted.quote rfl (by rw [same]; rfl)
              simp [List.isPrefixOf, Ne.symm other]
        · exact Or.inr isQuote
    | [d] =>
        refine Or.inl ?_
        cases t with
        | nil => rfl
        | cons e t =>
            by_cases isQuote : d = '"'
            · subst isQuote
              have other : e ≠ '"' := fun same => parted.quote rfl (by rw [same]; rfl)
              simp [List.isPrefixOf, Ne.symm other]
            · simp [List.isPrefixOf, Ne.symm isQuote]
    | d :: e :: s => exact Or.inl (by simp [List.isPrefixOf])
  cases s with
  | cons d s =>
      have head : (d :: s ++ t).head? = (d :: s).head? := rfl
      rcases quotes with same | other
      · cases region <;>
          simp only [step, stepInCode, stepInBlockComment, stepInTextBlock, head, same]
      · cases region <;> simp [step, stepInCode, stepInBlockComment, stepInTextBlock, other]
  | nil =>
      have slash : c = '/' → t.head? ≠ some '/' ∧ t.head? ≠ some '*' := by
        rintro rfl
        exact parted.slash rfl
      have noStar : region = blockComment → c ≠ '*' := by
        rintro rfl rfl
        cases inCode
      have noEscape : region = textBlock → c ≠ '\\' := by
        rintro rfl rfl
        cases inCode
      rw [List.nil_append] at quotes ⊢
      cases region with
      | code =>
          by_cases isSlash : c = '/'
          · simp [step, stepInCode, isSlash, slash isSlash]
          · rcases quotes with same | other
            · simp only [step, stepInCode, isSlash, false_and, if_false, same]
            · simp [step, stepInCode, isSlash, other]
      | lineComment => rfl
      | blockComment => simp [step, stepInBlockComment, noStar rfl]
      | string => rfl
      | character => rfl
      | textBlock =>
          have other := noEscape rfl
          rcases quotes with same | notQuote
          · simp only [step, stepInTextBlock, other, if_false, same]
          · simp [step, stepInTextBlock, other, notQuote]

/-- Where the scan stands in code between two parts, it reads on from there. -/
theorem blankOut_append_of_parted {region : Region} {pending : Nat} {s t : Text}
    (inCode : after region pending s = (code, 0)) (parted : Parted s t) :
    blankOut region pending (s ++ t) = blankOut region pending s ++ blankOut code 0 t ∧
      after region pending (s ++ t) = after code 0 t := by
  induction s generalizing region pending with
  | nil =>
      rcases Prod.mk.inj inCode with ⟨rfl, rfl⟩
      exact ⟨rfl, rfl⟩
  | cons c s ih =>
      have parted' : Parted s t := by
        cases s with
        | nil => exact ⟨by simp, by simp⟩
        | cons d s => exact parted.tail
      cases pending with
      | succ pending => exact ih inCode parted'
      | zero =>
          have same := step_append parted inCode
          have inCode' : after (region.step c s).region (region.step c s).passed s = (code, 0) :=
            inCode
          have rest := ih inCode' parted'
          rw [List.cons_append, blankOut, after, blankOut, same, rest.1, rest.2, List.append_assoc]
          exact ⟨rfl, rfl⟩

/-- Where the scan stands in code at a calm place, it reads on from there. -/
theorem blankOut_append {region : Region} {pending : Nat} {s t : Text}
    (inCode : after region pending s = (code, 0)) (calm : Calm s t) :
    blankOut region pending (s ++ t) = blankOut region pending s ++ blankOut code 0 t ∧
      after region pending (s ++ t) = after code 0 t :=
  blankOut_append_of_parted inCode calm.parted

/-! ## What is written -/

/-- The character may be written for another one. -/
def isTrace (c : Char) : Bool :=
  c == ' ' || c == '\n' || c == '"' || c == '\x27'

/-- What is written for a character is a trace of it, unless it is that character in code. -/
theorem step_written (region : Region) (c : Char) (ahead : Text) :
    (∀ d ∈ (region.step c ahead).written, isTrace d = true) ∨
      region = code ∧ region.step c ahead = ⟨[c], code, 0⟩ := by
  have breaks : ∀ c, ∀ d ∈ onlyBreak c, isTrace d = true := by
    intro c d member
    simp only [onlyBreak] at member
    split at member
    · rcases List.mem_singleton.mp member with rfl
      rfl
    · cases member
  have literal : ∀ quote region', isTrace quote = true →
      ∀ d ∈ (stepInLiteral region' quote c).written, isTrace d = true := by
    intro quote region' isQuote d member
    simp only [stepInLiteral] at member
    split at member
    · cases member
    · split at member
      · rcases List.mem_singleton.mp member with rfl
        rfl
      · split at member
        · rcases List.mem_singleton.mp member with rfl
          exact isQuote
        · cases member
  have quotes : ∀ d ∈ textBlockQuotes, isTrace d = true := by decide
  cases region with
  | code =>
      simp only [step, stepInCode]
      split
      · exact Or.inl (by decide)
      · split
        · exact Or.inl (by decide)
        · split
          · exact Or.inl quotes
          · split
            · exact Or.inl (by decide)
            · split
              · exact Or.inl (by decide)
              · exact Or.inr ⟨trivial, rfl⟩
  | lineComment => exact Or.inl (breaks c)
  | blockComment =>
      refine Or.inl ?_
      simp only [step, stepInBlockComment]
      split
      · simp
      · exact breaks c
  | string => exact Or.inl (literal '"' string rfl)
  | character => exact Or.inl (literal '\x27' character rfl)
  | textBlock =>
      refine Or.inl ?_
      simp only [step, stepInTextBlock]
      split
      · cases ahead with
        | nil => simp
        | cons d ahead => exact breaks d
      · split
        · exact quotes
        · exact breaks c

/-- A step does not look ahead for a calm character. -/
theorem step_append_calm {region : Region} {c d : Char} (calm : isCalm d = true)
    (noBreak : d ≠ '\n') (s t : Text) : region.step c (s ++ d :: t) = region.step c s := by
  simp only [isCalm, Bool.not_eq_true', Bool.or_eq_false_iff, beq_eq_false_iff_ne] at calm
  rcases calm with ⟨⟨noSlash, noStar⟩, noQuote⟩
  have quotes : ['"', '"'].isPrefixOf (s ++ d :: t) = ['"', '"'].isPrefixOf s := by
    rcases s with - | ⟨e, - | ⟨f, s⟩⟩
    · simp [List.isPrefixOf, Ne.symm noQuote]
    · simp [List.isPrefixOf, Ne.symm noQuote]
    · simp [List.isPrefixOf]
  cases s with
  | cons e s =>
      have head : (e :: s ++ d :: t).head? = (e :: s).head? := rfl
      cases region <;>
        simp only [step, stepInCode, stepInBlockComment, stepInTextBlock, head, quotes]
  | nil =>
      rw [List.nil_append] at quotes ⊢
      cases region <;>
        simp [step, stepInCode, stepInBlockComment, stepInTextBlock, quotes, noSlash, noStar,
          noBreak, onlyBreak]

/-- What is written and is no trace of anything else stands in code. -/
theorem exists_of_mem_blankOut {region : Region} {pending : Nat} {t : Text} {c : Char}
    (own : isTrace c = false) (calm : isCalm c = true) (member : c ∈ blankOut region pending t) :
    ∃ x y, t = x ++ c :: y ∧ after region pending x = (code, 0) := by
  have noBreak : c ≠ '\n' := by
    rintro rfl
    cases own
  induction t generalizing region pending with
  | nil => cases pending <;> cases member
  | cons d t ih =>
      cases pending with
      | succ pending =>
          rcases ih member with ⟨x, y, rfl, inCode⟩
          exact ⟨d :: x, y, rfl, inCode⟩
      | zero =>
          rw [blankOut] at member
          rcases List.mem_append.mp member with here | behind
          · rcases step_written region d t with traces | ⟨rfl, step⟩
            · rw [traces c here] at own
              cases own
            · rw [step] at here
              rcases List.mem_singleton.mp here with rfl
              exact ⟨[], t, rfl, rfl⟩
          · rcases ih behind with ⟨x, y, rfl, inCode⟩
            rw [step_append_calm calm noBreak] at inCode
            exact ⟨d :: x, y, rfl, inCode⟩

theorem mem_of_mem_blankOut {region : Region} {pending : Nat} {t : Text} {c : Char}
    (own : isTrace c = false) (calm : isCalm c = true) (member : c ∈ blankOut region pending t) :
    c ∈ t := by
  rcases exists_of_mem_blankOut own calm member with ⟨x, y, rfl, -⟩
  exact List.mem_append_right x List.mem_cons_self

/-! ## Parts that stand in code -/

/-- The character begins no literal and no comment. -/
def isQuiet (c : Char) : Bool :=
  !(c == '"' || c == '\x27' || c == '/')

/-- The scan is in code behind the text, and writes this for it. -/
def Writes (t written : Text) : Prop :=
  blankOut code 0 t = written ∧ after code 0 t = (code, 0)

theorem Writes.append {s t w w' : Text} (first : Writes s w) (second : Writes t w')
    (calm : Calm s t) :
    Writes (s ++ t) (w ++ w') := by
  rcases blankOut_append first.2 calm with ⟨texts, states⟩
  exact ⟨by rw [texts, first.1, second.1], by rw [states, second.2]⟩

theorem writes_nil : Writes [] [] :=
  ⟨rfl, rfl⟩

theorem writes_quiet {t : Text} (quiet : ∀ c ∈ t, isQuiet c = true) : Writes t t := by
  induction t with
  | nil => exact writes_nil
  | cons c t ih =>
      rcases ih fun d member => quiet d (List.mem_cons_of_mem c member) with ⟨text, state⟩
      have own := quiet c List.mem_cons_self
      simp only [isQuiet, Bool.not_eq_true', Bool.or_eq_false_iff, beq_eq_false_iff_ne] at own
      have here : code.step c t = ⟨[c], code, 0⟩ := by
        simp [step, stepInCode, own]
      exact ⟨by rw [blankOut, here, text]; rfl, by rw [after, here, state]⟩

/-- A line comment up to the end of its line is a space. -/
theorem writes_lineComment {t : Text} (oneLine : '\n' ∉ t) :
    Writes ('/' :: '/' :: (t ++ ['\n'])) [' ', '\n'] := by
  have inside : ∀ t : Text, '\n' ∉ t → blankOut lineComment 0 (t ++ ['\n']) = ['\n'] ∧
      after lineComment 0 (t ++ ['\n']) = (code, 0) := by
    intro t oneLine
    induction t with
    | nil => exact ⟨rfl, rfl⟩
    | cons c t ih =>
        rw [List.mem_cons, not_or] at oneLine
        have here : lineComment.step c (t ++ ['\n']) = ⟨[], lineComment, 0⟩ := by
          simp [step, stepInLineComment, onlyBreak, Ne.symm oneLine.1]
        rcases ih oneLine.2 with ⟨text, state⟩
        exact ⟨by rw [List.cons_append, blankOut, here, text]; rfl,
          by rw [List.cons_append, after, here, state]⟩
  have opens : code.step '/' ('/' :: (t ++ ['\n'])) = ⟨[' '], lineComment, 1⟩ := rfl
  rcases inside t oneLine with ⟨text, state⟩
  exact ⟨by rw [blankOut, opens, blankOut, text]; rfl, by rw [after, opens, after, state]⟩

end Region

namespace Text

open Character (isBlank)
open Region (Calm Writes isCalm isQuiet)

/-! ## Sources, part by part -/

/-- The scan of the source is in code behind it, and writes this. -/
def Scanned (s w : Text) : Prop :=
  Writes (unifyLineBreaks s) w

/-- Nothing that is read as a whole stands across the place between the two
sources. -/
structure Seam (s t : Text) : Prop where
  breaks : s.getLast? = some '\r' → t.head? ≠ some '\n'
  calm : Calm s t

theorem seam_of_cons {c : Char} (calm : isCalm c = true) (other : c ≠ '\n') (s t : Text) :
    Seam s (c :: t) where
  breaks := fun _ newline => absurd (Option.some.inj newline) other
  calm := Or.inr fun _ head => Option.some.inj head ▸ calm

theorem seam_of_head {t : Text} (first : ∀ c, t.head? = some c → isCalm c = true ∧ c ≠ '\n')
    (s : Text) :
    Seam s t where
  breaks := fun _ newline => (first '\n' newline).2 rfl
  calm := Or.inr fun c head => (first c head).1

theorem seam_of_last {s : Text} (last : ∀ c, s.getLast? = some c → isCalm c = true ∧ c ≠ '\r')
    (t : Text) :
    Seam s t where
  breaks := fun final => absurd rfl (last '\r' final).2
  calm := Or.inl fun c final => (last c final).1

theorem seam_of_concat {s : Text} {c : Char} (last : s.getLast? = some c) (calm : isCalm c = true)
    (other : c ≠ '\r') (t : Text) : Seam s t :=
  seam_of_last (fun _ final => Option.some.inj (last.symm.trans final) ▸ ⟨calm, other⟩) t

theorem getLast?_unifyLineBreaks (s : Text) :
    (unifyLineBreaks s).getLast? = s.getLast?.map fun c => if c = '\r' then '\n' else c := by
  fun_induction unifyLineBreaks s with
  | case1 => rfl
  | case2 t ih => cases t <;> simp_all [List.getLast?_cons, unifyLineBreaks]
  | case3 t alone ih => cases t <;> simp_all [List.getLast?_cons, unifyLineBreaks]
  | case4 c t _ notReturn ih => cases t <;> simp_all [List.getLast?_cons, unifyLineBreaks]

theorem head?_unifyLineBreaks (s : Text) :
    (unifyLineBreaks s).head? = s.head?.map fun c => if c = '\r' then '\n' else c := by
  fun_induction unifyLineBreaks s with
  | case4 c t _ notReturn ih => simp [show c ≠ '\r' from notReturn]
  | _ => rfl

theorem calm_unifyLineBreaks {s t : Text} (calm : Calm s t) :
    Calm (unifyLineBreaks s) (unifyLineBreaks t) := by
  have kept : ∀ o : Option Char, (∀ c, o = some c → isCalm c = true) →
      ∀ c, (o.map fun c => if c = '\r' then '\n' else c) = some c → isCalm c = true := by
    intro o calm c found
    rcases Option.map_eq_some_iff.mp found with ⟨d, rfl, rfl⟩
    split
    · decide
    · exact calm d rfl
  rcases calm with last | first
  · exact Or.inl (by rw [getLast?_unifyLineBreaks]; exact kept _ last)
  · exact Or.inr (by rw [head?_unifyLineBreaks]; exact kept _ first)

theorem Scanned.append {s t w w' : Text} (first : Scanned s w) (second : Scanned t w')
    (seam : Seam s t) :
    Scanned (s ++ t) (w ++ w') := by
  rw [Scanned, unifyLineBreaks_append seam.breaks]
  exact Writes.append first second (calm_unifyLineBreaks seam.calm)

theorem scanned_nil : Scanned [] [] :=
  Region.writes_nil

/-- The characters of a source with unified line breaks are its own, and line feeds. -/
theorem mem_of_mem_unifyLineBreaks {t : Text} {c : Char} (member : c ∈ unifyLineBreaks t) :
    c ∈ t ∨ c = '\n' := by
  fun_induction unifyLineBreaks t with
  | case1 => cases member
  | case2 t ih =>
      rcases List.mem_cons.mp member with rfl | inside
      · exact Or.inr rfl
      · exact (ih inside).imp_left fun inside => by simp [inside]
  | case3 t alone ih =>
      rcases List.mem_cons.mp member with rfl | inside
      · exact Or.inr rfl
      · exact (ih inside).imp_left fun inside => by simp [inside]
  | case4 d t _ notReturn ih =>
      rcases List.mem_cons.mp member with rfl | inside
      · exact Or.inl List.mem_cons_self
      · exact (ih inside).imp_left fun inside => by simp [inside]

theorem scanned_unifyLineBreaks {t : Text} (quiet : ∀ c ∈ t, isQuiet c = true) :
    Scanned t (unifyLineBreaks t) := by
  apply Region.writes_quiet
  intro c member
  rcases mem_of_mem_unifyLineBreaks member with inside | rfl
  · exact quiet c inside
  · decide

theorem scanned_quiet {t : Text} (quiet : ∀ c ∈ t, isQuiet c = true ∧ c ≠ '\r') : Scanned t t := by
  have scanned := scanned_unifyLineBreaks fun c member => (quiet c member).1
  rwa [unifyLineBreaks_of_not_mem fun member => (quiet '\r' member).2 rfl] at scanned

theorem isQuiet_of_isBlank {c : Char} (blank : isBlank c = true) : isQuiet c = true := by
  have other : ∀ d, isBlank d = false → c ≠ d := by
    rintro d visible rfl
    rw [visible] at blank
    cases blank
  simp [isQuiet, other _ (by decide : isBlank '"' = false),
    other _ (by decide : isBlank '/' = false), other _ (by decide : isBlank '\x27' = false)]

theorem isCalm_of_isBlank {c : Char} (blank : isBlank c = true) : isCalm c = true := by
  have other : ∀ d, isBlank d = false → c ≠ d := by
    rintro d visible rfl
    rw [visible] at blank
    cases blank
  simp [isCalm, other _ (by decide : isBlank '"' = false),
    other _ (by decide : isBlank '/' = false), other _ (by decide : isBlank '*' = false)]

theorem exists_scanned_blank {gap : Text} (blank : Blank gap) : ∃ w, Scanned gap w ∧ Blank w := by
  refine ⟨unifyLineBreaks gap,
    scanned_unifyLineBreaks fun c member => isQuiet_of_isBlank (blank c member), ?_⟩
  intro c member
  rcases mem_of_mem_unifyLineBreaks member with inside | rfl
  · exact blank c inside
  · decide

theorem scanned_separator {separator : Text}
    (isBreak : separator = ['\n'] ∨ separator = ['\r', '\n']) :
    Scanned separator ['\n'] := by
  rcases isBreak with rfl | rfl <;> exact ⟨by decide, by decide⟩

end Text
end Testwright
