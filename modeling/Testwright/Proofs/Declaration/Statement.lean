import Testwright.Proofs.Declaration.Keyword
import Testwright.Proofs.Text.Mention
import Testwright.Source.ClassReader

namespace Testwright
namespace Lexeme

/-!
# Package and import statements

The readers of these statements look for a keyword at the edge of a word, then
blanks, then a name, and then a semicolon.  The keyword may be the end of a
longer word, as in `a$package`, so it does not suffice that no lexeme is the
keyword.  Two facts keep such a reader silent: behind the lexeme stands no
character that opens a name, or a mark comes that no statement passes over.
-/

open Character (isBlank isDottedPart isNamePart isWord)
open Matcher (Reads Silent Stops)
open Text (Blank)

/-! ## Readers that begin with a word -/

/-- A reader that begins with one of the words, where no word ends in front of
it, and goes on behind blanks with a character that opens a name. -/
structure IsOpened {α : Type} (m : Matcher α) (keys : List Text) (opens : Char → Bool) : Prop where
  words : ∀ w ∈ keys, w ≠ [] ∧ ∀ c ∈ w, isWord c = true
  visible : ∀ c, opens c = true → isBlank c = false
  reads : ∀ behind ahead, m ⟨behind, ahead⟩ ≠ [] →
    (∀ c, behind.head? = some c → isWord c = false) ∧
      ∃ w ∈ keys, ∃ gap c r, ahead = w ++ (gap ++ c :: r) ∧ Blank gap ∧ gap ≠ [] ∧ opens c = true

/-- Neither does a lexeme end in one of the words, nor does the next one go on
with a name. -/
def Guards (keys : List Text) (opens : Char → Bool) (first second : Lexeme) : Prop :=
  (∀ w ∈ keys, Text.endsIn first.text w = false) ∨
    ∀ c, second.text.head? = some c → opens c = false

section

variable {α : Type} {m : Matcher α} {keys : List Text} {opens : Char → Bool}
  (opened : IsOpened m keys opens)
include opened

theorem not_reads_of_front {c : Char} (other : isWord c = false) (behind t : Text) :
    m ⟨behind, c :: t⟩ = [] := by
  apply Classical.byContradiction
  intro reads
  obtain ⟨-, w, member, gap, d, r, same, -⟩ := opened.reads _ _ reads
  obtain ⟨nonempty, inWord⟩ := opened.words w member
  obtain ⟨e, w, rfl⟩ := List.exists_cons_of_ne_nil nonempty
  have word := inWord e List.mem_cons_self
  rw [← (List.cons.inj same).1, other] at word
  cases word

theorem nil_of_opened_at_end (behind : Text) : m ⟨behind, []⟩ = [] := by
  apply Classical.byContradiction
  intro reads
  obtain ⟨-, w, -, gap, c, r, same, -⟩ := opened.reads _ _ reads
  simp at same

theorem silent_of_not_word {s : Text} (others : ∀ c ∈ s, isWord c = false) (behind t : Text) :
    Silent m behind s t := by
  intro x y cut nonempty
  obtain ⟨c, y, rfl⟩ := List.exists_cons_of_ne_nil nonempty
  exact not_reads_of_front opened (others c (by simp [cut])) _ _

theorem silent_of_gap {gap : Text} (blank : Blank gap) (behind t : Text) : Silent m behind gap t :=
  silent_of_not_word opened
    (fun c member => Character.not_isWord_of_isBlank (blank c member)) behind t

/-- A word that is none of the words, with a blank behind it. -/
theorem silent_word {v : Text} (word : ∀ c ∈ v, isWord c = true) (other : v ∉ keys) {c : Char}
    (blank : isBlank c = true) (behind t : Text) : Silent m behind (v ++ [c]) t := by
  refine Matcher.silent_append.mpr
    ⟨?_, silent_of_gap opened (List.forall_mem_singleton.mpr blank) _ t⟩
  intro x y cut nonempty
  apply Classical.byContradiction
  intro reads
  obtain ⟨edge, w, member, gap, d, r, same, blank', some, -⟩ := opened.reads _ _ reads
  obtain ⟨e, gap, rfl⟩ := List.exists_cons_of_ne_nil some
  have inY : ∀ d ∈ y, isWord d = true :=
    fun d inside => word d (by rw [cut]; exact List.mem_append_right x inside)
  have whole : y = w :=
    (Text.eq_of_run_append inY (opened.words w member).2 (Character.not_isWord_of_isBlank blank)
    (Character.not_isWord_of_isBlank (blank' e List.mem_cons_self)) same).1
  -- the word begins where the reading does, for no word ends there
  rcases List.eq_nil_or_concat x with rfl | ⟨x, d, rfl⟩
  · exact other (by rw [cut, whole]; exact member)
  · have inWord := word d (by simp [cut])
    rw [edge d (by simp)] at inWord
    cases inWord

/-- A text without blanks that ends with a mark. -/
theorem silent_visible {s : Text} (seen : Text.Visible s) {d : Char} (visible : isBlank d = false)
    (notWord : isWord d = false) (behind t : Text) : Silent m behind (s ++ [d]) t := by
  intro x y cut nonempty
  apply Classical.byContradiction
  intro reads
  obtain ⟨-, w, member, gap, e, r, same, blank, some, -⟩ := opened.reads _ _ reads
  obtain ⟨b, gap, rfl⟩ := List.exists_cons_of_ne_nil some
  have words := (opened.words w member).2
  have mark : d ∈ y := by
    rcases List.eq_nil_or_concat y with rfl | ⟨y, f, rfl⟩
    · exact absurd rfl nonempty
    · have last : (s ++ [d]).getLast? = (x ++ (y ++ [f])).getLast? := by
        rw [cut, List.concat_eq_append]
      rw [List.getLast?_concat, ← List.append_assoc, List.getLast?_concat] at last
      simp [Option.some.inj last]
  have inY : ∀ f ∈ y, isBlank f = false := fun f inside =>
    List.forall_mem_append.mpr ⟨seen, List.forall_mem_singleton.mpr visible⟩ f
      (by rw [cut]; exact List.mem_append_right x inside)
  rcases List.append_eq_append_iff.mp same with ⟨a, longer, -⟩ | ⟨a, longer, rest⟩
  · exact absurd (words d (by rw [longer]; exact List.mem_append_left a mark)) (by simp [notWord])
  · cases a with
    | nil =>
        exact absurd (words d (by rw [← List.append_nil w, ← longer]; exact mark))
          (by simp [notWord])
    | cons f a =>
        have shown := inY f (by simp [longer])
        rw [← (List.cons.inj rest).1, blank b List.mem_cons_self] at shown
        cases shown

/-- A reading inside a lexeme begins with the word at the end of it. -/
theorem silent_text {l : Lexeme} (kind : IsWord l ∨ IsMark l) {r : Text}
    (stops : IsMark l ∨ Stops isNamePart r)
    (guarded : (∀ w ∈ keys, Text.endsIn l.text w = false) ∨
      ∀ gap c r', r = gap ++ c :: r' → Blank gap → isBlank c = false → opens c = false)
    (behind : Text) : Silent m behind l.text r := by
  intro x y cut nonempty
  apply Classical.byContradiction
  intro reads
  obtain ⟨edge, w, member, gap, c, r', same, blank, some, begins⟩ := opened.reads _ _ reads
  obtain ⟨wordSome, inWord⟩ := opened.words w member
  have visible : ∀ d ∈ y, isBlank d = false := fun d inY =>
    (isVisible_of_kind kind).2 d (by rw [cut]; exact List.mem_append_right x inY)
  have stopped : Stops isNamePart r := by
    refine stops.resolve_left fun mark => ?_
    obtain ⟨d, y, rfl⟩ := List.exists_cons_of_ne_nil nonempty
    obtain ⟨e, w, rfl⟩ := List.exists_cons_of_ne_nil wordSome
    have named := Character.isNamePart_of_isWord (inWord e List.mem_cons_self)
    rw [← (List.cons.inj same).1, (mark.2 d (by simp [cut])).1] at named
    cases named
  have whole : y = w ∧ r = gap ++ c :: r' := by
    rcases List.append_eq_append_iff.mp same with ⟨a, longer, rest⟩ | ⟨a, longer, rest⟩
    · cases a with
      | nil => exact ⟨by simpa using longer.symm, by simpa using rest⟩
      | cons d a =>
          have named := Character.isNamePart_of_isWord (inWord d (by simp [longer]))
          rw [rest, List.cons_append, Matcher.stops_cons, named] at stopped
          cases stopped
    · cases a with
      | nil => exact ⟨by simpa using longer, by simpa using rest.symm⟩
      | cons d a =>
          obtain ⟨b, gap, rfl⟩ := List.exists_cons_of_ne_nil some
          have seen := visible d (by simp [longer])
          rw [← (List.cons.inj rest).1, blank b List.mem_cons_self] at seen
          cases seen
  obtain ⟨rfl, rest⟩ := whole
  rcases guarded with other | closed
  · have ends : Text.endsIn (x ++ y) y = true := by
      refine Text.endsIn_append inWord fun d last => edge d ?_
      rw [List.head?_append, List.head?_reverse, last]
      rfl
    rw [← cut, other y member] at ends
    cases ends
  · have closes := closed gap c r' rest blank (opened.visible c begins)
    rw [begins] at closes
    cases closes

/-- A guarded list is silent. -/
theorem silent_of_guarded {lexemes : List Lexeme} (sound : IsSound lexemes)
    (chain : lexemes.IsChain (Guards keys opens)) {t u : Text} (spelled : Spelled lexemes t)
    (final : ∀ last ∈ lexemes.getLast?, (IsMark last ∨ Stops isNamePart u) ∧
      ∀ w ∈ keys, Text.endsIn last.text w = false) (behind : Text) : Silent m behind t u := by
  induction lexemes generalizing t behind with
  | nil =>
      cases spelled
      exact Matcher.silent_nil m behind u
  | cons l lexemes ih =>
      obtain ⟨gap, rest, rfl, blank, -, later⟩ := spelled
      rw [Matcher.silent_append, Matcher.silent_append]
      have stops := sound.stops later fun last member => (final last member).1
      have guarded : (∀ w ∈ keys, Text.endsIn l.text w = false) ∨
          ∀ gap c r', rest ++ u = gap ++ c :: r' → Blank gap → isBlank c = false →
            opens c = false := by
        cases lexemes with
        | nil => exact Or.inl (final l rfl).2
        | cons l' lexemes =>
            refine (List.isChain_cons_cons.mp chain).1.imp_right
              fun closed gap c r' same blank visible => ?_
            obtain ⟨gap', rest', rfl, blank', -, -⟩ := later
            have next := sound.tail.visible l' List.mem_cons_self
            obtain ⟨d, w, text⟩ := List.exists_cons_of_ne_nil next.1
            have first : isBlank d = false := next.2 d (by simp [text])
            have begins : gap' ++ d :: (w ++ rest' ++ u) = gap ++ c :: r' := by
              rw [← same, text]
              simp
            obtain ⟨-, rfl, -⟩ := Text.eq_of_blanks_append blank' blank first visible begins
            exact closed d (by simp [text])
      refine ⟨silent_of_gap opened blank behind _,
        silent_text opened (sound.kinds l List.mem_cons_self)
        stops guarded _, ih sound.tail (List.IsChain.tail chain) later (fun last member => ?_) _⟩
      exact final last (List.mem_getLast?_cons member)

end

/-! ## Readers that end with a semicolon -/

/-- The marks that no statement has in front of its end. -/
def statementMarks : List Char :=
  ['(', ')', '\x7b', '}', '<', '>', '[', ']', ',', ';']

/-- A reader of statements that begin with the word and end with a semicolon,
with nothing in front of it that the statement cannot pass over. -/
structure IsStatement {α : Type} (m : Matcher α) (w : Text) (opens passes : Char → Bool) :
  Prop where
  opened : IsOpened m [w] opens
  ends : ∀ behind ahead, m ⟨behind, ahead⟩ ≠ [] →
    ∃ s r, ahead = s ++ ';' :: r ∧ ∀ c ∈ s, passes c = true
  marks : ∀ d ∈ statementMarks, passes d = false ∧ opens d = false

section

variable {α : Type} {m : Matcher α} {w : Text} {opens passes : Char → Bool}
  (statement : IsStatement m w opens passes)
include statement

/-- No statement begins in a text without semicolons that something follows
which it cannot pass over. -/
theorem silent_of_mark {s : Text} (noEnd : ';' ∉ s) {d : Char} (isMark : passes d = false)
    (other : d ≠ ';') (behind rest : Text) : Silent m behind s (d :: rest) := by
  intro x y cut _
  apply Classical.byContradiction
  intro reads
  obtain ⟨a, r, same, passed⟩ := statement.ends _ _ reads
  rcases List.append_eq_append_iff.mp same with ⟨b, longer, rest'⟩ | ⟨b, longer, rest'⟩
  · cases b with
    | nil => exact other (List.cons.inj rest').1
    | cons e b =>
        obtain ⟨rfl, -⟩ := List.cons.inj rest'
        rw [passed d (by simp [longer])] at isMark
        cases isMark
  · cases b with
    | nil => exact other (List.cons.inj rest').1.symm
    | cons e b =>
        obtain ⟨rfl, -⟩ := List.cons.inj rest'
        exact noEnd (by simp [cut, longer])

theorem silent_through_mark {s : Text} (noEnd : ';' ∉ s) {d : Char} (isMark : passes d = false)
    (other : d ≠ ';') (notWord : isWord d = false) (behind rest : Text) :
    Silent m behind (s ++ [d]) rest := by
  refine Matcher.silent_append.mpr ⟨silent_of_mark statement noEnd isMark other behind rest, ?_⟩
  refine silent_of_not_word statement.opened (fun c member => ?_) _ rest
  rw [List.mem_singleton.mp member]
  exact notWord

/-- No statement begins in a text that does not mention its word, up to a
character that ends the last word. -/
theorem silent_of_unmentioned {s : Text} (unmentioned : Text.mentions s w = false) {d : Char}
    (notWord : isWord d = false) (behind rest : Text) : Silent m behind s (d :: rest) := by
  intro x y cut nonempty
  apply Classical.byContradiction
  intro reads
  obtain ⟨edge, v, member, gap, c, r, same, blank, parted, -⟩ := statement.opened.reads _ _ reads
  rw [List.mem_singleton.mp member] at same
  have words := (statement.opened.words w List.mem_cons_self).2
  have behindWord : ∃ z, y = w ++ z ∧ ∀ c, z.head? = some c → isWord c = false := by
    rcases List.append_eq_append_iff.mp same with ⟨a, longer, rest'⟩ | ⟨a, longer, rest'⟩
    · cases a with
      | nil => exact ⟨[], by simpa using longer.symm, by simp⟩
      | cons e a =>
          obtain ⟨rfl, -⟩ := List.cons.inj rest'
          rw [words d (by simp [longer])] at notWord
          cases notWord
    · refine ⟨a, longer, fun c head => ?_⟩
      obtain ⟨b, gap, rfl⟩ := List.exists_cons_of_ne_nil parted
      obtain ⟨e, a, rfl⟩ := List.exists_cons_of_ne_nil (fun none => by simp [none] at head : a ≠ [])
      rw [← Option.some.inj head, ← (List.cons.inj rest').1]
      exact Character.not_isWord_of_isBlank (blank b List.mem_cons_self)
  obtain ⟨z, rfl, after⟩ := behindWord
  have mentioned : Text.mentions (x ++ (w ++ z)) w = true := by
    refine Text.mentions_of_between words (fun c last => edge c ?_) after
    rw [List.head?_append, List.head?_reverse, last]
    rfl
  rw [← cut, unmentioned] at mentioned
  cases mentioned

end

/-- The characters of a package statement in front of its semicolon. -/
def isPackagePart (c : Char) : Bool :=
  isDottedPart c || isBlank c

/-- The characters of an import statement in front of its semicolon. -/
def isPathPart (c : Char) : Bool :=
  isDottedPart c || isBlank c || c == '*'

theorem isPackagePart_of_blank {gap : Text} (blank : Blank gap) :
    ∀ c ∈ gap, isPackagePart c = true :=
  fun c member => by simp [isPackagePart, blank c member]

theorem isPackagePart_of_dotted {t : Text} (dotted : ∀ c ∈ t, isDottedPart c = true) :
    ∀ c ∈ t, isPackagePart c = true :=
  fun c member => by simp [isPackagePart, dotted c member]

theorem isPathPart_of_blank {gap : Text} (blank : Blank gap) : ∀ c ∈ gap, isPathPart c = true :=
  fun c member => by simp [isPathPart, blank c member]

theorem isPathPart_of_named {t : Text} (named : ∀ c ∈ t, isNamePart c = true) :
    ∀ c ∈ t, isPathPart c = true :=
  fun c member => by simp [isPathPart, Character.isDottedPart_of_isNamePart (named c member)]

/-- A reader that looks for the edge of a word before it reads on. -/
theorem exists_taken_at_edge {α : Type} {later : Matcher α} {P : Text → Prop}
    (takes : Matcher.Takes later P) {behind ahead : Text}
    (reads : (do Matcher.wordEdge; later : Matcher α) ⟨behind, ahead⟩ ≠ []) :
    Place.atWordEdge ⟨behind, ahead⟩ = true ∧ ∃ s rest, P s ∧ ahead = s ++ rest := by
  obtain ⟨⟨value, last⟩, others, readings⟩ := List.exists_cons_of_ne_nil reads
  have member : (value, last) ∈ (do Matcher.wordEdge; later : Matcher α) ⟨behind, ahead⟩ := by
    rw [readings]
    exact List.mem_cons_self
  obtain ⟨⟨⟩, between, first, second⟩ := Matcher.mem_bind.mp member
  cases edge : Place.atWordEdge ⟨behind, ahead⟩ with
  | false =>
      rw [Matcher.wordEdge, Matcher.require_of_false edge] at first
      cases first
  | true =>
      rw [Matcher.wordEdge, Matcher.require_of_true edge, List.mem_singleton] at first
      obtain ⟨-, rfl⟩ := Prod.mk.inj first
      obtain ⟨s, holds, shape, -⟩ := takes _ _ second
      exact ⟨rfl, s, _, holds, shape⟩

/-- At the edge of a word that begins there, no word ends. -/
theorem not_isWord_of_atWordEdge {behind ahead w v : Text}
    (edge : Place.atWordEdge ⟨behind, ahead⟩ = true) (same : ahead = w ++ v) (nonempty : w ≠ [])
    (words : ∀ c ∈ w, isWord c = true) :
    ∀ c, behind.head? = some c → isWord c = false := by
  subst same
  obtain ⟨d, w, rfl⟩ := List.exists_cons_of_ne_nil nonempty
  intro c head
  have first := words d List.mem_cons_self
  simpa [Place.atWordEdge, head, first] using edge

/-- What a statement reader takes: the word, blanks, a name of which it knows the
first character, and a semicolon. -/
def TakesStatement (w : Text) (opens passes : Char → Bool) (s : Text) : Prop :=
  ∃ gap c u, s = w ++ (gap ++ c :: (u ++ [';'])) ∧ Blank gap ∧ gap ≠ [] ∧ opens c = true ∧
    ∀ d ∈ w ++ (gap ++ c :: u), passes d = true

theorem isStatement_of_takes {α : Type} {later : Matcher α} {w : Text} {opens passes : Char → Bool}
    (nonempty : w ≠ []) (words : ∀ c ∈ w, isWord c = true)
    (visible : ∀ c, opens c = true → isBlank c = false)
    (marks : ∀ d ∈ statementMarks, passes d = false ∧ opens d = false)
    (takes : Matcher.Takes later (TakesStatement w opens passes)) :
    IsStatement (do Matcher.wordEdge; later : Matcher α) w opens passes where
  opened := {
    words := fun v member => by rw [List.mem_singleton.mp member]; exact ⟨nonempty, words⟩
    visible := visible
    reads := by
      intro behind ahead reads
      obtain ⟨edge, _, rest, ⟨gap, c, u, rfl, blank, some, begins, -⟩, same⟩ :=
        exists_taken_at_edge takes reads
      rw [List.append_assoc] at same
      refine ⟨not_isWord_of_atWordEdge edge same nonempty words, w, List.mem_cons_self, gap, c,
        u ++ ';' :: rest, by simp [same], blank, some, begins⟩ }
  ends := by
    intro behind ahead reads
    obtain ⟨-, _, rest, ⟨gap, c, u, rfl, -, -, -, passed⟩, same⟩ := exists_taken_at_edge takes reads
    exact ⟨w ++ (gap ++ c :: u), rest, by simp [same], passed⟩
  marks := marks

theorem isStatement_packageName :
    IsStatement Matcher.packageName "package".toList isDottedPart isPackagePart := by
  apply isStatement_of_takes (by decide) (by decide)
    (fun c => Character.not_isBlank_of_isDottedPart)
    (by decide)
  apply ((Matcher.takes_word "package".toList).bind fun _ => (Matcher.takes_run1 isBlank).bind
    fun _ => (Matcher.takes_run1 isDottedPart).stretch.bind fun name =>
      (Matcher.takes_run isBlank).bind fun _ => (Matcher.takes_char ';').bind fun _ =>
        Matcher.takes_pure name).mono
  rintro _ ⟨_, _, rfl, rfl, gap, _, rfl, ⟨some, blank⟩, name, _, rfl, ⟨some', parts⟩, gap', _, rfl,
    blank', _, _, rfl, rfl, rfl⟩
  obtain ⟨c, name, rfl⟩ := List.exists_cons_of_ne_nil some'
  refine ⟨gap, c, name ++ gap', by simp, blank, some, parts c List.mem_cons_self, ?_⟩
  rw [← List.cons_append]
  simp only [List.forall_mem_append]
  exact ⟨by decide, isPackagePart_of_blank blank, isPackagePart_of_dotted parts,
    isPackagePart_of_blank blank'⟩

/-- The characters of a path in an import statement. -/
theorem takes_path :
    Matcher.Takes (Matcher.stretch do
      Matcher.run1 isNamePart
      Matcher.many do
        Matcher.spacedDot
        Matcher.run1 isNamePart
      Matcher.maybe do
        Matcher.spacedDot
        Matcher.char '*') fun s => ∃ c u, s = c :: u ∧ isNamePart c = true ∧
          ∀ d ∈ c :: u, isPathPart d = true := by
  have dot : Matcher.Takes Matcher.spacedDot fun s => ∀ d ∈ s, isPathPart d = true := by
    apply ((Matcher.takes_run isBlank).bind fun _ => (Matcher.takes_char '.').bind fun _ =>
      Matcher.takes_run isBlank).mono
    rintro _ ⟨gap, _, rfl, blank, _, gap', rfl, rfl, blank'⟩
    simp only [List.forall_mem_append]
    exact ⟨isPathPart_of_blank blank, by decide, isPathPart_of_blank blank'⟩
  apply ((Matcher.takes_run1 isNamePart).bind fun _ =>
    (dot.bind fun _ => Matcher.takes_run1 isNamePart).many.bind fun _ =>
      (dot.bind fun _ => Matcher.takes_char '*').maybe).stretch.mono
  rintro _ ⟨first, _, rfl, ⟨some, parts⟩, _, tail, rfl, ⟨rounds, rfl, each⟩, wild⟩
  obtain ⟨c, first, rfl⟩ := List.exists_cons_of_ne_nil some
  refine ⟨c, first ++ (rounds.flatten ++ tail), rfl, parts c List.mem_cons_self, ?_⟩
  rw [← List.cons_append]
  simp only [List.forall_mem_append]
  refine ⟨isPathPart_of_named parts, ?_, ?_⟩
  · intro d member
    obtain ⟨r, isRound, inRound⟩ := List.mem_flatten.mp member
    obtain ⟨a, b, rfl, inDot, -, inName⟩ := each r isRound
    exact (List.mem_append.mp inRound).elim (inDot d) (isPathPart_of_named inName d)
  · rcases wild with ⟨a, _, rfl, inDot, rfl⟩ | rfl
    · exact List.forall_mem_append.mpr ⟨inDot, by decide⟩
    · simp

theorem isStatement_importPath :
    IsStatement Matcher.importPath "import".toList isNamePart isPathPart := by
  apply isStatement_of_takes (by decide) (by decide) (fun c => Character.not_isBlank_of_isNamePart)
    (by decide)
  have static :=
    ((Matcher.takes_word "static".toList).bind fun _ => Matcher.takes_run1 isBlank).optional
  apply ((Matcher.takes_word "import".toList).bind fun _ => (Matcher.takes_run1 isBlank).bind
    fun _ => static.bind fun isStatic => takes_path.bind fun path =>
      (Matcher.takes_run isBlank).bind fun _ => (Matcher.takes_char ';').bind fun _ =>
        Matcher.takes_pure (isStatic.isSome, path)).mono
  rintro _ ⟨_, _, rfl, rfl, gap, _, rfl, ⟨some, blank⟩, front, _, rfl, isStatic, _, _, rfl,
    ⟨c, u, rfl, begins, parts⟩, gap', _, rfl, blank', _, _, rfl, rfl, rfl⟩
  have path := List.forall_mem_append.mpr ⟨parts, isPathPart_of_blank blank'⟩
  have word : ∀ d ∈ "import".toList, isPathPart d = true := by decide
  rcases isStatic with ⟨_, gap'', rfl, rfl, -, blank''⟩ | rfl
  · refine ⟨gap, 's', "tatic".toList ++ (gap'' ++ (c :: (u ++ gap'))), by simp, blank, some,
      by decide, ?_⟩
    rw [← List.cons_append]
    simp only [List.forall_mem_append]
    exact ⟨word, isPathPart_of_blank blank, by decide, isPathPart_of_blank blank'', path⟩
  · refine ⟨gap, c, u ++ gap', by simp, blank, some, begins, ?_⟩
    exact List.forall_mem_append.mpr
      ⟨word, List.forall_mem_append.mpr ⟨isPathPart_of_blank blank, path⟩⟩

theorem isOpened_className : IsOpened Matcher.className Matcher.classWords isNamePart where
  words := by decide
  visible := fun c => Character.not_isBlank_of_isNamePart
  reads := by
    intro behind ahead reads
    have takes := (Matcher.takes_anyOf Matcher.classWords).bind fun _ =>
      (Matcher.takes_run1 isBlank).bind fun _ => (Matcher.takes_run1 isNamePart).stretch
    obtain ⟨edge, _, rest, ⟨w, _, rfl, member, gap, name, rfl, ⟨parted, blank⟩, some, parts⟩,
      same⟩ :=
      exists_taken_at_edge takes reads
    obtain ⟨c, name, rfl⟩ := List.exists_cons_of_ne_nil some
    have word := (by decide : ∀ w ∈ Matcher.classWords, w ≠ [] ∧ ∀ c ∈ w, isWord c = true) w member
    rw [List.append_assoc] at same
    exact ⟨not_isWord_of_atWordEdge edge same word.1 word.2, w, member, gap, c, name ++ rest,
      by simp [same], blank, parted, parts c List.mem_cons_self⟩

end Lexeme
end Testwright
