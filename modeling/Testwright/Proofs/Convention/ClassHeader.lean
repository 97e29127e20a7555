import Testwright.Convention.Conversion
import Testwright.Proofs.Header.Insertion
import Testwright.Proofs.Matcher.Searching
import Testwright.Proofs.Declaration.Heading

namespace Testwright

/-!
# Headers of classes

A class header is read where a lead, modifiers, the word `class`, a name and a body
without braces stand in front of an opening brace (`ClassHeader.Opens`); type parameters in
front of the body belong to the declaration, the rest of it are the clauses.  Since
the body goes on to the brace, a header is read the same whatever the brace opens.
-/

open Character (isBlank isNamePart)
open Header (isSpaceOrTab)
open Matcher (Reads Stops Takes angleArguments classHeader classModifiers isNotBrace spacedWords)
open Text (Blank)

namespace Matcher

/-! ## Words with blanks behind them -/

/-- Any number of the words, each with blanks behind it. -/
def IsSpacedWords (words : List Text) (s : Text) : Prop :=
  ∃ rounds : List Text, s = rounds.flatten ∧
    ∀ r ∈ rounds, ∃ w gap, r = w ++ gap ∧ w ∈ words ∧ gap ≠ [] ∧ Blank gap

theorem spacedWords_eq (words : List Text) : spacedWords words = many (Lexeme.choice words) := rfl

theorem takes_spacedWords (words : List Text) :
    Takes (spacedWords words) (IsSpacedWords words) := by
  apply ((takes_anyOf words).bind fun _ => takes_run1 isBlank).many.mono
  rintro s ⟨rounds, rfl, each⟩
  refine ⟨rounds, rfl, fun r member => ?_⟩
  rcases each r member with ⟨w, gap, rfl, isChoice, some, blank⟩
  exact ⟨w, gap, rfl, isChoice, some, blank⟩

/-- Any number of the words and then this one, each with blanks behind it. -/
def phrase (words : List Text) (w : Text) : Matcher Unit := do
  spacedWords words
  word w
  run1 isBlank

/-- What `phrase` reads. -/
def IsPhrase (words : List Text) (w s : Text) : Prop :=
  ∃ lead gap, s = lead ++ (w ++ gap) ∧ IsSpacedWords words lead ∧ gap ≠ [] ∧ Blank gap

theorem takes_phrase (words : List Text) (w : Text) :
    Takes (phrase words w) (IsPhrase words w) := by
  apply ((takes_spacedWords words).bind fun _ => (takes_word w).bind fun _ =>
    takes_run1 isBlank).mono
  rintro s ⟨lead, _, rfl, spaced, _, gap, rfl, rfl, some, blank⟩
  exact ⟨lead, gap, rfl, spaced, some, blank⟩

section Distinct

variable {words : List Text} (distinct : Lexeme.AreDistinct words)
include distinct

theorem stops_isBlank_of_rounds {rounds : List Text}
    (each : ∀ r ∈ rounds, ∃ w gap, r = w ++ gap ∧ w ∈ words ∧ gap ≠ [] ∧ Blank gap) {t : Text}
    (stops : Stops isBlank t) : Stops isBlank (rounds.flatten ++ t) := by
  cases rounds with
  | nil => exact stops
  | cons r rounds =>
      rcases each r List.mem_cons_self with ⟨w, gap, rfl, isChoice, -, -⟩
      rcases distinct.keywords w isChoice with ⟨some, named⟩
      rcases List.exists_cons_of_ne_nil some with ⟨c, w, rfl⟩
      exact Character.not_isBlank_of_isNamePart (named c List.mem_cons_self)

/-- All the words are taken in front of a text that begins unlike each of them. -/
theorem reads_spacedWords {s t : Text} (h : IsSpacedWords words s) (stops : Stops isBlank t)
    (apart : ∀ w ∈ words, w.head? ≠ t.head?) (behind : Text) :
    Reads (spacedWords words) ⟨behind, s ++ t⟩ () ⟨s.reverse ++ behind, t⟩ := by
  rcases h with ⟨rounds, rfl, each⟩
  rw [spacedWords_eq]
  induction rounds generalizing behind with
  | nil =>
      have none : ∀ w ∈ words, ¬ w <+: t := by
        rintro w isWord ⟨r, rfl⟩
        rcases List.exists_cons_of_ne_nil (distinct.keywords w isWord).1 with ⟨c, w, rfl⟩
        exact apart _ isWord rfl
      exact Reads.many_stop (bind_of_nil (anyOf_eq_nil none))
  | cons r rounds ih =>
      rcases each r List.mem_cons_self with ⟨w, gap, rfl, isChoice, some, blank⟩
      have others := fun r' member => each r' (List.mem_cons_of_mem _ member)
      have stops' := stops_isBlank_of_rounds distinct others stops
      have step := Lexeme.choice_append distinct isChoice blank some stops' behind
      have rest := ih (gap.reverse ++ (w.reverse ++ behind)) others
      have read := Reads.many_step (Lexeme.consumes_choice words) (Reads.of_eq_cons step) rest
      simpa using read

/-- The words, and then this one with blanks behind it. -/
theorem reads_phrase {w s t : Text} (h : IsPhrase words w s) (isWord : Lexeme.IsKeyword w)
    (apart : ∀ w' ∈ words, w'.head? ≠ w.head?) (stops : Stops isBlank t) (behind : Text) :
    Reads (phrase words w) ⟨behind, s ++ t⟩ () ⟨s.reverse ++ behind, t⟩ := by
  rcases h with ⟨lead, gap, rfl, spaced, some, blank⟩
  rcases isWord with ⟨nonempty, named⟩
  rcases List.exists_cons_of_ne_nil nonempty with ⟨c, w, rfl⟩
  have visible : Stops isBlank (c :: w ++ (gap ++ t)) :=
    Character.not_isBlank_of_isNamePart (named c List.mem_cons_self)
  have modifiers := reads_spacedWords distinct spaced visible apart behind
  have final : Reads (word (c :: w) >>= fun _ => run1 isBlank)
      ⟨lead.reverse ++ behind, c :: w ++ (gap ++ t)⟩ ()
      ⟨gap.reverse ++ ((c :: w).reverse ++ (lead.reverse ++ behind)), t⟩ := by
    rw [Reads, bind_of_single (word_append (c :: w) _ _), run1_append blank some stops]
    rfl
  have read : Reads (phrase words (c :: w)) _ () _ := modifiers.bind final
  simpa using read

end Distinct

/-! ## The parts of a class header -/

/-- The text read last, nearest character first, ends a line or is none at all. -/
def BeginsLine (behind : Text) : Prop :=
  ∀ c, behind.head? = some c → c = '\n'

/-- What may stand in front of a class header: spaces and tabs at the start of a line
or behind a semicolon or a closing brace. -/
def LeadsClass (behind lead : Text) : Prop :=
  (BeginsLine behind ∧ ∀ c ∈ lead, isSpaceOrTab c = true) ∨
    ∃ c spaces, lead = c :: spaces ∧ (c = ';' ∨ c = '}') ∧ ∀ c ∈ spaces, isSpaceOrTab c = true

/-- Modifiers, the word `class` and a name. -/
def IsClassHeading (s : Text) : Prop :=
  ∃ lead name, s = lead ++ name ∧ IsPhrase classModifiers "class".toList lead ∧
    name ≠ [] ∧ ∀ c ∈ name, isNamePart c = true

/-- The type parameters that belong to the declaration, and the clauses behind
them. -/
def AreClauses (angles clauses : Text) : Prop :=
  (∃ gap inner, angles = gap ++ '<' :: (inner ++ ['>']) ∧ Blank gap ∧ '>' ∉ inner) ∨
    angles = [] ∧ ∀ gap inner rest, Blank gap → clauses ≠ gap ++ '<' :: (inner ++ '>' :: rest)

/-- A body can be parted into type parameters and clauses. -/
theorem exists_clauses (body : Text) :
    ∃ angles clauses, body = angles ++ clauses ∧ AreClauses angles clauses := by
  by_cases none : ∀ gap inner rest, Blank gap → body ≠ gap ++ '<' :: (inner ++ '>' :: rest)
  · exact ⟨[], body, rfl, Or.inr ⟨rfl, none⟩⟩
  · push Not at none
    rcases none with ⟨gap, inner, rest, blank, rfl⟩
    have closes : '>' ∈ inner ++ '>' :: rest := by simp
    rcases List.eq_append_cons_of_mem closes with ⟨inside, clauses, whole, first⟩
    refine ⟨gap ++ '<' :: (inside ++ ['>']), clauses, by simp [whole],
      Or.inl ⟨gap, inside, rfl, blank, first⟩⟩

theorem areDistinct_classModifiers : Lexeme.AreDistinct classModifiers where
  keywords := by decide
  nodup := by decide
  apart := by decide

/-- A heading begins with the word `class` or a modifier, and a blank. -/
theorem exists_word {s : Text} (h : IsClassHeading s) :
    ∃ w c r, s = w ++ c :: r ∧ w ∈ "class".toList :: classModifiers ∧ isBlank c = true := by
  rcases h with ⟨_, name, rfl, ⟨_, gap, rfl, ⟨rounds, rfl, each⟩, some, blank⟩, -, -⟩
  cases rounds with
  | nil =>
      rcases List.exists_cons_of_ne_nil some with ⟨c, gap, rfl⟩
      exact ⟨"class".toList, c, gap ++ name, by simp, List.mem_cons_self,
        blank c List.mem_cons_self⟩
  | cons r rounds =>
      rcases each r List.mem_cons_self with ⟨w, gap', rfl, isWord, some', blank'⟩
      rcases List.exists_cons_of_ne_nil some' with ⟨c, gap', rfl⟩
      exact ⟨w, c, gap' ++ rounds.flatten ++ ("class".toList ++ gap) ++ name, by simp,
        List.mem_cons_of_mem _ isWord, blank' c List.mem_cons_self⟩

/-- A heading begins with a letter of its words. -/
theorem exists_front {s : Text} (h : IsClassHeading s) :
    ∃ c r, s = c :: r ∧ c ∈ "pafsc".toList := by
  rcases exists_word h with ⟨w, d, r, rfl, isWord, -⟩
  have fronts : ∀ w ∈ "class".toList :: classModifiers, ∃ c r, w = c :: r ∧ c ∈ "pafsc".toList := by
    simp [classModifiers]
  rcases fronts w isWord with ⟨c, r', rfl, front⟩
  exact ⟨c, r' ++ d :: r, rfl, front⟩

/-- A heading consists of names and blanks. -/
theorem isNamePart_or_isBlank {s : Text} (h : IsClassHeading s) :
    ∀ c ∈ s, isNamePart c = true ∨ isBlank c = true := by
  rcases h with ⟨_, name, rfl, ⟨_, gap, rfl, ⟨rounds, rfl, each⟩, -, blank⟩, -, named⟩
  simp only [List.forall_mem_append]
  refine ⟨⟨fun c member => ?_, by decide, fun c member => Or.inr (blank c member)⟩,
    fun c member => Or.inl (named c member)⟩
  rcases List.mem_flatten.mp member with ⟨r, isRound, inside⟩
  rcases each r isRound with ⟨w, gap', rfl, isWord, -, blank'⟩
  rcases List.mem_append.mp inside with inWord | inGap
  · exact Or.inl ((areDistinct_classModifiers.keywords w isWord).2 c inWord)
  · exact Or.inr (blank' c inGap)

/-- The reader of modifiers, the word `class` and a name. -/
def classHeading : Matcher Unit := do
  phrase classModifiers "class".toList
  run1 isNamePart

theorem takes_classHeading : Takes classHeading IsClassHeading := by
  apply ((takes_phrase classModifiers "class".toList).bind fun _ => takes_run1 isNamePart).mono
  rintro s ⟨lead, name, rfl, isPhrase, nonempty, named⟩
  exact ⟨lead, name, rfl, isPhrase, nonempty, named⟩

/-- The name of a class header is not broken off. -/
theorem stops_of_classHeading {place later : Place} (member : ((), later) ∈ classHeading place) :
    Stops isNamePart later.ahead := by
  rcases mem_bind.mp member with ⟨-, between, -, member⟩
  rcases mem_bind.mp member with ⟨-, between', -, member⟩
  rcases Prod.mk.inj (List.mem_singleton.mp member) with ⟨-, rfl⟩
  exact stops_past isNamePart _ _

theorem reads_classHeading {s t : Text} (h : IsClassHeading s) (stops : Stops isNamePart t)
    (behind : Text) :
    Reads classHeading ⟨behind, s ++ t⟩ () ⟨s.reverse ++ behind, t⟩ := by
  rcases h with ⟨lead, name, rfl, isPhrase, nonempty, named⟩
  have visible : Stops isBlank (name ++ t) := by
    rcases List.exists_cons_of_ne_nil nonempty with ⟨c, name, rfl⟩
    exact Character.not_isBlank_of_isNamePart (named c List.mem_cons_self)
  have front :=
    reads_phrase areDistinct_classModifiers isPhrase (by decide) (by decide) visible behind
  have read : Reads classHeading _ () _ :=
    front.bind (Reads.of_eq_cons (run1_append named nonempty stops _))
  simpa using read

/-- The reader of a lead. -/
def classLead : Matcher Unit := do
  orElse lineStart (one fun c => c == ';' || c == '}')
  run isSpaceOrTab

theorem atLineStart_iff (behind ahead : Text) :
    Place.atLineStart ⟨behind, ahead⟩ = true ↔ BeginsLine behind := by
  cases behind <;> simp [Place.atLineStart, BeginsLine]

/-- The reader of a class header behind its lead. -/
def classBody : Matcher ClassHeader := do
  let declaration ← stretch do
    classHeading
    maybe angleArguments
  let clauses ← stretch (run isNotBrace)
  char '\x7b'
  return { declaration, clauses }

theorem classBody_eq_nil {c : Char} (other : c ∉ "pafsc".toList) (behind t : Text) :
    classBody ⟨behind, c :: t⟩ = [] := by
  have none : classHeading ⟨behind, c :: t⟩ = [] := by
    apply takes_classHeading.eq_nil
    intro s u same isHeading
    rcases exists_front isHeading with ⟨d, r, rfl, front⟩
    rw [(List.cons.inj same).1] at other
    exact other front
  exact bind_of_nil (stretch_of_nil (bind_of_nil none))

theorem classHeader_eq : classHeader = (do
    classLead
    classBody) := by
  simp only [classHeader, classLead, classBody, classHeading, phrase, bind_assoc]

theorem mem_classLead {place later : Place} (member : ((), later) ∈ classLead place) :
    ∃ lead, LeadsClass place.behind lead ∧ place.ahead = lead ++ later.ahead ∧
      later.behind = lead.reverse ++ place.behind := by
  rcases mem_bind.mp member with ⟨_, between, atLead, inRun⟩
  rcases takes_run isSpaceOrTab between _ inRun with ⟨spaces, all, whole, same⟩
  rcases mem_orElse.mp atLead with atStart | inOne
  · rcases mem_require atStart with ⟨rfl, here⟩
    exact ⟨spaces, Or.inl ⟨(atLineStart_iff _ _).mp here, all⟩, whole, same⟩
  · rcases mem_one.mp inOne with ⟨c, ahead, ahead', isMark, rfl⟩
    refine ⟨c :: spaces, Or.inr ⟨c, spaces, rfl, by simpa using isMark, all⟩, ?_, ?_⟩
    · rw [ahead']
      simpa using whole
    · simpa using same

theorem isNotBrace_of_not_mem {t : Text} (noBrace : '\x7b' ∉ t) : ∀ c ∈ t, isNotBrace c = true :=
  fun c member => by
    have other : c ≠ '\x7b' := by
      rintro rfl
      exact noBrace member
    simp [isNotBrace, other]

theorem takes_angleArguments : Takes angleArguments fun s => ∃ gap inner,
    s = gap ++ '<' :: (inner ++ ['>']) ∧ Blank gap ∧ '\x7b' ∉ s := by
  apply ((takes_run isBlank).bind fun _ => (takes_char '<').bind fun _ =>
    (takes_lazyRuns isNotBrace).bind fun _ => takes_char '>').mono
  rintro s ⟨gap, _, rfl, blank, _, _, rfl, rfl, inner, _, rfl, all, rfl⟩
  refine ⟨gap, inner, by simp, blank, fun member => ?_⟩
  simp only [List.mem_append, List.mem_singleton] at member
  rcases member with inGap | opening | inside | closing
  · exact absurd (blank _ inGap) (by decide)
  · exact absurd opening (by decide)
  · exact absurd (all _ inside) (by decide)
  · exact absurd closing (by decide)

/-- The type parameters are taken up to the first bracket that closes them. -/
theorem reads_angles {angles clauses : Text} (parted : AreClauses angles clauses)
    (noBrace : '\x7b' ∉ angles ++ clauses) (behind : Text) {t : Text} (stops : Stops isNotBrace t) :
    Reads (maybe angleArguments) ⟨behind, angles ++ (clauses ++ t)⟩ ()
      ⟨angles.reverse ++ behind, clauses ++ t⟩ := by
  rcases parted with ⟨gap, inner, rfl, blank, first⟩ | ⟨rfl, none⟩
  · apply Reads.maybe
    have all : ∀ c ∈ inner, isNotBrace c = true :=
      isNotBrace_of_not_mem fun member => noBrace (by simp [member])
    have dead : ∀ x y, inner = x ++ y → y ≠ [] →
        char '>' ⟨x.reverse ++ ('<' :: (gap.reverse ++ behind)), y ++ '>' :: (clauses ++ t)⟩ =
          [] := by
      rintro x y rfl some
      rcases List.exists_cons_of_ne_nil some with ⟨c, y, rfl⟩
      have other : c ≠ '>' := by
        rintro rfl
        exact first (by simp)
      exact char_of_ne fun same => other (Option.some.inj same)
    have closes : Reads (lazyRuns isNotBrace >>= fun _ => char '>')
        ⟨'<' :: (gap.reverse ++ behind), inner ++ '>' :: (clauses ++ t)⟩ ()
        ⟨'>' :: (inner.reverse ++ ('<' :: (gap.reverse ++ behind))), clauses ++ t⟩ :=
      Reads.lazyRuns_bind all dead (Reads.of_eq_cons (char_self _ _ _))
    have visible : Stops isBlank ('<' :: (inner ++ '>' :: (clauses ++ t))) := by
      change isBlank '<' = false
      decide
    have opens : Reads (char '<' >>= fun _ => lazyRuns isNotBrace >>= fun _ => char '>')
        ⟨gap.reverse ++ behind, '<' :: (inner ++ '>' :: (clauses ++ t))⟩ () _ :=
      (Reads.of_eq_cons (char_self _ _ _)).bind closes
    have read : Reads angleArguments ⟨behind, gap ++ '<' :: (inner ++ '>' :: (clauses ++ t))⟩
        () _ :=
      (Reads.of_eq_cons (run_append blank visible behind)).bind opens
    simpa using read
  · have none' : angleArguments ⟨behind, clauses ++ t⟩ = [] := by
      apply takes_angleArguments.eq_nil
      rintro s r same ⟨gap, inner, shape, blank, absent⟩
      have within : ∃ u, clauses = s ++ u := by
        cases t with
        | nil => exact ⟨r, by rw [← same, List.append_nil]⟩
        | cons c t =>
            have brace : c = '\x7b' := by simpa [isNotBrace] using stops
            rcases Text.exists_behind (brace ▸ absent) same.symm with ⟨u, whole, -⟩
            exact ⟨u, whole⟩
      rcases within with ⟨u, whole⟩
      exact none gap inner u blank (by rw [whole, shape]; simp)
    exact Reads.of_eq_cons (maybe_of_nil none')

end Matcher

namespace ClassHeader

/-- The texts that a class header consists of. -/
structure Parts where
  lead : Text
  heading : Text
  angles : Text
  clauses : Text

namespace Parts

/-- The header up to its opening brace. -/
def text (parts : Parts) : Text :=
  parts.lead ++ (parts.heading ++ (parts.angles ++ parts.clauses))

/-- The texts can be read as a class header. -/
structure Fits (parts : Parts) (behind : Text) : Prop where
  lead : Matcher.LeadsClass behind parts.lead
  heading : Matcher.IsClassHeading parts.heading
  stops : Stops isNamePart (parts.angles ++ parts.clauses)
  clauses : Matcher.AreClauses parts.angles parts.clauses
  noBrace : '\x7b' ∉ parts.angles ++ parts.clauses

/-- The header that is read, behind `behind` and in front of `rest`. -/
def header (parts : Parts) (behind rest : Text) : ClassHeader :=
  let between : Place := ⟨(parts.lead ++ (parts.heading ++ parts.angles)).reverse ++ behind,
    parts.clauses ++ '\x7b' :: rest⟩
  { declaration := ⟨⟨parts.lead.reverse ++ behind,
      (parts.heading ++ parts.angles) ++ (parts.clauses ++ '\x7b' :: rest)⟩, between⟩
    clauses := ⟨between, ⟨parts.text.reverse ++ behind, '\x7b' :: rest⟩⟩ }

section Header

variable (parts : Parts) (behind rest : Text)

@[simp] theorem header_clauses_text : (parts.header behind rest).clauses.text = parts.clauses :=
  Matcher.text_mk _ _ _ _

@[simp] theorem header_clauses_after :
    (parts.header behind rest).clauses.after = '\x7b' :: rest := rfl

@[simp] theorem header_clauses_before : (parts.header behind rest).clauses.before =
    behind.reverse ++ (parts.lead ++ (parts.heading ++ parts.angles)) := by
  simp [header, Stretch.before]

@[simp] theorem header_declaration_text :
    (parts.header behind rest).declaration.text = parts.heading ++ parts.angles :=
  Matcher.text_mk _ _ _ _

@[simp] theorem header_declaration_before :
    (parts.header behind rest).declaration.before = behind.reverse ++ parts.lead := by
  simp [header, Stretch.before]

@[simp] theorem header_declaration_after :
    (parts.header behind rest).declaration.after = parts.clauses ++ '\x7b' :: rest := rfl

end Header

variable {parts : Parts} {behind : Text}

theorem Fits.reads_classBody (fits : parts.Fits behind) (rest : Text) :
    Reads Matcher.classBody ⟨parts.lead.reverse ++ behind,
        parts.heading ++ (parts.angles ++ (parts.clauses ++ '\x7b' :: rest))⟩
          (parts.header behind rest)
      ⟨'\x7b' :: (parts.text.reverse ++ behind), rest⟩ := by
  have afterHeading : Stops isNamePart (parts.angles ++ (parts.clauses ++ '\x7b' :: rest)) := by
    rw [← List.append_assoc]
    exact Matcher.stops_append_cons fits.stops (by decide) rest
  have brace : Stops isNotBrace ('\x7b' :: rest) := by
    change isNotBrace '\x7b' = false
    decide
  have all : ∀ c ∈ parts.clauses, isNotBrace c = true :=
    Matcher.isNotBrace_of_not_mem fun member => fits.noBrace (List.mem_append_right _ member)
  have heading :=
    Matcher.reads_classHeading fits.heading afterHeading (parts.lead.reverse ++ behind)
  have angles := Matcher.reads_angles fits.clauses fits.noBrace
    (parts.heading.reverse ++ (parts.lead.reverse ++ behind)) brace
  have declaration :
      Reads (Matcher.classHeading >>= fun _ => Matcher.maybe angleArguments) _ () _ :=
    heading.bind angles
  have clauses := Matcher.run_append all brace
    (parts.angles.reverse ++ (parts.heading.reverse ++ (parts.lead.reverse ++ behind)))
  have read : Reads Matcher.classBody _ _ _ := (Reads.stretch declaration).bind
    ((Reads.stretch (Reads.of_eq_cons clauses)).bind
      ((Reads.of_eq_cons (Matcher.char_self '\x7b' _ rest)).bind (Reads.pure _ _)))
  simpa [header, text] using read

/-- A header whose texts fit is read, whatever its brace opens. -/
theorem Fits.reads (fits : parts.Fits behind) (rest : Text) :
    Reads classHeader ⟨behind, parts.text ++ '\x7b' :: rest⟩ (parts.header behind rest)
      ⟨'\x7b' :: (parts.text.reverse ++ behind), rest⟩ := by
  have body := fits.reads_classBody rest
  have whole : parts.text ++ '\x7b' :: rest =
      parts.lead ++ (parts.heading ++ (parts.angles ++ (parts.clauses ++ '\x7b' :: rest))) := by
    simp [text]
  rw [Matcher.classHeader_eq, whole]
  set t := parts.heading ++ (parts.angles ++ (parts.clauses ++ '\x7b' :: rest)) with heading
  have stops : Stops isSpaceOrTab t := by
    rcases Matcher.exists_front fits.heading with ⟨c, s, shape, front⟩
    rw [heading, shape]
    exact (by decide : ∀ c ∈ "pafsc".toList, isSpaceOrTab c = false) c front
  rcases fits.lead with ⟨atStart, all⟩ | ⟨c, spaces, lead, mark, all⟩
  · have start := (Matcher.atLineStart_iff behind (parts.lead ++ t)).mpr atStart
    have first : Reads Matcher.classLead ⟨behind, parts.lead ++ t⟩ ()
        ⟨parts.lead.reverse ++ behind, t⟩ :=
      (Reads.orElse_left (Reads.of_eq_cons (Matcher.require_of_true start))).bind
        (Reads.of_eq_cons (Matcher.run_append all stops behind))
    exact first.bind body
  · rw [lead] at body ⊢
    have others : isSpaceOrTab c = false ∧ c ∉ "pafsc".toList := by
      rcases mark with rfl | rfl <;> decide
    have behindMark : Reads (Matcher.run isSpaceOrTab >>= fun _ => Matcher.classBody)
        ⟨c :: behind, spaces ++ t⟩ (parts.header behind rest)
          ⟨'\x7b' :: (parts.text.reverse ++ behind), rest⟩ := by
      apply (Reads.of_eq_cons (Matcher.run_append all stops (c :: behind))).bind
      simpa using body
    -- At the start of a line the mark is not taken, and no heading begins with it.
    have dead : ∀ reading ∈ Matcher.lineStart ⟨behind, c :: (spaces ++ t)⟩,
        (Matcher.run isSpaceOrTab >>= fun _ => Matcher.classBody) reading.2 = [] := by
      rintro ⟨_, later⟩ member
      rcases Matcher.mem_require member with ⟨rfl, -⟩
      have stopped : Stops isSpaceOrTab (c :: (spaces ++ t)) := others.1
      rw [Matcher.bind_of_single (Matcher.run_of_stops stopped behind)]
      exact Matcher.classBody_eq_nil others.2 _ _
    have one : Matcher.one (fun c => c == ';' || c == '}') ⟨behind, c :: (spaces ++ t)⟩ =
        [((), ⟨c :: behind, spaces ++ t⟩)] :=
      Matcher.one_of_true (by rcases mark with rfl | rfl <;> decide) behind (spaces ++ t)
    simp only [Matcher.classLead, Matcher.bind_assoc]
    rw [Reads, List.cons_append, Matcher.bind_append (congrArg (Matcher.lineStart _ ++ ·) one) dead]
    simpa [Reads] using behindMark

/-- Whatever is read has texts that fit. -/
theorem exists_of_ne_nil {t : Text} (some : classHeader ⟨behind, t⟩ ≠ []) :
    ∃ parts rest, t = text parts ++ '\x7b' :: rest ∧ parts.Fits behind := by
  rcases List.exists_mem_of_ne_nil _ some with ⟨⟨header, later⟩, member⟩
  rw [Matcher.classHeader_eq] at member
  rcases Matcher.mem_bind.mp member with ⟨_, place₁, inLead, member⟩
  rcases Matcher.mem_bind.mp member with ⟨declaration, place₂, inDeclaration, member⟩
  rcases Matcher.mem_bind.mp member with ⟨clauses, place₃, inClauses, member⟩
  rcases Matcher.mem_bind.mp member with ⟨_, place₄, inBrace, -⟩
  rcases Matcher.mem_classLead inLead with ⟨lead, leads, cut₁, -⟩
  rcases Matcher.mem_bind.mp (Matcher.mem_stretch inDeclaration) with
    ⟨_, between, inHeading, inAngles⟩
  rcases Matcher.takes_classHeading _ _ inHeading with ⟨heading, isHeading, cut₂, -⟩
  rcases Matcher.takes_angleArguments.maybe _ _ inAngles with ⟨angles, isAngles, cut₃, -⟩
  rcases (Matcher.takes_run isNotBrace).stretch _ _ inClauses with ⟨clauses', all, cut₄, -⟩
  rcases Matcher.takes_char '\x7b' _ _ inBrace with ⟨_, rfl, cut₅, -⟩
  simp only at cut₁ cut₂ cut₃ cut₄ cut₅
  have noBrace : '\x7b' ∉ angles ++ clauses' := by
    intro member
    rcases List.mem_append.mp member with inside | inside
    · rcases isAngles with ⟨gap, inner, -, -, absent⟩ | rfl
      · exact absent inside
      · exact absurd inside List.not_mem_nil
    · exact absurd (all _ inside) (by decide)
  have behindHeading : between.ahead = (angles ++ clauses') ++ '\x7b' :: place₄.ahead := by
    rw [cut₃, cut₄, cut₅]
    simp
  rcases Matcher.exists_clauses (angles ++ clauses') with ⟨angles', clauses'', body, parted⟩
  refine ⟨⟨lead, heading, angles', clauses''⟩, place₄.ahead, ?_, leads, isHeading, ?_, parted,
    body ▸ noBrace⟩
  · rw [cut₁, cut₂, behindHeading, body]
    simp [text]
  · have stops := Matcher.stops_of_classHeading inHeading
    rw [behindHeading, body] at stops
    exact Matcher.stops_of_append stops

end Parts

/-- A class header can be read here. -/
def Opens (behind t : Text) : Prop :=
  ∃ (parts : Parts) (rest : Text), t = parts.text ++ '\x7b' :: rest ∧ parts.Fits behind

theorem ne_nil_iff {behind t : Text} : classHeader ⟨behind, t⟩ ≠ [] ↔ Opens behind t := by
  constructor
  · exact Parts.exists_of_ne_nil
  · rintro ⟨parts, rest, rfl, fits⟩
    exact (fits.reads rest).ne_nil

/-- The first class header of a text. -/
theorem exists_of_find? {source : Text} {header : ClassHeader}
    (h : classHeader.find? source = some header) :
    ∃ (x : Text) (parts : Parts) (rest : Text), source = x ++ (parts.text ++ '\x7b' :: rest) ∧
      Matcher.Silent classHeader [] x (parts.text ++ '\x7b' :: rest) ∧ parts.Fits x.reverse ∧
      header = parts.header x.reverse rest := by
  rcases Matcher.exists_of_findFrom h with ⟨x, y, later, rfl, silent, reading⟩
  rw [List.append_nil] at reading
  rcases ne_nil_iff.mp reading.ne_nil with ⟨parts, rest, rfl, fits⟩
  have same := reading.symm.trans (fits.reads rest)
  exact ⟨x, parts, rest, rfl, silent, fits, (Prod.mk.inj (Option.some.inj same)).1⟩

section Brace

variable {parts : Parts} {behind : Text}

theorem isSpaceOrTab_or_mark (fits : parts.Fits behind) :
    ∀ c ∈ parts.lead, isSpaceOrTab c = true ∨ c = ';' ∨ c = '}' := by
  rcases fits.lead with ⟨-, all⟩ | ⟨m, spaces, lead, mark, all⟩
  · exact fun c member => Or.inl (all c member)
  · rw [lead]
    exact List.forall_mem_cons.mpr ⟨Or.inr mark, fun c member => Or.inl (all c member)⟩

theorem noBrace_text (fits : parts.Fits behind) : '\x7b' ∉ parts.text := by
  intro member
  rcases List.mem_append.mp member with inLead | member
  · exact absurd (isSpaceOrTab_or_mark fits _ inLead) (by decide)
  · rcases List.mem_append.mp member with inHeading | inBody
    · exact absurd (Matcher.isNamePart_or_isBlank fits.heading _ inHeading) (by decide)
    · exact fits.noBrace inBody

/-- What the brace opens does not matter. -/
theorem Opens.congr {a r : Text} (h : Opens behind (a ++ '\x7b' :: r)) (r' : Text) :
    Opens behind (a ++ '\x7b' :: r') := by
  rcases h with ⟨parts, rest, whole, fits⟩
  rcases Text.exists_cut (noBrace_text fits) whole with ⟨rfl, -⟩ | ⟨a', rfl, -⟩
  · exact ⟨parts, r', rfl, fits⟩
  · exact ⟨parts, a' ++ '\x7b' :: r', by simp, fits⟩

/-! ## Places where no header begins -/

theorem Parts.Fits.congr (fits : parts.Fits behind) {behind' : Text}
    (same : Matcher.BeginsLine behind → Matcher.BeginsLine behind') : parts.Fits behind' :=
  { fits with lead := fits.lead.imp_left fun ⟨begins, all⟩ => ⟨same begins, all⟩ }

/-- A header begins with its lead or with a letter of its words. -/
theorem Opens.front {c : Char} {t : Text} (h : Opens behind (c :: t)) :
    c = ';' ∨ c = '}' ∨
    Matcher.BeginsLine behind ∧ (isSpaceOrTab c = true ∨ c ∈ "pafsc".toList) := by
  rcases h with ⟨⟨lead, heading, angles, clauses⟩, rest, whole, fits⟩
  rcases fits.lead with ⟨begins, all⟩ | ⟨m, spaces, rfl, mark, all⟩
  · refine Or.inr (Or.inr ⟨begins, ?_⟩)
    cases lead with
    | nil =>
        rcases Matcher.exists_front fits.heading with ⟨d, r, rfl, front⟩
        rw [(List.cons.inj whole).1]
        exact Or.inr front
    | cons d lead =>
        rw [(List.cons.inj whole).1]
        exact Or.inl (all d List.mem_cons_self)
  · rw [(List.cons.inj whole).1]
    rcases mark with rfl | rfl
    · exact Or.inl rfl
    · exact Or.inr (Or.inl rfl)

/-- The lead of a header that begins with a semicolon. -/
theorem exists_spaces_of_semicolon {t rest : Text} (fits : parts.Fits behind)
    (whole : ';' :: t = parts.text ++ '\x7b' :: rest) :
    ∃ spaces, parts.lead = ';' :: spaces ∧ ∀ c ∈ spaces, isSpaceOrTab c = true := by
  rcases parts with ⟨lead, heading, angles, clauses⟩
  rcases fits.lead with ⟨-, all⟩ | ⟨m, spaces, rfl, -, all⟩
  · cases lead with
    | nil =>
        rcases Matcher.exists_front fits.heading with ⟨d, r, rfl, front⟩
        rw [← (List.cons.inj whole).1] at front
        exact absurd front (by decide)
    | cons d lead =>
        have first := all d List.mem_cons_self
        rw [← (List.cons.inj whole).1] at first
        exact absurd first (by decide)
  · rcases (List.cons.inj whole).1 with rfl
    exact ⟨spaces, rfl, all⟩

/-- Behind its first character, a header has no semicolon up to its body. -/
theorem exists_front_cons (fits : parts.Fits behind) :
    ∃ c front, parts.lead ++ parts.heading = c :: front ∧ ';' ∉ front := by
  rcases parts with ⟨lead, heading, angles, clauses⟩
  have inHeading : ';' ∉ heading := fun member =>
    absurd (Matcher.isNamePart_or_isBlank fits.heading _ member) (by decide)
  have inSpaces : ∀ spaces : Text, (∀ c ∈ spaces, isSpaceOrTab c = true) →
      ';' ∉ spaces := fun spaces all member =>
    absurd (all _ member) (by decide)
  rcases fits.lead with ⟨-, all⟩ | ⟨m, spaces, rfl, -, all⟩
  · have absent : ';' ∉ lead ++ heading := fun member =>
      (List.mem_append.mp member).elim (inSpaces lead all) inHeading
    rcases Matcher.exists_front fits.heading with ⟨d, r, rfl, -⟩
    rcases List.exists_cons_of_ne_nil (show lead ++ d :: r ≠ [] by simp) with ⟨c, front, shape⟩
    exact ⟨c, front, shape,
      fun member => absent (by rw [shape]; exact List.mem_cons_of_mem c member)⟩
  · exact ⟨m, spaces ++ heading, rfl, fun member =>
      (List.mem_append.mp member).elim (inSpaces spaces all) inHeading⟩

/-- Between its lead and its heading a header holds no line break. -/
theorem heading_ne_of_newline {spaces heading gap t u : Text}
    (all : ∀ c ∈ spaces, isSpaceOrTab c = true) (isHeading : Matcher.IsClassHeading heading)
    (blank : Blank gap) (newline : '\n' ∈ gap) :
    gap ++ t ≠ spaces ++ (heading ++ u) := by
  intro same
  rcases Matcher.exists_front isHeading with ⟨c, r, rfl, front⟩
  rcases List.append_of_mem newline with ⟨a, b, rfl⟩
  have absent : '\n' ∉ spaces := fun member => absurd (all _ member) (by decide)
  have cut : spaces ++ (c :: r ++ u) = a ++ '\n' :: (b ++ t) := by rw [← same]; simp
  rcases Text.exists_behind absent cut with ⟨y, rfl, rest⟩
  cases y with
  | nil =>
      rw [(List.cons.inj rest).1] at front
      exact absurd front (by decide)
  | cons d y =>
      have shown := (by decide : ∀ c ∈ "pafsc".toList, isBlank c = false) c front
      rw [(List.cons.inj rest).1, blank d (by simp)] at shown
      cases shown

theorem not_opens_of_blank {gap : Text} (blank : Blank gap) (newline : '\n' ∈ gap) (t : Text) :
    ¬ Opens behind (gap ++ t) := by
  rintro ⟨parts, rest, whole, fits⟩
  have shape : gap ++ t =
      parts.lead ++ (parts.heading ++ (parts.angles ++ parts.clauses ++ '\x7b' :: rest)) := by
    rw [whole]
    simp [Parts.text]
  rcases fits.lead with ⟨-, all⟩ | ⟨m, spaces, lead, mark, -⟩
  · exact heading_ne_of_newline all fits.heading blank newline shape
  · rcases List.exists_cons_of_ne_nil (List.ne_nil_of_mem newline) with ⟨c, gap, rfl⟩
    rw [lead] at shape
    have first := blank c List.mem_cons_self
    rw [(List.cons.inj shape).1] at first
    rcases mark with rfl | rfl
    · exact absurd first (by decide)
    · exact absurd first (by decide)

theorem not_opens_semicolon {gap : Text} (blank : Blank gap) (newline : '\n' ∈ gap) (t : Text) :
    ¬ Opens behind (';' :: (gap ++ t)) := by
  rintro ⟨parts, rest, whole, fits⟩
  rcases exists_spaces_of_semicolon fits whole with ⟨spaces, lead, all⟩
  have shape : ';' :: (gap ++ t) =
      ';' :: (spaces ++ (parts.heading ++ (parts.angles ++ parts.clauses ++ '\x7b' :: rest))) := by
    rw [whole, Parts.text, lead]
    simp
  exact heading_ne_of_newline all fits.heading blank newline (List.cons.inj shape).2

/-- No header begins with another word. -/
theorem not_opens_of_word {w t : Text} {c : Char} (keyword : Lexeme.IsKeyword w)
    (ends : isNamePart c = false) (other : w ∉ "class".toList :: classModifiers) :
    ¬ Opens behind (w ++ c :: t) := by
  rintro ⟨parts, rest, whole, fits⟩
  rcases parts with ⟨lead, heading, angles, clauses⟩
  rcases Matcher.exists_word fits.heading with ⟨w', d, r, shape, isWord, blank⟩
  have none : lead = [] := by
    cases lead with
    | nil => rfl
    | cons e lead =>
        rcases List.exists_cons_of_ne_nil keyword.1 with ⟨f, w, rfl⟩
        have named := keyword.2 f List.mem_cons_self
        rw [(List.cons.inj whole).1] at named
        rcases isSpaceOrTab_or_mark fits e List.mem_cons_self with space | rfl | rfl
        · have spaces : ∀ c, isSpaceOrTab c = true → isNamePart c = false := fun c space =>
            Character.not_isNamePart_of_isBlank (Header.isBlank_of_isSpaceOrTab space)
          rw [spaces e space] at named
          cases named
        · exact absurd named (by decide)
        · exact absurd named (by decide)
  have named' : ∀ e ∈ w', isNamePart e = true := by
    rcases List.mem_cons.mp isWord with rfl | isModifier
    · decide
    · exact (Matcher.areDistinct_classModifiers.keywords w' isModifier).2
  have same : w ++ c :: t = w' ++ d :: (r ++ (angles ++ clauses ++ '\x7b' :: rest)) := by
    rw [whole, none, Parts.text, show heading = w' ++ d :: r from shape]
    simp
  rcases Text.eq_of_run_append keyword.2 named' ends
    (Character.not_isNamePart_of_isBlank blank) same with
    ⟨rfl, -, -⟩
  exact other isWord

theorem silent_of_not_opens {s t : Text}
    (none : ∀ x y, s = x ++ y → y ≠ [] → ¬ Opens (x.reverse ++ behind) (y ++ t)) :
    Matcher.Silent classHeader behind s t := fun x y cut some =>
  Classical.byContradiction fun reads => none x y cut some (ne_nil_iff.mp reads)

/-- No header begins among blanks that end a line. -/
theorem silent_of_blank {gap : Text} (blank : Blank gap)
    (ends : gap = [] ∨ gap.getLast? = some '\n') (t : Text) :
    Matcher.Silent classHeader behind gap t := by
  apply silent_of_not_opens
  rintro x y rfl some
  have newline : '\n' ∈ y := by
    rcases ends with empty | last
    · exact absurd (List.append_eq_nil_iff.mp empty).2 some
    · rw [List.getLast?_append_of_ne_nil _ some] at last
      exact List.mem_of_getLast? last
  exact not_opens_of_blank (fun c member => blank c (List.mem_append_right x member)) newline t

/-- No header begins in a statement that begins with another word, or among the
blanks behind it. -/
theorem silent_statement {w u gap : Text} {c : Char} (keyword : Lexeme.IsKeyword w)
    (ends : isNamePart c = false) (other : w ∉ "class".toList :: classModifiers)
    (inner : ∀ d ∈ w ++ c :: u, d ≠ '\n' ∧ d ≠ ';' ∧ d ≠ '}') (blank : Blank gap)
    (final : gap.getLast? = some '\n') (t : Text) :
    Matcher.Silent classHeader behind (w ++ c :: u ++ ';' :: gap) t := by
  rw [Matcher.silent_append]
  constructor
  · apply silent_of_not_opens
    intro x y cut some
    cases x with
    | nil =>
        rw [List.nil_append] at cut
        rw [← cut, List.append_assoc]
        exact not_opens_of_word keyword ends other
    | cons e x =>
        rcases List.exists_cons_of_ne_nil some with ⟨d, y, rfl⟩
        intro opens
        rcases inner d (by rw [cut]; simp) with ⟨-, noSemicolon, noBrace⟩
        rcases opens.front with rfl | rfl | ⟨begins, -⟩
        · exact noSemicolon rfl
        · exact noBrace rfl
        · rcases List.eq_nil_or_concat (e :: x) with none | ⟨x', l, whole⟩
          · cases none
          · rw [whole, List.concat_eq_append] at begins cut
            exact (inner l (by rw [cut]; simp)).1 (begins l (by simp))
  · rw [Matcher.silent_cons]
    constructor
    · exact Classical.byContradiction fun reads =>
        not_opens_semicolon blank (List.mem_of_getLast? final) t (ne_nil_iff.mp reads)
    · exact silent_of_blank blank (Or.inr final) t

end Brace

end ClassHeader
end Testwright
