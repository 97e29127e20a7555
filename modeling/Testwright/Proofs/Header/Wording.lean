import Testwright.Header.Statement
import Testwright.Proofs.Declaration.ImportSpelling
import Testwright.Proofs.Matcher.Taken

namespace Testwright

/-!
# How a header statement is worded

A statement is its keyword, a path and a semicolon, with blanks between them and
around the dots of the path.  `IsWording` says this without the reader, and the
reader finds exactly the wordings that begin at a word edge: every wording is
read, as far as it goes and with its own path (`reads_of_isWording`), and every
reading is one of a wording (`exists_isWording`).  What stands behind the
semicolon has no influence.
-/

namespace Matcher

open Character (isBlank isNamePart)

variable {α β : Type} {P : α → Text → Prop} {Q : α → β → Text → Prop}

/-- Every reading takes a text that stands in this relation to its value. -/
def Gives (m : Matcher α) (P : α → Text → Prop) : Prop :=
  ∀ place, ∀ reading ∈ m place, ∃ s, P reading.1 s ∧ place.ahead = s ++ reading.2.ahead ∧
    reading.2.behind = s.reverse ++ place.behind

theorem Takes.gives {m : Matcher α} {R : Text → Prop} (h : Takes m R) : Gives m fun _ => R :=
  h

theorem Gives.bind {m : Matcher α} {next : α → Matcher β} (first : Gives m P)
    (second : ∀ value, Gives (next value) (Q value)) :
    Gives (m >>= next) fun found s => ∃ value a b, s = a ++ b ∧ P value a ∧ Q value found b := by
  intro place reading member
  rcases List.mem_flatMap.mp member with ⟨between, before, after⟩
  rcases first place between before with ⟨a, holdsA, aheadA, behindA⟩
  rcases second between.1 between.2 reading after with ⟨b, holdsB, aheadB, behindB⟩
  exact ⟨a ++ b, ⟨between.1, a, b, rfl, holdsA, holdsB⟩, by simp [aheadA, aheadB],
    by simp [behindA, behindB]⟩

theorem gives_pure (value : α) : Gives (pure value) fun found s => found = value ∧ s = [] := by
  intro place reading member
  have same :=
    mem_pure.mp (show (reading.1, reading.2) ∈ (pure value : Matcher α) place from member)
  exact ⟨[], ⟨same.1, rfl⟩, by simp [same.2], by simp [same.2]⟩

theorem Gives.orElse {left right : Matcher α} {P' : α → Text → Prop} (h : Gives left P)
    (h' : Gives right P') : Gives (orElse left right) fun found s => P found s ∨ P' found s := by
  intro place reading member
  rcases List.mem_append.mp member with inLeft | inRight
  · rcases h place reading inLeft with ⟨s, holds, rest⟩
    exact ⟨s, Or.inl holds, rest⟩
  · rcases h' place reading inRight with ⟨s, holds, rest⟩
    exact ⟨s, Or.inr holds, rest⟩

/-- The stretch that a matcher reads is what it takes. -/
theorem Takes.gives_stretch {m : Matcher Unit} {R : Text → Prop} (h : Takes m R) :
    Gives (Matcher.stretch m) fun found s => R s ∧ found.text = s := by
  rintro ⟨behind, ahead⟩ reading member
  rcases List.mem_map.mp member with ⟨taken, isTaken, rfl⟩
  rcases h _ taken isTaken with ⟨s, holds, cut, back⟩
  refine ⟨s, ⟨holds, ?_⟩, cut, back⟩
  have shape : taken.2 = ⟨s.reverse ++ behind, taken.2.ahead⟩ := by rw [← back]
  have whole : ahead = s ++ taken.2.ahead := cut
  rw [shape, whole]
  exact text_mk behind _ s taken.2.ahead

theorem Reads.orElse_right {left right : Matcher α} {place later : Place} {value : α}
    (none : left place = []) (h : Reads right place value later) :
    Reads (Matcher.orElse left right) place value later := by
  rw [Reads, orElse_of_nil none]
  exact h

/-- Where nothing comes of the readings of an optional part, it is passed over. -/
theorem Reads.maybe_skip {m : Matcher Unit} {next : Unit → Matcher β} {place last : Place}
    {found : β} (dead : ∀ reading ∈ m place, next reading.1 reading.2 = [])
    (h : Reads (next ()) place found last) : Reads (Matcher.maybe m >>= next) place found last := by
  have options : Matcher.maybe m place = m place ++ [((), place)] := rfl
  have skipped : (Matcher.maybe m >>= next) place = _ := bind_append options dead
  rw [Reads, skipped]
  simp only [List.flatMap_cons, List.flatMap_nil, List.append_nil]
  exact h

/-- A dot of a path with the name or the asterisk behind it. -/
def pathStep : Matcher Unit := do
  run isBlank
  char '.'
  run isBlank
  orElse (run1 isNamePart) (char '*')

/-- The path of a statement, with the word `static`, if that is there. -/
def statementPath : Matcher Unit := do
  maybe do
    word "static".toList
    run1 isBlank
  run1 isNamePart
  many pathStep

/-- The keyword of a statement: whether it is that of an import. -/
def statementKeyword : Matcher Bool :=
  orElse (do word "package".toList; return false) (do word "import".toList; return true)

theorem headerStatement_eq : headerStatement = (do
    wordEdge
    let isImport ← statementKeyword
    run1 isBlank
    let path ← stretch statementPath
    run isBlank
    char ';'
    return (isImport, path)) := rfl

theorem consumes_pathStep : Consumes pathStep :=
  Consumes.bind_right (keeps_run isBlank) fun _ =>
    (consumes_char '.').bind_left fun _ =>
      (keeps_run isBlank).bind fun _ =>
        keeps_orElse (consumes_run1 isNamePart).keeps (consumes_char '*').keeps

end Matcher

namespace HeaderStatement

open Character (isBlank isNamePart isWord)
open Matcher (Gives Reads Stops pathStep statementPath statementKeyword)
open Text (Blank)

/-! ## Wordings -/

def IsName (w : Text) : Prop :=
  w ≠ [] ∧ ∀ c ∈ w, isNamePart c = true

/-- A dot with blanks around it, and a name or an asterisk. -/
def IsStep (s : Text) : Prop :=
  ∃ gap gap' w, s = gap ++ '.' :: (gap' ++ w) ∧ Blank gap ∧ Blank gap' ∧ (IsName w ∨ w = ['*'])

/-- Nothing, or the word `static` and blanks. -/
def IsStaticLead (lead : Text) : Prop :=
  lead = [] ∨ ∃ gap, lead = "static".toList ++ gap ∧ gap ≠ [] ∧ Blank gap

/-- A name and steps behind it, and the word `static` in front or not. -/
def IsPath (path : Text) : Prop :=
  ∃ lead name steps, path = lead ++ (name ++ List.flatten steps) ∧ IsStaticLead lead ∧
    IsName name ∧ ∀ s ∈ steps, IsStep s

def keyword (isImport : Bool) : Text :=
  if isImport then "import".toList else "package".toList

/-- A statement of this kind with this path, in some spacing. -/
def IsWording (isImport : Bool) (path s : Text) : Prop :=
  ∃ gap gap', s = keyword isImport ++ (gap ++ (path ++ (gap' ++ [';']))) ∧ gap ≠ [] ∧ Blank gap ∧
    Blank gap' ∧ IsPath path

/-! ## Every reading is one of a wording -/

theorem gives_keyword : Gives statementKeyword fun isImport s => s = keyword isImport := by
  have package := (Matcher.takes_word "package".toList).gives.bind fun _ => Matcher.gives_pure false
  have isImport := (Matcher.takes_word "import".toList).gives.bind fun _ => Matcher.gives_pure true
  intro place reading member
  rcases (package.orElse isImport) place reading member with ⟨s, holds, rest⟩
  refine ⟨s, ?_, rest⟩
  rcases holds with ⟨-, a, b, rfl, rfl, value, rfl⟩ | ⟨-, a, b, rfl, rfl, value, rfl⟩
  · rw [value]
    rfl
  · rw [value]
    rfl

theorem takes_pathStep : Matcher.Takes pathStep IsStep := by
  have parts := (Matcher.takes_run isBlank).bind fun _ =>
    (Matcher.takes_char '.').bind fun _ => (Matcher.takes_run isBlank).bind fun _ =>
      (Matcher.takes_run1 isNamePart).orElse (Matcher.takes_char '*')
  apply parts.mono
  rintro s ⟨gap, _, rfl, blank, _, _, rfl, rfl, gap', w, rfl, blank', last⟩
  exact ⟨gap, gap', w, rfl, blank, blank', last⟩

theorem takes_statementPath : Matcher.Takes statementPath IsPath := by
  have parts := (((Matcher.takes_word "static".toList).bind fun _ =>
    Matcher.takes_run1 isBlank).maybe).bind fun _ =>
      (Matcher.takes_run1 isNamePart).bind fun _ => takes_pathStep.many
  apply parts.mono
  rintro s ⟨lead, _, rfl, isLead, name, _, rfl, isName, steps, rfl, each⟩
  refine ⟨lead, name, steps, rfl, ?_, isName, each⟩
  rcases isLead with ⟨_, gap, rfl, rfl, some, blank⟩ | none
  · exact Or.inr ⟨gap, rfl, some, blank⟩
  · exact Or.inl none

/-- Every reading begins at a word edge and takes a wording. -/
theorem exists_isWording {place later : Place} {found : Bool × Stretch}
    (h : (found, later) ∈ Matcher.headerStatement place) :
    place.atWordEdge = true ∧ ∃ s, IsWording found.1 found.2.text s ∧
      place.ahead = s ++ later.ahead ∧ later.behind = s.reverse ++ place.behind := by
  rw [Matcher.headerStatement_eq] at h
  rcases Matcher.mem_bind.mp h with ⟨_, start, atEdge, member⟩
  have edge : place.atWordEdge = true ∧ start = place := by
    simp only [Matcher.wordEdge, Matcher.require] at atEdge
    split at atEdge
    · rename_i edge
      exact ⟨edge, (Prod.mk.inj (List.mem_singleton.mp atEdge)).2⟩
    · cases atEdge
  rcases edge with ⟨edge, rfl⟩
  have parts := gives_keyword.bind fun isImport => (Matcher.takes_run1 isBlank).gives.bind fun _ =>
    takes_statementPath.gives_stretch.bind fun path =>
      (Matcher.takes_run isBlank).gives.bind fun _ =>
      (Matcher.takes_char ';').gives.bind fun _ => Matcher.gives_pure (isImport, path)
  rcases parts start (found, later) member with ⟨s, holds, cut⟩
  refine ⟨edge, s, ?_, cut⟩
  rcases holds with ⟨isImport, _, _, rfl, rfl, -, gap, _, rfl, ⟨some, blank⟩, path, _, _, rfl,
    ⟨isPath, text⟩, -, gap', _, rfl, blank', -, _, _, rfl, rfl, rfl, rfl⟩
  exact ⟨gap, gap', by simp [text], some, blank, blank', text ▸ isPath⟩

/-! ## Every wording is read -/

/-- The longest run in front of a text is one text. -/
theorem eq_of_runs {accept : Char → Bool} {a a' b b' : Text} (all : ∀ c ∈ a, accept c = true)
    (all' : ∀ c ∈ a', accept c = true) (stops : Stops accept b) (stops' : Stops accept b')
    (same : a ++ b = a' ++ b') : a = a' ∧ b = b' := by
  have places := Matcher.past_append all stops []
  rw [same, Matcher.past_append all' stops' []] at places
  rcases Place.mk.inj places with ⟨first, rest⟩
  exact ⟨by simpa using first.symm, rest.symm⟩

theorem stops_gap {gap : Text} (blank : Blank gap) {c : Char} (other : isNamePart c = false)
    (t : Text) : Stops isNamePart (gap ++ c :: t) := by
  cases gap with
  | nil => exact other
  | cons d gap => exact Character.not_isNamePart_of_isBlank (blank d List.mem_cons_self)

theorem visible_of_isName {w : Text} (h : IsName w) : Text.Visible w :=
  fun c member => Character.not_isBlank_of_isNamePart (h.2 c member)

theorem reads_pathStep {s : Text} (h : IsStep s) {t : Text} (stops : Stops isNamePart t)
    (behind : Text) : Reads pathStep ⟨behind, s ++ t⟩ () ⟨s.reverse ++ behind, t⟩ := by
  rcases h with ⟨gap, gap', w, rfl, blank, blank', last⟩
  have seen : Stops isBlank (w ++ t) := by
    rcases last with isName | rfl
    · exact Lexeme.stops_append isName.1 (visible_of_isName isName) t
    · exact Matcher.stops_cons.mpr (by decide)
  have part : ∀ behind, Reads (Matcher.orElse (Matcher.run1 isNamePart) (Matcher.char '*'))
      ⟨behind, w ++ t⟩ () ⟨w.reverse ++ behind, t⟩ := by
    intro behind
    rcases last with isName | rfl
    · exact (Reads.of_eq_cons (Matcher.run1_append isName.2 isName.1 stops behind)).orElse_left
    · have none : Matcher.run1 isNamePart ⟨behind, '*' :: t⟩ = [] :=
        Matcher.run1_of_stops (Matcher.stops_cons.mpr (by decide)) behind
      exact Reads.orElse_right none (Reads.of_eq_cons (Matcher.char_self '*' behind t))
  have reads : Reads pathStep ⟨behind, gap ++ '.' :: (gap' ++ (w ++ t))⟩ ()
      ⟨w.reverse ++ (gap'.reverse ++ '.' :: (gap.reverse ++ behind)), t⟩ :=
    (Reads.of_eq_cons (Matcher.run_append blank (Matcher.stops_cons.mpr (by decide)) behind)).bind
      ((Reads.of_eq_cons (Matcher.char_self '.' _ _)).bind
        ((Reads.of_eq_cons (Matcher.run_append blank' seen _)).bind (part _)))
  simpa using reads

/-- Behind a path stand blanks and then a semicolon, which no step passes. -/
theorem pathStep_eq_nil {gap : Text} (blank : Blank gap) (behind t : Text) :
    pathStep ⟨behind, gap ++ ';' :: t⟩ = [] := by
  rw [pathStep,
    Matcher.bind_of_single (Matcher.run_append blank (Matcher.stops_cons.mpr (by decide)) behind)]
  exact Matcher.bind_of_nil (Matcher.char_of_ne (by simp))

theorem stops_steps {steps : List Text} (each : ∀ s ∈ steps, IsStep s) {gap : Text}
    (blank : Blank gap) (t : Text) :
    ∃ gap' c r, List.flatten steps ++ (gap ++ ';' :: t) = gap' ++ c :: r ∧ Blank gap' ∧
      isBlank c = false ∧ isNamePart c = false := by
  cases steps with
  | nil => exact ⟨gap, ';', t, rfl, blank, by decide, by decide⟩
  | cons s steps =>
      rcases each s List.mem_cons_self with ⟨gap', inner, w, rfl, blank', -, -⟩
      exact ⟨gap', '.', inner ++ (w ++ (List.flatten steps ++ (gap ++ ';' :: t))), by simp, blank',
        by decide, by decide⟩

theorem reads_steps {steps : List Text} (each : ∀ s ∈ steps, IsStep s) {gap : Text}
    (blank : Blank gap) (behind t : Text) :
    Reads (Matcher.many pathStep) ⟨behind, List.flatten steps ++ (gap ++ ';' :: t)⟩ ()
      ⟨(List.flatten steps).reverse ++ behind, gap ++ ';' :: t⟩ := by
  induction steps generalizing behind with
  | nil => exact Reads.many_stop (pathStep_eq_nil blank behind t)
  | cons s steps ih =>
      have others : ∀ s ∈ steps, IsStep s :=
        fun s' member => each s' (List.mem_cons_of_mem s member)
      rcases stops_steps others blank t with ⟨gap', c, r, same, blank', -, other⟩
      have stops : Stops isNamePart (List.flatten steps ++ (gap ++ ';' :: t)) := by
        rw [same]
        exact stops_gap blank' other r
      have step := reads_pathStep (each s List.mem_cons_self) stops behind
      simpa using step.many_step Matcher.consumes_pathStep (ih others (s.reverse ++ behind))

/-- A path that does not begin with the word `static` and blanks is not read as
if it did, even if its first name is that word. -/
theorem dead_lead {name more : Text} (isName : IsName name) {gap' r : Text} {c : Char}
    (shape : more = gap' ++ c :: r) (blank' : Blank gap') (visible : isBlank c = false)
    (other : isNamePart c = false) {β : Type} (next : Unit → Matcher β) (behind : Text) :
    ∀ reading ∈ (do Matcher.word "static".toList; Matcher.run1 isBlank : Matcher Unit)
        ⟨behind, name ++ more⟩, (Matcher.run1 isNamePart >>= next) reading.2 = [] := by
  have takes := (Matcher.takes_word "static".toList).bind fun _ => Matcher.takes_run1 isBlank
  rintro ⟨⟨⟩, later⟩ member
  rcases takes _ _ member with ⟨_, ⟨_, gap, rfl, rfl, some, blank⟩, cut, -⟩
  have stops : Stops isNamePart more := shape ▸ stops_gap blank' other r
  have front : Stops isNamePart (gap ++ later.ahead) :=
    Lexeme.stops_append some (fun d member => Character.not_isNamePart_of_isBlank (blank d member))
      _
  have cut' : name ++ more = "static".toList ++ (gap ++ later.ahead) := by simpa using cut
  rcases eq_of_runs isName.2 (by decide) stops front cut' with ⟨-, rest⟩
  have absent : c ∉ gap := fun member => by
    rw [blank c member] at visible
    cases visible
  rcases Text.exists_behind absent (rest.symm.trans shape) with ⟨gap'', rfl, rest'⟩
  have final : Stops isNamePart later.ahead := by
    rw [rest']
    exact stops_gap (fun d member => blank' d (List.mem_append_right gap member)) other r
  exact Matcher.bind_of_nil (Matcher.run1_of_stops final later.behind)

theorem reads_statementPath {path : Text} (h : IsPath path) {gap : Text} (blank : Blank gap)
    (behind t : Text) :
    Reads statementPath ⟨behind, path ++ (gap ++ ';' :: t)⟩ ()
      ⟨path.reverse ++ behind, gap ++ ';' :: t⟩ := by
  rcases h with ⟨lead, name, steps, rfl, isLead, isName, each⟩
  rcases stops_steps each blank t with ⟨gap', c, r, same, blank', visible, other⟩
  have stops : Stops isNamePart (List.flatten steps ++ (gap ++ ';' :: t)) := by
    rw [same]
    exact stops_gap blank' other r
  have named : ∀ behind, Reads (do Matcher.run1 isNamePart; Matcher.many pathStep : Matcher Unit)
      ⟨behind, name ++ (List.flatten steps ++ (gap ++ ';' :: t))⟩ ()
      ⟨(List.flatten steps).reverse ++ (name.reverse ++ behind), gap ++ ';' :: t⟩ := fun behind =>
    (Reads.of_eq_cons (Matcher.run1_append isName.2 isName.1 stops behind)).bind
      (reads_steps each blank _ t)
  rcases isLead with rfl | ⟨between, rfl, some, blanks⟩
  · have dead := dead_lead isName same blank' visible other (fun _ => Matcher.many pathStep) behind
    simpa [statementPath] using (named behind).maybe_skip dead
  · have seen : Stops isBlank (name ++ (List.flatten steps ++ (gap ++ ';' :: t))) :=
      Lexeme.stops_append isName.1 (visible_of_isName isName) _
    have lead : Reads (do Matcher.word "static".toList; Matcher.run1 isBlank : Matcher Unit)
        ⟨behind, "static".toList ++
          (between ++ (name ++ (List.flatten steps ++ (gap ++ ';' :: t))))⟩ ()
        ⟨between.reverse ++ ("static".toList.reverse ++ behind),
          name ++ (List.flatten steps ++ (gap ++ ';' :: t))⟩ :=
      (Reads.of_eq_cons (Matcher.word_append _ behind _)).bind
        (Reads.of_eq_cons (Matcher.run1_append blanks some seen _))
    simpa [statementPath] using lead.maybe.bind (named _)

theorem reads_keyword (isImport : Bool) (behind t : Text) :
    Reads statementKeyword ⟨behind, keyword isImport ++ t⟩ isImport
      ⟨(keyword isImport).reverse ++ behind, t⟩ := by
  cases isImport with
  | false =>
      exact ((Reads.of_eq_cons (Matcher.word_append "package".toList behind t)).bind
        (Reads.pure false _)).orElse_left
  | true =>
      have other : Matcher.word "package".toList ⟨behind, "import".toList ++ t⟩ = [] := by
        apply Matcher.word_eq_nil
        rintro ⟨rest, same⟩
        exact absurd (List.cons.inj same).1 (by decide)
      exact Reads.orElse_right (Matcher.bind_of_nil other)
        ((Reads.of_eq_cons (Matcher.word_append "import".toList behind t)).bind (Reads.pure true _))

/-- No word ends at the place. -/
def BehindEdge (behind : Text) : Prop :=
  ∀ c, behind.head? = some c → isWord c = false

theorem keyword_words (isImport : Bool) :
    keyword isImport ≠ [] ∧ ∀ c ∈ keyword isImport, isWord c = true := by
  cases isImport <;> decide

/-- Every wording behind a word edge is read as far as it goes, and with its own
path, whatever follows. -/
theorem reads_of_isWording {isImport : Bool} {path s : Text} (h : IsWording isImport path s)
    {behind : Text} (edge : BehindEdge behind) (t : Text) :
    ∃ found, Reads Matcher.headerStatement ⟨behind, s ++ t⟩ (isImport, found)
        ⟨s.reverse ++ behind, t⟩ ∧ found.text = path := by
  rcases h with ⟨gap, gap', rfl, some, blank, blank', isPath⟩
  have seen : Stops isBlank (path ++ (gap' ++ ';' :: t)) := by
    rcases isPath with ⟨lead, name, steps, rfl, isLead, isName, -⟩
    rcases isLead with rfl | ⟨between, rfl, -⟩
    · simpa using Lexeme.stops_append isName.1 (visible_of_isName isName) _
    · exact Matcher.stops_cons.mpr (by decide)
  let start := gap.reverse ++ ((keyword isImport).reverse ++ behind)
  let found : Stretch :=
    ⟨⟨start, path ++ (gap' ++ ';' :: t)⟩, ⟨path.reverse ++ start, gap' ++ ';' :: t⟩⟩
  have whole : Reads Matcher.headerStatement
      ⟨behind, keyword isImport ++ (gap ++ (path ++ (gap' ++ ';' :: t)))⟩ (isImport, found)
      ⟨';' :: (gap'.reverse ++ (path.reverse ++ start)), t⟩ := by
    rw [Matcher.headerStatement_eq]
    refine (Lexeme.wordEdge_append (keyword_words isImport).1 (keyword_words isImport).2 edge).bind
      ?_
    refine (reads_keyword isImport behind _).bind ?_
    refine (Reads.of_eq_cons (Matcher.run1_append blank some seen _)).bind ?_
    exact (reads_statementPath isPath blank' start t).stretch.bind (Lexeme.reads_end blank' t)
  exact ⟨found, by simpa [start] using whole, Matcher.text_mk start _ path _⟩

end HeaderStatement
end Testwright
