import Testwright.Proofs.Declaration.Neighbours
import Testwright.Proofs.Declaration.Statement
import Testwright.Proofs.Matcher.Repetition

namespace Testwright

/-!
# Package and import statements in the source

A statement is spelled with any blanks between its lexemes, a dotted name being
one lexeme.  Wherever such a statement stands, its reader reads it to the
semicolon, and finds the name without the blanks.
-/

open Lexeme (Spelled behindBlank near)

/-- An import statement: a dotted path, possibly of a static member, possibly
with an asterisk behind it. -/
structure ImportForm where
  isStatic : Bool
  path : Text
  isWildcard : Bool

namespace ImportForm

open Declaration (isDottedName)

def lexemes (form : ImportForm) : List Lexeme :=
  near "import".toList :: ((if form.isStatic then [behindBlank "static".toList] else []) ++
    behindBlank form.path :: ((if form.isWildcard then [near ".*".toList] else []) ++ [near [';']]))

def isWellFormed (form : ImportForm) : Bool :=
  isDottedName form.path

/-- The imported name as a surface lists it. -/
def declared (form : ImportForm) : Text :=
  (if form.isStatic then "static ".toList else []) ++
    (form.path ++ if form.isWildcard then ".*".toList else [])

end ImportForm

namespace Lexeme

open Character (isBlank isDottedPart isNamePart)
open Declaration (isDottedName isIdentifier)
open Matcher (Reads Stops)
open Text (Blank)

/-- The lexemes of a package statement.  Without a package there is none. -/
def packageLexemes (package : Option Text) : List Lexeme :=
  package.toList.flatMap fun name => [near "package".toList, behindBlank name, near [';']]

theorem stops_append {accept : Char → Bool} {w : Text} (nonempty : w ≠ [])
    (none : ∀ c ∈ w, accept c = false) (t : Text) : Stops accept (w ++ t) := by
  obtain ⟨c, w, rfl⟩ := List.exists_cons_of_ne_nil nonempty
  exact none c List.mem_cons_self

/-- At the place where a word begins and none ends, there is an edge. -/
theorem wordEdge_append {w behind t : Text} (nonempty : w ≠ [])
    (words : ∀ c ∈ w, Character.isWord c = true)
    (edge : ∀ c, behind.head? = some c → Character.isWord c = false) :
    Reads Matcher.wordEdge ⟨behind, w ++ t⟩ () ⟨behind, w ++ t⟩ := by
  obtain ⟨c, w, rfl⟩ := List.exists_cons_of_ne_nil nonempty
  refine Reads.of_eq_cons (Matcher.require_of_true ?_)
  have first := words c List.mem_cons_self
  cases behind with
  | nil => simp [Place.atWordEdge, first]
  | cons d behind => simp [Place.atWordEdge, first, edge d rfl]

/-- The word, blanks behind it, and then something else. -/
theorem reads_word_blanks {β : Type} {next : Unit → Matcher β} {w gap t behind : Text} {found : β}
    {last : Place} (blank : Blank gap) (some : gap ≠ []) (stops : Stops isBlank t)
    (h : Reads (next ()) ⟨gap.reverse ++ (w.reverse ++ behind), t⟩ found last) :
    Reads (do Matcher.word w; Matcher.run1 isBlank >>= next) ⟨behind, w ++ (gap ++ t)⟩ found last :=
  (Reads.of_eq_cons (Matcher.word_append w behind _)).bind
    ((Reads.of_eq_cons (Matcher.run1_append blank some stops _)).bind h)

/-- Blanks and a semicolon end a statement. -/
theorem reads_end {β : Type} {value : β} {gap behind : Text} (blank : Blank gap) (u : Text) :
    Reads (do Matcher.run isBlank; Matcher.char ';'; return value : Matcher β)
      ⟨behind, gap ++ ';' :: u⟩ value ⟨';' :: (gap.reverse ++ behind), u⟩ :=
  (Reads.of_eq_cons (Matcher.run_append blank (Matcher.stops_cons.mpr (by decide)) behind)).bind
    ((Reads.of_eq_cons (Matcher.char_self ';' _ u)).bind (Reads.pure value _))

/-- A package statement is read as far as it goes. -/
theorem reads_packageName_append {name gap gap' behind : Text} (nonempty : name ≠ [])
    (dotted : ∀ c ∈ name, isDottedPart c = true) (blank : Blank gap) (parted : gap ≠ [])
    (blank' : Blank gap') (edge : ∀ c, behind.head? = some c → Character.isWord c = false)
    (u : Text) :
    ∃ found, Reads Matcher.packageName
      ⟨behind, "package".toList ++ (gap ++ (name ++ (gap' ++ ';' :: u)))⟩ found
        ⟨';' :: (gap'.reverse ++
          (name.reverse ++ (gap.reverse ++ ("package".toList.reverse ++ behind)))), u⟩ ∧
      found.text = name := by
  have seen : Text.Visible name :=
    fun c member => Character.not_isBlank_of_isDottedPart (dotted c member)
  have stops : Stops isDottedPart (gap' ++ ';' :: u) := by
    cases gap' with
    | nil => exact Matcher.stops_cons.mpr (by decide)
    | cons d gap' => exact Character.not_isDottedPart_of_isBlank (blank' d List.mem_cons_self)
  have named := (Reads.of_eq_cons (Matcher.run1_append dotted nonempty stops
    (gap.reverse ++ ("package".toList.reverse ++ behind)))).stretch
  exact ⟨_, (wordEdge_append (by decide) (by decide) edge).bind (reads_word_blanks blank parted
    (stops_append nonempty seen _) (named.bind (reads_end blank' u))), by simp⟩

theorem reads_packageName {name : Text} (h : isDottedName name = true) {t : Text}
    (spelled : Spelled (packageLexemes (some name)) t) :
    ∃ gap s, t = gap ++ (s ++ [';']) ∧ Blank gap ∧ ∀ behind u,
      (∀ c, behind.head? = some c → Character.isWord c = false) →
        ∃ found, Reads Matcher.packageName ⟨behind, s ++ [';'] ++ u⟩ found
            ⟨(s ++ [';']).reverse ++ behind, u⟩ ∧
          found.text = name := by
  obtain ⟨gap, _, rfl, blank, -, gap₁, _, rfl, blank₁, some₁, gap₂, _, rfl, blank₂, -, rfl⟩ :=
    spelled
  refine ⟨gap, "package".toList ++ (gap₁ ++ (name ++ gap₂)), by simp, blank,
    fun behind u edge => ?_⟩
  simp only [List.append_assoc, List.singleton_append,
    List.reverse_append, List.reverse_cons, List.reverse_nil, List.nil_append]
  exact reads_packageName_append (Declaration.isDottedName_ne_nil h)
    (Declaration.isDottedPart_of_isDottedName h)
    blank₁ (some₁ rfl) blank₂ edge u

/-! ## Imported paths -/

theorem spacedDot_append {gap t : Text} (blank : Blank gap) (stops : Stops isBlank t)
    (behind : Text) :
    Matcher.spacedDot ⟨behind, gap ++ '.' :: t⟩ = [((), ⟨'.' :: (gap.reverse ++ behind), t⟩)] := by
  rw [Matcher.spacedDot,
    Matcher.bind_of_single (Matcher.run_append blank (Matcher.stops_cons.mpr (by decide)) behind),
    Matcher.bind_of_single (Matcher.char_self '.' _ t)]
  exact Matcher.run_of_stops stops _

theorem spacedDot_eq_nil {gap t : Text} {c : Char} (blank : Blank gap) (visible : isBlank c = false)
    (other : c ≠ '.') (behind : Text) : Matcher.spacedDot ⟨behind, gap ++ c :: t⟩ = [] := by
  rw [Matcher.spacedDot,
    Matcher.bind_of_single (Matcher.run_append blank (Matcher.stops_cons.mpr visible) behind)]
  exact Matcher.bind_of_nil (Matcher.char_of_ne fun same => other (Option.some.inj same))

/-- A dot and the part of a path behind it. -/
def dottedPart : Matcher Unit := do
  Matcher.spacedDot
  Matcher.run1 isNamePart

/-- A dot and the asterisk behind it. -/
def wildcard : Matcher Unit := do
  Matcher.spacedDot
  Matcher.char '*'

/-- The path of an import statement. -/
def importedPath : Matcher Unit := do
  Matcher.run1 isNamePart
  Matcher.many dottedPart
  Matcher.maybe wildcard

theorem consumes_dottedPart : Matcher.Consumes dottedPart :=
  Matcher.Consumes.bind_right
    ((Matcher.keeps_run isBlank).bind fun _ =>
      (Matcher.consumes_char '.').keeps.bind fun _ => Matcher.keeps_run isBlank)
    fun _ => Matcher.consumes_run1 isNamePart

theorem reads_dottedParts {pieces : List Text} (each : ∀ piece ∈ pieces, isIdentifier piece = true)
    {t : Text} (stops : Stops isNamePart t) (none : ∀ behind, dottedPart ⟨behind, t⟩ = [])
    (behind : Text) :
    Reads (Matcher.many dottedPart) ⟨behind, (pieces.flatMap fun piece => '.' :: piece) ++ t⟩ ()
      ⟨(pieces.flatMap fun piece => '.' :: piece).reverse ++ behind, t⟩ := by
  induction pieces generalizing behind with
  | nil => exact Reads.many_stop (none behind)
  | cons piece pieces ih =>
      have first := each piece List.mem_cons_self
      have nonempty := Declaration.isIdentifier_ne_nil first
      have seen := Declaration.visible_of_isIdentifier first
      have stopsHere : Stops isNamePart ((pieces.flatMap fun piece => '.' :: piece) ++ t) := by
        cases pieces with
        | nil => exact stops
        | cons second pieces => exact Matcher.stops_cons.mpr (by decide)
      have others := ih (fun p member => each p (List.mem_cons_of_mem piece member))
        (piece.reverse ++ '.' :: behind)
      have step : Reads dottedPart
          ⟨behind, '.' :: (piece ++ ((pieces.flatMap fun piece => '.' :: piece) ++ t))⟩ ()
          ⟨piece.reverse ++ '.' :: behind, (pieces.flatMap fun piece => '.' :: piece) ++ t⟩ :=
        (Reads.of_eq_cons
          (spacedDot_append Text.blank_nil (stops_append nonempty seen _) behind)).bind
          (Reads.of_eq_cons (Matcher.run1_append (Declaration.isNamePart_of_isIdentifier first)
            nonempty stopsHere _))
      simpa using step.many_step consumes_dottedPart others

/-- Every dotted name is read as far as it goes, and then the asterisk if one
follows. -/
theorem reads_importedPath {path : Text} (h : isDottedName path = true) {t v : Text}
    (stops : Stops isNamePart (t ++ v)) (none : ∀ behind, dottedPart ⟨behind, t ++ v⟩ = [])
    (ends : ∀ behind, Reads (Matcher.maybe wildcard) ⟨behind, t ++ v⟩ () ⟨t.reverse ++ behind, v⟩)
    (behind : Text) :
    Reads importedPath ⟨behind, path ++ (t ++ v)⟩ () ⟨(path ++ t).reverse ++ behind, v⟩ := by
  obtain ⟨first, pieces, rfl, isFirst, each⟩ := Declaration.exists_parts h
  have stopsHere : Stops isNamePart ((pieces.flatMap fun piece => '.' :: piece) ++ (t ++ v)) := by
    cases pieces with
    | nil => exact stops
    | cons second pieces => exact Matcher.stops_cons.mpr (by decide)
  have front :=
    Reads.of_eq_cons (Matcher.run1_append (Declaration.isNamePart_of_isIdentifier isFirst)
    (Declaration.isIdentifier_ne_nil isFirst) stopsHere behind)
  simpa [importedPath] using front.bind ((reads_dottedParts each stops none _).bind (ends _))

/-- The blanks and the asterisk behind a path, if the statement has one. -/
def WildcardText (isWildcard : Bool) (t : Text) : Prop :=
  if isWildcard then ∃ gap, t = gap ++ ".*".toList ∧ Blank gap else t = []

theorem reads_wildcard {isWildcard : Bool} {t gap u : Text} (written : WildcardText isWildcard t)
    (blank : Blank gap) :
    Stops isNamePart (t ++ (gap ++ ';' :: u)) ∧
      (∀ behind, dottedPart ⟨behind, t ++ (gap ++ ';' :: u)⟩ = []) ∧
      ∀ behind, Reads (Matcher.maybe wildcard) ⟨behind, t ++ (gap ++ ';' :: u)⟩ ()
        ⟨t.reverse ++ behind, gap ++ ';' :: u⟩ := by
  have stopsAt : ∀ {gap : Text} {c : Char} {r : Text}, Blank gap → isNamePart c = false →
      Stops isNamePart (gap ++ c :: r) := by
    intro gap c r blank other
    cases gap with
    | nil => exact other
    | cons d gap => exact Character.not_isNamePart_of_isBlank (blank d List.mem_cons_self)
  cases isWildcard with
  | false =>
      cases written
      have none := spacedDot_eq_nil (t := u) blank (c := ';') (by decide) (by decide)
      refine ⟨stopsAt blank (by decide), fun behind => Matcher.bind_of_nil (none behind),
        fun behind => ?_⟩
      exact Reads.of_eq_cons (Matcher.maybe_of_nil (Matcher.bind_of_nil (none behind)))
  | true =>
      obtain ⟨gap', rfl, blank'⟩ := written
      have dot := fun behind => spacedDot_append (t := '*' :: (gap ++ ';' :: u)) blank'
        (Matcher.stops_cons.mpr (by decide)) behind
      have shape : gap' ++ ".*".toList ++ (gap ++ ';' :: u) =
          gap' ++ '.' :: '*' :: (gap ++ ';' :: u) := by simp
      rw [shape]
      refine ⟨stopsAt blank' (by decide), fun behind => ?_, fun behind => Reads.maybe ?_⟩
      · rw [dottedPart, Matcher.bind_of_single (dot behind)]
        exact Matcher.run1_of_stops (Matcher.stops_cons.mpr (by decide)) _
      · rw [wildcard, Reads, Matcher.bind_of_single (dot behind), Matcher.char_self]
        simp

/-- The blanks in a path are no part of the imported name. -/
theorem flatten_words_path {path : Text} (h : isDottedName path = true) {isWildcard : Bool}
    {t : Text} (written : WildcardText isWildcard t) :
    (Text.words (path ++ t)).flatten = path ++ if isWildcard then ".*".toList else [] := by
  have seen := Declaration.visible_of_isDottedName h
  have nonempty := Declaration.isDottedName_ne_nil h
  cases isWildcard with
  | false =>
      cases written
      simp [Text.words_of_visible seen nonempty]
  | true =>
      obtain ⟨gap, rfl, blank⟩ := written
      have star : Text.words ".*".toList = [".*".toList] := by decide
      cases gap with
      | nil =>
          have whole : Text.Visible (path ++ ".*".toList) :=
            List.forall_mem_append.mpr ⟨seen, by decide⟩
          rw [List.nil_append, Text.words_of_visible whole (by simp)]
          simp
      | cons d gap =>
          rw [Text.words_append blank (by simp), Text.words_of_visible seen nonempty, star]
          simp

/-- The reader of the word `static` and the blanks behind it. -/
def staticWord : Matcher Unit := do
  Matcher.word "static".toList
  Matcher.run1 isBlank

theorem staticWord_eq_nil {path : Text} (h : isDottedName path = true) {r : Text}
    (stops : Stops isNamePart r) (behind : Text) : staticWord ⟨behind, path ++ r⟩ = [] := by
  by_cases front : "static".toList <+: path ++ r
  · obtain ⟨rest, same⟩ := front
    rw [staticWord, ← same, Matcher.bind_of_single (Matcher.word_append _ behind rest)]
    refine Matcher.run1_of_stops ?_ _
    cases rest with
    | nil => rfl
    | cons c rest =>
        cases blank : isBlank c with
        | false => exact blank
        | true =>
            have whole :=
              eq_of_front (l := near path) (isPlain_of_isDottedName h).1.kind (Or.inr stops)
              (by decide : IsKeyword "static".toList) (Character.not_isDottedPart_of_isBlank blank)
              same.symm
            rw [near_text] at whole
            exact absurd (whole ▸ by decide) (Declaration.not_mem_keywords_of_isDottedName h)
  · exact Matcher.bind_of_nil (Matcher.word_eq_nil front)

theorem importPath_eq : Matcher.importPath = (do
    Matcher.wordEdge
    Matcher.word "import".toList
    Matcher.run1 isBlank
    let isStatic ← Matcher.optional staticWord
    let path ← Matcher.stretch importedPath
    Matcher.run isBlank
    Matcher.char ';'
    return (isStatic.isSome, path)) := rfl

/-- The statement behind its keyword, where `front` is what stands before the
path. -/
theorem reads_importPath_front {path : Text} (h : isDottedName path = true) {isWildcard : Bool}
    {v : Text} (written : WildcardText isWildcard v) {front gap gap' : Text}
    {isStatic : Option Unit} (blank : Blank gap) (parted : gap ≠ []) (blank' : Blank gap')
    (stops : ∀ t, Stops isBlank (front ++ (path ++ t)))
    (static : ∀ behind t, Stops isNamePart t →
      Reads (Matcher.optional staticWord) ⟨behind, front ++ (path ++ t)⟩ isStatic
        ⟨front.reverse ++ behind, path ++ t⟩)
    {behind : Text} (edge : ∀ c, behind.head? = some c → Character.isWord c = false) (u : Text) :
    ∃ found, Reads Matcher.importPath
        ⟨behind, "import".toList ++ (gap ++ (front ++ (path ++ (v ++ (gap' ++ ';' :: u)))))⟩ found
        ⟨("import".toList ++ (gap ++ (front ++ (path ++ (v ++ (gap' ++ [';'])))))).reverse ++
          behind, u⟩ ∧
      ClassSurface.importedName found.1 found.2.text =
        (if isStatic.isSome then "static ".toList else []) ++
          (path ++ if isWildcard then ".*".toList else []) := by
  obtain ⟨stopsPath, none, ends⟩ := reads_wildcard (u := u) written blank'
  have reads := fun behind => (reads_importedPath h stopsPath none ends behind).stretch
  let start := front.reverse ++ (gap.reverse ++ ("import".toList.reverse ++ behind))
  let found : Stretch :=
    ⟨⟨start, path ++ (v ++ (gap' ++ ';' :: u))⟩, ⟨(path ++ v).reverse ++ start, gap' ++ ';' :: u⟩⟩
  have whole : Reads Matcher.importPath
      ⟨behind, "import".toList ++ (gap ++ (front ++ (path ++ (v ++ (gap' ++ ';' :: u)))))⟩
      (isStatic.isSome, found) ⟨';' :: (gap'.reverse ++ ((path ++ v).reverse ++ start)), u⟩ := by
    rw [importPath_eq]
    refine (wordEdge_append (by decide) (by decide) edge).bind ?_
    refine (Reads.of_eq_cons (Matcher.word_append _ behind _)).bind ?_
    refine (Reads.of_eq_cons (Matcher.run1_append blank parted (stops _) _)).bind ?_
    refine (static _ _ stopsPath).bind ?_
    exact (reads start).bind (reads_end blank' u)
  have text : found.text = path ++ v := by
    have shape : path ++ (v ++ (gap' ++ ';' :: u)) = path ++ v ++ (gap' ++ ';' :: u) := by simp
    simp only [found, shape, Matcher.text_mk]
  refine ⟨(isStatic.isSome, found), by simpa [start] using whole, ?_⟩
  rw [ClassSurface.importedName, text, flatten_words_path h written]

theorem reads_importPath {form : ImportForm} (h : form.isWellFormed = true) {t : Text}
    (spelled : Spelled form.lexemes t) :
    ∃ gap s, t = gap ++ (s ++ [';']) ∧ Blank gap ∧ ∀ behind u,
      (∀ c, behind.head? = some c → Character.isWord c = false) →
        ∃ found, Reads Matcher.importPath ⟨behind, s ++ [';'] ++ u⟩ found
            ⟨(s ++ [';']).reverse ++ behind, u⟩ ∧
          ClassSurface.importedName found.1 found.2.text = form.declared := by
  obtain ⟨isStatic, path, isWildcard⟩ := form
  obtain ⟨gap, _, rfl, blank, -, inside⟩ := spelled
  obtain ⟨a, _, rfl, isFront, gap₁, _, rfl, blank₁, parted₁, inBack⟩ := spelled_append.mp inside
  obtain ⟨v, _, rfl, isWild, gap₂, _, rfl, blank₂, -, rfl⟩ := spelled_append.mp inBack
  have written : WildcardText isWildcard v := by
    cases isWildcard with
    | false => exact isWild
    | true =>
        obtain ⟨gap', rfl, blank', -⟩ := spelled_singleton.mp isWild
        exact ⟨gap', rfl, blank'⟩
  have nothing : ∀ w : Text, Stops isBlank (path ++ w) := fun w =>
    stops_append (Declaration.isDottedName_ne_nil h) (Declaration.visible_of_isDottedName h) w
  refine ⟨gap, "import".toList ++ (a ++ (gap₁ ++ (path ++ (v ++ gap₂)))), by simp, blank,
    fun behind u edge => ?_⟩
  cases isStatic with
  | false =>
      cases isFront
      have bare : ∀ behind t, Stops isNamePart t → Reads (Matcher.optional staticWord)
          ⟨behind, [] ++ (path ++ t)⟩ none ⟨[] ++ behind, path ++ t⟩ := fun behind t stops =>
        Reads.of_eq_cons (Matcher.optional_of_nil (staticWord_eq_nil h stops behind))
      have whole := reads_importPath_front h written blank₁ (parted₁ rfl) blank₂ nothing bare edge u
      simpa [ImportForm.declared] using whole
  | true =>
      obtain ⟨gap₀, rfl, blank₀, parted₀⟩ := spelled_singleton.mp isFront
      have static : ∀ behind t, Reads (Matcher.optional staticWord)
          ⟨behind, "static".toList ++ gap₁ ++ (path ++ t)⟩ (some ())
          ⟨("static".toList ++ gap₁).reverse ++ behind, path ++ t⟩ := by
        intro behind t
        have reads : Reads staticWord ⟨behind, "static".toList ++ (gap₁ ++ (path ++ t))⟩ ()
            ⟨gap₁.reverse ++ ("static".toList.reverse ++ behind), path ++ t⟩ :=
          (Reads.of_eq_cons (Matcher.word_append _ behind _)).bind
            (Reads.of_eq_cons (Matcher.run1_append blank₁ (parted₁ rfl) (nothing _) _))
        simpa using Reads.optional_some reads
      have whole := reads_importPath_front h written blank₀ (parted₀ rfl) blank₂
        (fun t => stops_append (w := "static".toList) (by decide) (by decide) (gap₁ ++ (path ++ t)))
        (fun behind t _ => static behind t) edge u
      simpa [ImportForm.declared] using whole

end Lexeme
end Testwright
