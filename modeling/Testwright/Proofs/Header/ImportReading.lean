import Testwright.Proofs.Header.ImportLine
import Testwright.Proofs.Header.Standing
import Testwright.Source.ClassReader

namespace Testwright

/-!
# The imports of a text and its entries

Two readers look for imports.  The one of a class surface takes the statements that
the reader of headers takes, as long as no asterisk stands inside of the path; so the
imports of a text are read off its entries (`importsOf_eq`), and an import line among
the entries is an import (`mem_importsOf`).
-/

open Character (isBlank isNamePart isWord)
open Text (Blank Visible unspaced)

namespace Matcher

/-- Where nothing comes of the readings of an optional part, it is left out. -/
theorem Reads.optional_skip {α β : Type} {m : Matcher α} {next : Option α → Matcher β}
    {place last : Place} {found : β}
    (dead : ∀ reading ∈ m place, next (some reading.1) reading.2 = [])
    (h : Reads (next none) place found last) : Reads (optional m >>= next) place found last := by
  have options : optional m place =
      (m >>= fun value => (Pure.pure (some value) : Matcher (Option α))) place ++ [(none, place)] :=
        rfl
  have skipped : (optional m >>= next) place = _ := bind_append options (by
    rintro ⟨value, later⟩ member
    rcases mem_bind.mp member with ⟨value', between, inside, same⟩
    rcases mem_pure.mp same with ⟨rfl, rfl⟩
    exact dead _ inside)
  rw [Reads, skipped]
  simp only [List.flatMap_cons, List.flatMap_nil, List.append_nil]
  exact h

end Matcher

namespace Text

/-- The words of a text are its visible characters. -/
theorem flatten_words (t : Text) : (words t).flatten = unspaced t := by
  rw [words, List.flatten_filter_not_isEmpty]
  induction t with
  | nil => rfl
  | cons c t ih =>
      rcases List.exists_cons_of_ne_nil (splitOn_ne_nil isBlank t) with ⟨piece, pieces, cut⟩
      rw [cut] at ih
      cases blank : isBlank c with
      | true => simpa [splitOn, blank, unspaced, cut] using ih
      | false => simpa [splitOn, blank, unspaced, cut] using ih

end Text

namespace HeaderStatement

open Lexeme (dottedPart importedPath spacedDot_append staticWord wildcard)
open Matcher (Gives Reads Silent Stops importPath spacedDot)

/-! ## Paths with no asterisk inside -/

/-- The asterisk, if there is one, ends the path. -/
def IsStarClosed (path : Text) : Prop :=
  '*' ∉ path.dropLast

instance (path : Text) : Decidable (IsStarClosed path) :=
  inferInstanceAs (Decidable ('*' ∉ path.dropLast))

/-- A dot with blanks around it, and a name. -/
def IsNamedStep (s : Text) : Prop :=
  ∃ gap gap' w, s = gap ++ '.' :: (gap' ++ w) ∧ Blank gap ∧ Blank gap' ∧ IsName w

/-- Nothing, or a dot with blanks around it and an asterisk. -/
def IsWildcardEnd (tail : Text) : Prop :=
  tail = [] ∨ ∃ gap gap', tail = gap ++ '.' :: (gap' ++ ['*']) ∧ Blank gap ∧ Blank gap'

theorem IsNamedStep.isStep {s : Text} (h : IsNamedStep s) : IsStep s := by
  rcases h with ⟨gap, gap', w, shape, blank, blank', isName⟩
  exact ⟨gap, gap', w, shape, blank, blank', Or.inl isName⟩

theorem IsWildcardEnd.exists_steps {tail : Text} (h : IsWildcardEnd tail) :
    ∃ steps, tail = List.flatten steps ∧ ∀ s ∈ steps, IsStep s := by
  rcases h with rfl | ⟨gap, gap', rfl, blank, blank'⟩
  · exact ⟨[], rfl, by simp⟩
  · exact ⟨[_], by simp,
      List.forall_mem_singleton.mpr ⟨gap, gap', ['*'], rfl, blank, blank', Or.inr rfl⟩⟩

theorem asterisk_not_mem_of_isName {w : Text} (isName : IsName w) : '*' ∉ w := fun member =>
  absurd (isName.2 '*' member) (by decide)

theorem asterisk_not_mem_of_blank {gap : Text} (blank : Blank gap) : '*' ∉ gap := fun member =>
  absurd (blank '*' member) (by decide)

theorem asterisk_not_mem_of_isNamedStep {s : Text} (h : IsNamedStep s) : '*' ∉ s := by
  rcases h with ⟨gap, gap', w, rfl, blank, blank', isName⟩
  simp [asterisk_not_mem_of_blank blank, asterisk_not_mem_of_blank blank',
    asterisk_not_mem_of_isName isName]

theorem asterisk_not_mem_of_isStaticLead {lead : Text} (h : IsStaticLead lead) : '*' ∉ lead := by
  rcases h with rfl | ⟨gap, rfl, -, blank⟩
  · simp
  · simp [asterisk_not_mem_of_blank blank]

/-- The steps of a closed path have names, the last one aside. -/
theorem exists_named_steps {steps : List Text} (each : ∀ s ∈ steps, IsStep s)
    (closed : IsStarClosed (List.flatten steps)) :
    ∃ named tail, List.flatten steps = List.flatten named ++ tail ∧ (∀ s ∈ named, IsNamedStep s) ∧
      IsWildcardEnd tail := by
  induction steps with
  | nil => exact ⟨[], [], rfl, by simp, Or.inl rfl⟩
  | cons s steps ih =>
      have others : ∀ s ∈ steps, IsStep s := fun s member => each s (List.mem_cons_of_mem _ member)
      have whole : List.flatten (s :: steps) = s ++ List.flatten steps := by simp
      rcases each s List.mem_cons_self with ⟨gap, gap', w, rfl, blank, blank', isName | rfl⟩
      · by_cases none : List.flatten steps = []
        · refine ⟨[gap ++ '.' :: (gap' ++ w)], [], by simp [none], ?_, Or.inl rfl⟩
          exact List.forall_mem_singleton.mpr ⟨gap, gap', w, rfl, blank, blank', isName⟩
        · have closed' : IsStarClosed (List.flatten steps) := fun member => closed (by
            rw [whole, List.dropLast_append_of_ne_nil none]
            exact List.mem_append_right _ member)
          rcases ih others closed' with ⟨named, tail, same, each', isEnd⟩
          refine ⟨(gap ++ '.' :: (gap' ++ w)) :: named, tail, by simp [same], ?_, isEnd⟩
          exact List.forall_mem_cons.mpr ⟨⟨gap, gap', w, rfl, blank, blank', isName⟩, each'⟩
      · have none : List.flatten steps = [] := by
          apply Classical.byContradiction
          intro some
          refine closed ?_
          rw [whole, List.dropLast_append_of_ne_nil some]
          simp
        exact ⟨[], gap ++ '.' :: (gap' ++ ['*']), by simp [none], by simp,
          Or.inr ⟨gap, gap', rfl, blank, blank'⟩⟩

theorem isStarClosed_append {a b : Text} (none : '*' ∉ a) (some : b ≠ []) :
    IsStarClosed (a ++ b) ↔ IsStarClosed b := by
  rw [IsStarClosed, IsStarClosed, List.dropLast_append_of_ne_nil some]
  simp [none]

/-- Names with steps behind them end with something visible. -/
theorem exists_concat_of_steps {name : Text} (isName : IsName name) {steps : List Text}
    (each : ∀ s ∈ steps, IsStep s) :
    ∃ front c, name ++ List.flatten steps = front ++ [c] ∧ isBlank c = false := by
  have seen : ∀ {w : Text}, IsName w → ∀ u, ∃ front c,
      u ++ w = front ++ [c] ∧ isBlank c = false := by
    intro w isName u
    rcases List.eq_nil_or_concat w with rfl | ⟨v, c, rfl⟩
    · exact absurd rfl isName.1
    · exact ⟨u ++ v, c, by simp, visible_of_isName isName c (by simp)⟩
  rcases List.eq_nil_or_concat steps with rfl | ⟨steps, s, rfl⟩
  · simpa using seen isName []
  · rcases each s (by simp) with ⟨gap, gap', w, rfl, -, -, isName' | rfl⟩
    · rcases seen isName' (name ++ (List.flatten steps ++ (gap ++ '.' :: gap'))) with
        ⟨front, c, shape, shown⟩
      exact ⟨front, c, by rw [← shape]; simp, shown⟩
    · exact ⟨name ++ (List.flatten steps ++ (gap ++ '.' :: gap')), '*', by simp, by decide⟩

/-- The canonical spacing moves no asterisk to the end of a path. -/
theorem isStarClosed_canonicalPath {path : Text} (h : IsPath path) :
    IsStarClosed (canonicalPath path) ↔ IsStarClosed path := by
  rcases h with ⟨lead, name, steps, rfl, isLead, isName, each⟩
  rcases exists_concat_of_steps isName each with ⟨front, c, shape, shown⟩
  have bare : name ++ unspaced (List.flatten steps) = unspaced front ++ [c] := by
    rw [← Text.unspaced_of_visible (visible_of_isName isName), ← Text.unspaced_append, shape,
      Text.unspaced_append, Text.unspaced_of_visible (List.forall_mem_singleton.mpr shown)]
  have noLead : '*' ∉ if lead = [] then [] else "static ".toList := by
    split <;> decide
  rw [canonicalPath_of_parts isLead isName each, bare, shape, isStarClosed_append noLead (by simp),
    isStarClosed_append (asterisk_not_mem_of_isStaticLead isLead) (by simp), IsStarClosed,
    IsStarClosed, List.dropLast_concat, List.dropLast_concat, unspaced, List.mem_filter]
  simp [show isBlank '*' = false by decide]

/-! ## What is read of an import -/

theorem takes_staticWord :
    Matcher.Takes staticWord fun s => ∃ gap, s = "static".toList ++ gap ∧ gap ≠ [] ∧ Blank gap := by
  apply ((Matcher.takes_word "static".toList).bind fun _ => Matcher.takes_run1 isBlank).mono
  rintro s ⟨_, gap, rfl, rfl, some, blank⟩
  exact ⟨gap, rfl, some, blank⟩

theorem takes_dottedPart : Matcher.Takes dottedPart IsNamedStep := by
  have dot := (Matcher.takes_run isBlank).bind fun _ => (Matcher.takes_char '.').bind fun _ =>
    Matcher.takes_run isBlank
  apply (Matcher.Takes.bind (m := spacedDot) dot fun _ => Matcher.takes_run1 isNamePart).mono
  rintro s ⟨_, w, rfl, ⟨gap, _, rfl, blank, _, gap', rfl, rfl, blank'⟩, isName⟩
  exact ⟨gap, gap', w, by simp, blank, blank', isName⟩

theorem takes_wildcard : Matcher.Takes wildcard fun s =>
    ∃ gap gap', s = gap ++ '.' :: (gap' ++ ['*']) ∧ Blank gap ∧ Blank gap' := by
  have dot := (Matcher.takes_run isBlank).bind fun _ => (Matcher.takes_char '.').bind fun _ =>
    Matcher.takes_run isBlank
  apply (Matcher.Takes.bind (m := spacedDot) dot fun _ => Matcher.takes_char '*').mono
  rintro s ⟨_, _, rfl, ⟨gap, _, rfl, blank, _, gap', rfl, rfl, blank'⟩, rfl⟩
  exact ⟨gap, gap', by simp, blank, blank'⟩

theorem takes_importedPath : Matcher.Takes importedPath fun s => ∃ name named tail,
    s = name ++ (List.flatten named ++ tail) ∧ IsName name ∧ (∀ s ∈ named, IsNamedStep s) ∧
      IsWildcardEnd tail := by
  have parts := (Matcher.takes_run1 isNamePart).bind fun _ =>
    takes_dottedPart.many.bind fun _ => takes_wildcard.maybe
  apply parts.mono
  rintro s ⟨name, _, rfl, isName, _, tail, rfl, ⟨named, rfl, each⟩, isEnd⟩
  exact ⟨name, named, tail, rfl, isName, each, isEnd.symm⟩

/-- Every reading takes an import statement with no asterisk inside of the path. -/
theorem gives_importPath :
    Gives importPath fun _ s => ∃ path, IsWording true path s ∧ IsStarClosed path := by
  rw [Lexeme.importPath_eq]
  have parts := (Matcher.takes_require Place.atWordEdge).gives.bind fun _ =>
    (Matcher.takes_word "import".toList).gives.bind fun _ =>
      (Matcher.takes_run1 isBlank).gives.bind fun _ =>
      takes_staticWord.optional.gives.bind fun isStatic =>
        takes_importedPath.gives_stretch.bind fun path =>
        (Matcher.takes_run isBlank).gives.bind fun _ => (Matcher.takes_char ';').gives.bind fun _ =>
          Matcher.gives_pure (isStatic.isSome, path)
  intro place reading member
  rcases parts place reading member with ⟨s, holds, rest⟩
  refine ⟨s, ?_, rest⟩
  rcases holds with
    ⟨-, _, _, rfl, rfl, -, _, _, rfl, rfl, -, gap, _, rfl, ⟨some, blank⟩, -, lead, _, rfl, isLead,
      -, _, _, rfl, ⟨⟨name, named, tail, rfl, isName, each, isEnd⟩, -⟩, -, gap', _, rfl, blank', -,
      _, _, rfl, rfl, -, rfl⟩
  have isLead' : IsStaticLead lead :=
    isLead.symm.imp id fun ⟨gap, shape, some, blank⟩ => ⟨gap, shape, some, blank⟩
  rcases isEnd.exists_steps with ⟨steps, shape, eachEnd⟩
  refine ⟨lead ++ (name ++ (List.flatten named ++ tail)),
    ⟨gap, gap', by simp [keyword], some, blank, blank', lead,
    name, named ++ steps, by simp [shape], isLead', isName, ?_⟩, ?_⟩
  · exact List.forall_mem_append.mpr ⟨fun s member => (each s member).isStep, eachEnd⟩
  · have noNamed : '*' ∉ List.flatten named := fun member => by
      rcases List.mem_flatten.mp member with ⟨s, isOne, inside⟩
      exact asterisk_not_mem_of_isNamedStep (each s isOne) inside
    have front : '*' ∉ lead ++ (name ++ List.flatten named) := by
      simp only [List.mem_append, not_or]
      exact ⟨asterisk_not_mem_of_isStaticLead isLead', asterisk_not_mem_of_isName isName, noNamed⟩
    rcases isEnd with rfl | ⟨g, g', rfl, blankG, blankG'⟩
    · rw [List.append_nil]
      exact fun member => front (List.dropLast_subset _ member)
    · have concat : lead ++ (name ++ (List.flatten named ++ (g ++ '.' :: (g' ++ ['*'])))) =
          (lead ++ (name ++ List.flatten named) ++ (g ++ '.' :: g')) ++ ['*'] := by simp
      rw [IsStarClosed, concat, List.dropLast_concat]
      intro member
      rcases List.mem_append.mp member with here | member
      · exact front here
      · simp [asterisk_not_mem_of_blank blankG, asterisk_not_mem_of_blank blankG'] at member

/-! ## Every import with no asterisk inside is read -/

theorem spacedDot_surround {gap gap' t : Text} (blank : Blank gap) (blank' : Blank gap')
    (stops : Stops isBlank t) (behind : Text) :
    spacedDot ⟨behind, gap ++ '.' :: (gap' ++ t)⟩ =
      [((), ⟨gap'.reverse ++ '.' :: (gap.reverse ++ behind), t⟩)] := by
  rw [spacedDot,
    Matcher.bind_of_single (Matcher.run_append blank (Matcher.stops_cons.mpr (by decide)) behind),
    Matcher.bind_of_single (Matcher.char_self '.' _ _)]
  exact Matcher.run_append blank' stops _

theorem reads_dottedPart {s : Text} (h : IsNamedStep s) {t : Text} (stops : Stops isNamePart t)
    (behind : Text) :
    Reads dottedPart ⟨behind, s ++ t⟩ () ⟨s.reverse ++ behind, t⟩ := by
  rcases h with ⟨gap, gap', w, rfl, blank, blank', isName⟩
  have seen : Stops isBlank (w ++ t) := Lexeme.stops_append isName.1 (visible_of_isName isName) t
  have reads : Reads dottedPart ⟨behind, gap ++ '.' :: (gap' ++ (w ++ t))⟩ ()
      ⟨w.reverse ++ (gap'.reverse ++ '.' :: (gap.reverse ++ behind)), t⟩ :=
    (Reads.of_eq_cons (spacedDot_surround blank blank' seen behind)).bind
      (Reads.of_eq_cons (Matcher.run1_append isName.2 isName.1 stops _))
  simpa using reads

/-- Where a path ends, no name follows, and the asterisk is read, if there is one. -/
structure ReadsEnd (tail rest : Text) : Prop where
  stops : Stops isNamePart (tail ++ rest)
  noPart : ∀ behind, dottedPart ⟨behind, tail ++ rest⟩ = []
  reads : ∀ behind,
    Reads (Matcher.maybe wildcard) ⟨behind, tail ++ rest⟩ () ⟨tail.reverse ++ behind, rest⟩

theorem IsWildcardEnd.readsEnd {tail : Text} (h : IsWildcardEnd tail) {gap : Text}
    (blank : Blank gap) (t : Text) :
    ReadsEnd tail (gap ++ ';' :: t) := by
  rcases h with rfl | ⟨g, g', rfl, blank', blank₁⟩
  · have none :=
      fun behind => Lexeme.spacedDot_eq_nil (t := t) blank (c := ';') (by decide) (by decide) behind
    exact ⟨stops_gap blank (by decide) t, fun behind => Matcher.bind_of_nil (none behind),
      fun behind =>
      Reads.of_eq_cons (Matcher.maybe_of_nil (Matcher.bind_of_nil (none behind)))⟩
  · have dot := fun behind => spacedDot_surround (t := '*' :: (gap ++ ';' :: t)) blank' blank₁
      (Matcher.stops_cons.mpr (by decide)) behind
    have shape : g ++ '.' :: (g' ++ ['*']) ++ (gap ++ ';' :: t) =
        g ++ '.' :: (g' ++ '*' :: (gap ++ ';' :: t)) := by
      simp
    refine ⟨?_, fun behind => ?_, fun behind => Reads.maybe ?_⟩
    · rw [shape]
      exact stops_gap blank' (by decide) _
    · rw [shape, dottedPart, Matcher.bind_of_single (dot behind)]
      exact Matcher.run1_of_stops (Matcher.stops_cons.mpr (by decide)) _
    · have reads : Reads (Matcher.spacedDot >>= fun _ => Matcher.char '*') ⟨behind, _⟩ () _ :=
        (Reads.of_eq_cons (dot behind)).bind (Reads.of_eq_cons (Matcher.char_self '*' _ _))
      rw [shape, wildcard]
      simpa using reads

theorem stops_named_steps {named : List Text} (each : ∀ s ∈ named, IsNamedStep s) {t : Text}
    (stops : Stops isNamePart t) : Stops isNamePart (List.flatten named ++ t) := by
  cases named with
  | nil => exact stops
  | cons s named =>
      rcases each s List.mem_cons_self with ⟨gap, gap', w, rfl, blank, -, -⟩
      have front :=
        stops_gap blank (c := '.') (by decide) (gap' ++ (w ++ (List.flatten named ++ t)))
      simpa using front

theorem reads_named_steps {named : List Text} (each : ∀ s ∈ named, IsNamedStep s) {t : Text}
    (stops : Stops isNamePart t) (none : ∀ behind, dottedPart ⟨behind, t⟩ = []) (behind : Text) :
    Reads (Matcher.many dottedPart) ⟨behind, List.flatten named ++ t⟩ ()
      ⟨(List.flatten named).reverse ++ behind, t⟩ := by
  induction named generalizing behind with
  | nil => exact Reads.many_stop (none behind)
  | cons s named ih =>
      have others : ∀ s ∈ named, IsNamedStep s :=
        fun s member => each s (List.mem_cons_of_mem _ member)
      have step :=
        reads_dottedPart (each s List.mem_cons_self) (stops_named_steps others stops) behind
      simpa using step.many_step Lexeme.consumes_dottedPart (ih others (s.reverse ++ behind))

theorem reads_importedPath {name tail rest : Text} (isName : IsName name) {named : List Text}
    (each : ∀ s ∈ named, IsNamedStep s) (atEnd : ReadsEnd tail rest) (behind : Text) :
    Reads importedPath ⟨behind, name ++ (List.flatten named ++ (tail ++ rest))⟩ ()
      ⟨tail.reverse ++ ((List.flatten named).reverse ++ (name.reverse ++ behind)), rest⟩ :=
  (Reads.of_eq_cons
    (Matcher.run1_append isName.2 isName.1 (stops_named_steps each atEnd.stops) behind)).bind
    ((reads_named_steps each atEnd.stops atEnd.noPart _).bind (atEnd.reads _))

/-- Every import statement with no asterisk inside of its path is read as far as it
goes, and the name is the canonical path. -/
theorem reads_importPath_of_isWording {path s : Text} (h : IsWording true path s)
    (closed : IsStarClosed path) {behind : Text} (edge : BehindEdge behind) (t : Text) :
    ∃ found, Reads importPath ⟨behind, s ++ t⟩ found ⟨s.reverse ++ behind, t⟩ ∧
      ClassSurface.importedName found.1 found.2.text = canonicalPath path := by
  rcases h with ⟨gap, gap', rfl, some, blank, blank', lead, name, steps, rfl, isLead, isName, each⟩
  have canonical := canonicalPath_of_parts isLead isName each
  have closed' : IsStarClosed (List.flatten steps) := fun member => by
    have some' : List.flatten steps ≠ [] := fun none => by
      rw [none] at member
      cases member
    rw [IsStarClosed, ← List.append_assoc, List.dropLast_append_of_ne_nil some'] at closed
    exact closed (List.mem_append_right _ member)
  rcases exists_named_steps each closed' with ⟨named, tail, same, each', isEnd⟩
  rcases stops_steps each blank' t with ⟨gap₁, c, r, shape, blank₁, visible, other⟩
  let more := List.flatten steps ++ (gap' ++ ';' :: t)
  have whole : name ++ more = name ++ (List.flatten named ++ (tail ++ (gap' ++ ';' :: t))) := by
    simp [more, same]
  let found (start : Text) : Stretch :=
    ⟨⟨start, name ++ more⟩, ⟨(name ++ List.flatten steps).reverse ++ start, gap' ++ ';' :: t⟩⟩
  have path : ∀ start, Reads (Matcher.stretch importedPath) ⟨start, name ++ more⟩ (found start)
      ⟨(name ++ List.flatten steps).reverse ++ start, gap' ++ ';' :: t⟩ := fun start => by
    have reads := reads_importedPath isName each' (isEnd.readsEnd blank' t) start
    rw [← whole] at reads
    simpa [found, same] using reads.stretch
  have text : ∀ start, (found start).text = name ++ List.flatten steps := fun start => by
    have cut : name ++ more = (name ++ List.flatten steps) ++ (gap' ++ ';' :: t) := by simp [more]
    simp only [found, cut, Matcher.text_mk]
  have named : (Text.words (name ++ List.flatten steps)).flatten =
      name ++ unspaced (List.flatten steps) := by
    rw [Text.flatten_words, Text.unspaced_append,
      Text.unspaced_of_visible (visible_of_isName isName)]
  have seen : Stops isBlank (name ++ more) :=
    Lexeme.stops_append isName.1 (visible_of_isName isName) _
  rw [canonical]
  let start := gap.reverse ++ ("import".toList.reverse ++ behind)
  rcases isLead with rfl | ⟨between, rfl, some', blanks⟩
  · have bare : Reads importPath ⟨behind, "import".toList ++ (gap ++ (name ++ more))⟩
        (false, found start)
        ⟨';' :: (gap'.reverse ++ ((name ++ List.flatten steps).reverse ++ start)), t⟩ := by
      rw [Lexeme.importPath_eq]
      refine (Lexeme.wordEdge_append (by decide) (by decide) edge).bind ?_
      refine (Reads.of_eq_cons (Matcher.word_append _ behind _)).bind ?_
      refine (Reads.of_eq_cons (Matcher.run1_append blank some seen _)).bind ?_
      refine Reads.optional_skip (fun reading member => ?_)
        ((path start).bind (Lexeme.reads_end blank' t))
      refine Matcher.bind_of_nil (Matcher.stretch_of_nil ?_)
      exact dead_lead isName shape blank₁ visible other _ start reading member
    refine ⟨(false, found start), by simpa [start, more, keyword] using bare, ?_⟩
    rw [ClassSurface.importedName, text, named]
    rfl
  · have seen' : Stops isBlank ("static".toList ++ (between ++ (name ++ more))) :=
      Lexeme.stops_append (by decide) (by decide) _
    let start' := between.reverse ++ ("static".toList.reverse ++ start)
    have static : Reads staticWord ⟨start, "static".toList ++ (between ++ (name ++ more))⟩ ()
        ⟨start', name ++ more⟩ :=
      (Reads.of_eq_cons (Matcher.word_append _ start _)).bind
        (Reads.of_eq_cons (Matcher.run1_append blanks some' seen _))
    have led : Reads importPath
        ⟨behind, "import".toList ++ (gap ++ ("static".toList ++ (between ++ (name ++ more))))⟩
        (true, found start')
        ⟨';' :: (gap'.reverse ++ ((name ++ List.flatten steps).reverse ++ start')), t⟩ := by
      rw [Lexeme.importPath_eq]
      refine (Lexeme.wordEdge_append (by decide) (by decide) edge).bind ?_
      refine (Reads.of_eq_cons (Matcher.word_append _ behind _)).bind ?_
      refine (Reads.of_eq_cons (Matcher.run1_append blank some seen' _)).bind ?_
      exact (Reads.optional_some static).bind ((path start').bind (Lexeme.reads_end blank' t))
    refine ⟨(true, found start'), by simpa [start, start', more, keyword] using led, ?_⟩
    have led : ¬("static".toList ++ between = []) := by simp
    rw [ClassSurface.importedName, text, named, if_neg led]
    rfl

end HeaderStatement

namespace Header

open HeaderStatement (BehindEdge Begins IsStarClosed IsWording canonicalPath canonicalText)
open Matcher (Silent importPath)

/-! ## The imports of a text -/

/-- The name that an entry imports, unless it has an asterisk that does not end it. -/
def declared? (entry : Bool × Text) : Option Text :=
  let name := (entry.2.drop "import ".toList.length).dropLast
  if entry.1 ∧ IsStarClosed name then some name else none

theorem declared?_canonicalText {isImport : Bool} {path s : Text}
    (wording : IsWording isImport path s) :
    declared? (isImport, canonicalText isImport path) =
      if isImport ∧ IsStarClosed path then some (canonicalPath path) else none := by
  rcases wording with ⟨-, -, -, -, -, -, isPath⟩
  cases isImport with
  | false => simp [declared?]
  | true =>
      have name : ((canonicalText true path).drop "import ".toList.length).dropLast =
          canonicalPath path := by
        have whole : canonicalText true path =
            "import ".toList ++ (canonicalPath path ++ [';']) := by
          rw [canonicalText]
          simp
        rw [whole, List.drop_left, List.dropLast_concat]
      simp only [declared?, name, HeaderStatement.isStarClosed_canonicalPath isPath]

/-- A statement is one wording at most. -/
theorem wording_unique {isImport isImport' : Bool} {path path' s s' r r' : Text}
    (h : IsWording isImport path s) (h' : IsWording isImport' path' s') (same : s ++ r = s' ++ r') :
    isImport = isImport' ∧ path = path' ∧ s = s' := by
  rcases HeaderStatement.reads_of_isWording h HeaderStatement.behindEdge_nil r with
    ⟨found, reads, text⟩
  rcases HeaderStatement.reads_of_isWording h' HeaderStatement.behindEdge_nil r' with
    ⟨found', reads', text'⟩
  rw [same] at reads
  have equal := Option.some.inj (Eq.trans (Eq.symm reads) reads')
  rcases Prod.mk.inj equal with ⟨values, places⟩
  rcases Prod.mk.inj values with ⟨rfl, rfl⟩
  refine ⟨rfl, text.symm.trans text', ?_⟩
  have behind : s.reverse ++ [] = s'.reverse ++ [] := (Place.mk.inj places).1
  simpa using behind

/-- No import is read inside a statement that is no import, or has an asterisk inside of its
path. -/
theorem silent_importPath {isImport : Bool} {path s : Text} (wording : IsWording isImport path s)
    (other : ¬(isImport = true ∧ IsStarClosed path)) (behind r : Text) :
    Silent importPath behind s r := by
  rintro x y rfl nonempty
  apply Classical.byContradiction
  intro some
  rcases List.exists_mem_of_ne_nil _ some with ⟨reading, member⟩
  rcases HeaderStatement.gives_importPath _ reading member with
    ⟨s', ⟨path', wording', closed⟩, ahead, -⟩
  have ahead : y ++ r = s' ++ reading.2.ahead := ahead
  have whole : (x ++ y) ++ r = x ++ (s' ++ reading.2.ahead) := by rw [List.append_assoc, ahead]
  have inside : x.length < (x ++ y).length := by
    have positive := List.length_pos_iff.mpr nonempty
    rw [List.length_append]
    omega
  rcases wording.eq_nil_of_inside wording' whole inside with rfl
  rcases wording_unique wording wording' whole with ⟨rfl, rfl, -⟩
  exact other ⟨rfl, closed⟩

/-- Every import is read behind a word edge. -/
theorem begins_of_importPath {behind t : Text} (some : importPath ⟨behind, t⟩ ≠ []) :
    Begins behind t := by
  have atEdge : Place.atWordEdge ⟨behind, t⟩ = true := by
    apply Classical.byContradiction
    intro off
    rw [Lexeme.importPath_eq] at some
    exact some (Matcher.bind_of_nil (Matcher.require_of_false (by simpa using off)))
  rcases List.exists_mem_of_ne_nil _ some with ⟨reading, member⟩
  rcases HeaderStatement.gives_importPath _ reading member with ⟨s, ⟨path, wording, -⟩, ahead, -⟩
  have ahead : t = s ++ reading.2.ahead := ahead
  rcases wording.exists_parts with ⟨c, u, shape, word, -⟩
  refine ⟨fun d last => ?_, true, path, s, reading.2.ahead, ahead, wording⟩
  rw [ahead, shape] at atEdge
  exact HeaderStatement.not_behindEdge_of_word word atEdge last

theorem map_findAllFrom_importPath (behind t : Text) :
    (Matcher.findAllFrom importPath behind 0 t).map
      (fun found => ClassSurface.importedName found.1 found.2.text) =
      (entriesFrom behind t).filterMap declared? := by
  induction size : t.length using Nat.strongRecOn generalizing t behind with
  | ind n ih =>
      cases t with
      | nil => rfl
      | cons c t =>
          by_cases begins : Begins behind (c :: t)
          · rcases begins with ⟨edge, isImport, path, s, r, whole, wording⟩
            rcases wording.exists_parts with ⟨d, u, shape, -, -⟩
            have nonempty : s ≠ [] := by simp [shape]
            have shorter : r.length < n := by
              have positive := List.length_pos_iff.mpr nonempty
              rw [← size, whole, List.length_append]
              omega
            rw [whole, entriesFrom_of_isWording wording edge, List.filterMap_cons,
              declared?_canonicalText wording]
            by_cases read : isImport = true ∧ IsStarClosed path
            · rcases read with ⟨rfl, closed⟩
              rcases HeaderStatement.reads_importPath_of_isWording wording closed edge r with
                ⟨found, reads, name⟩
              rw [if_pos ⟨rfl, closed⟩, Matcher.findAllFrom_of_reads nonempty reads, List.map_cons,
                name, ih r.length shorter _ r rfl]
            · rw [if_neg read, Matcher.findAllFrom_append (silent_importPath wording read behind r),
                ih r.length shorter _ r rfl]
          · have none : importPath ⟨behind, c :: t⟩ = [] :=
              Classical.byContradiction fun some => begins (begins_of_importPath some)
            rw [entriesFrom_cons begins]
            simp only [Matcher.findAllFrom, none]
            exact ih t.length (by simp [← size]) _ t rfl

/-- The imports of a text are read off its entries. -/
theorem importsOf_eq (t : Text) : ClassSurface.importsOf t = (entries t).filterMap declared? :=
  map_findAllFrom_importPath [] t

theorem asterisk_not_mem_of_isDottedPath {t : Text} (h : isDottedPath t = true) : '*' ∉ t := by
  rcases exists_names h with ⟨first, rest, rfl, isFirst, each⟩
  intro member
  rcases List.mem_append.mp member with here | member
  · exact HeaderStatement.asterisk_not_mem_of_isName isFirst here
  · rcases List.mem_flatMap.mp member with ⟨name, isOne, inside⟩
    rcases List.mem_cons.mp inside with same | inside
    · exact absurd same (by decide)
    · exact HeaderStatement.asterisk_not_mem_of_isName (each name isOne) inside

theorem isStarClosed_declared {form : ImportForm} (dotted : isDottedPath form.path = true) :
    IsStarClosed form.declared := by
  have front : '*' ∉ (if form.isStatic then "static ".toList else []) ++ form.path := by
    rw [List.mem_append, not_or]
    refine ⟨?_, asterisk_not_mem_of_isDottedPath dotted⟩
    cases form.isStatic <;> decide
  rw [ImportForm.declared, ← List.append_assoc]
  cases form.isWildcard with
  | false =>
      rw [if_neg Bool.false_ne_true, List.append_nil]
      exact fun member => front (List.dropLast_subset _ member)
  | true =>
      have concat : ∀ t : Text, t ++ ".*".toList = (t ++ ['.']) ++ ['*'] := fun t => by simp
      rw [if_pos rfl, concat, IsStarClosed, List.dropLast_concat, List.mem_append, not_or]
      exact ⟨front, by decide⟩

theorem declared?_line {form : ImportForm} (dotted : isDottedPath form.path = true) :
    declared? (true, form.line) = some form.declared := by
  have wording := ImportForm.isWording_line dotted
  rw [← ImportForm.canonicalText_declared dotted, declared?_canonicalText wording,
    if_pos ⟨rfl, isStarClosed_declared dotted⟩, ImportForm.canonicalPath_declared dotted]

/-- An import line among the entries of a text is an import of it. -/
theorem mem_importsOf {form : ImportForm} (dotted : isDottedPath form.path = true) {t : Text}
    (member : (true, form.line) ∈ entries t) : form.declared ∈ ClassSurface.importsOf t := by
  rw [importsOf_eq, List.mem_filterMap]
  exact ⟨_, member, declared?_line dotted⟩

end Header
end Testwright
