import Testwright.Proofs.Header.Canonical
import Testwright.Proofs.Header.Entries
import Testwright.Proofs.Text.Standing

namespace Testwright

/-!
# Statements that stand in a text

In a wording two names with only blanks between them are the keyword or the word
`static` and what follows it (`eq_keyword_or_static`).  So no wording begins inside
another one, and a wording that stands in a text behind a word edge is one of its
entries, whatever is in front (`mem_entries_of_isWording`).  Other blanks in the
text leave it an entry (`mem_entries_of_respaced`).
-/

open Character (isBlank isNamePart isWord)
open Text (Blank Respaced Visible unspaced)

namespace HeaderStatement

/-! ## No wording begins inside another one -/

/-- Blanks with a name in front of them and a name behind them. -/
structure IsGap (d : Char) (gap : Text) (c : Char) : Prop where
  some : gap ≠ []
  blank : Blank gap
  front : isNamePart d = true
  back : isNamePart c = true

section Gaps

variable {d c : Char} {gap : Text} (h : IsGap d gap c)
include h

theorem IsGap.not_blank_front {g : Text} (blank : Blank g) : d ∉ g := fun member => by
  have named := Character.not_isNamePart_of_isBlank (blank d member)
  rw [h.front] at named
  cases named

/-- In front of a gap there is all of a text without blanks. -/
theorem IsGap.exists_behind_visible {w t a b : Text} (visible : Visible w)
    (whole : w ++ t = a ++ d :: (gap ++ c :: b)) :
    (a ++ [d] = w ∧ t = gap ++ c :: b) ∨ ∃ x, a = w ++ x ∧ t = x ++ d :: (gap ++ c :: b) := by
  rcases List.exists_cons_of_ne_nil h.some with ⟨e, rest, rfl⟩
  have absent : e ∉ w := fun member => by
    have shown := visible e member
    rw [h.blank e List.mem_cons_self] at shown
    cases shown
  have cut : w ++ t = (a ++ [d]) ++ e :: (rest ++ c :: b) := by simpa using whole
  rcases Text.exists_behind absent cut with ⟨x, front, back⟩
  rcases List.eq_nil_or_concat x with rfl | ⟨y, f, rfl⟩
  · exact Or.inl ⟨by simpa using front, by simpa using back⟩
  · have same : a ++ [d] = (w ++ y) ++ [f] := by simpa using front
    rcases List.append_inj' same rfl with ⟨rfl, last⟩
    rcases List.cons.inj last with ⟨rfl, -⟩
    exact Or.inr ⟨y, rfl, by simpa using back⟩

/-- In front of the steps of a path, or behind them, there is no gap between names. -/
theorem IsGap.false_of_steps {steps : List Text} (each : ∀ s ∈ steps, IsStep s) {gap' : Text}
    (blank' : Blank gap') {a b : Text}
    (whole : List.flatten steps ++ (gap' ++ [';']) = a ++ d :: (gap ++ c :: b)) : False := by
  induction steps generalizing a with
  | nil =>
      have inside : d ∈ gap' ++ [';'] := by
        have all : gap' ++ [';'] = a ++ d :: (gap ++ c :: b) := whole
        rw [all]
        simp
      rcases List.mem_append.mp inside with here | last
      · exact h.not_blank_front blank' here
      · have named := h.front
        rw [List.mem_singleton.mp last] at named
        exact absurd named (by decide)
  | cons s steps ih =>
      rcases each s List.mem_cons_self with ⟨g, g', w, rfl, blank, blank₁, last⟩
      have others : ∀ s ∈ steps, IsStep s := fun s member => each s (List.mem_cons_of_mem _ member)
      have visible : Visible w := by
        rcases last with isName | rfl
        · exact visible_of_isName isName
        · decide
      have absent : d ∉ g ++ '.' :: g' := fun member => by
        rcases List.mem_append.mp member with here | member
        · exact h.not_blank_front blank here
        · rcases List.mem_cons.mp member with rfl | here
          · exact absurd h.front (by decide)
          · exact h.not_blank_front blank₁ here
      have cut : (g ++ '.' :: g') ++ (w ++ (List.flatten steps ++ (gap' ++ [';']))) =
          a ++ d :: (gap ++ c :: b) := by simpa using whole
      rcases Text.exists_behind absent cut with ⟨y, rfl, behind⟩
      rcases h.exists_behind_visible visible behind with ⟨-, rest⟩ | ⟨x, -, rest⟩
      · rcases stops_steps others blank' [] with ⟨gap₂, e, r, shape, blank₂, shown, other⟩
        have back := Character.not_isBlank_of_isNamePart h.back
        rcases Text.eq_of_blanks_append blank₂ h.blank shown back (shape.symm.trans rest) with
          ⟨-, same, -⟩
        rw [same, h.back] at other
        cases other
      · exact ih others rest

theorem IsGap.false_of_name {name : Text} (isName : IsName name) {steps : List Text}
    (each : ∀ s ∈ steps, IsStep s) {gap' : Text} (blank' : Blank gap') {a b : Text}
    (whole : name ++ (List.flatten steps ++ (gap' ++ [';'])) = a ++ d :: (gap ++ c :: b)) :
    False := by
  -- a name is what a step ends with
  have step : IsStep ('.' :: name) :=
    ⟨[], [], name, rfl, Text.blank_nil, Text.blank_nil, Or.inl isName⟩
  refine h.false_of_steps (List.forall_mem_cons.mpr ⟨step, each⟩) blank' (a := '.' :: a) (b := b) ?_
  simpa using whole

/-- In front of a gap between names stands the keyword of the statement or the word
`static`. -/
theorem IsGap.eq_keyword_or_static {isImport : Bool} {path a b : Text}
    (wording : IsWording isImport path (a ++ d :: (gap ++ c :: b))) :
    a ++ [d] = keyword isImport ∨ "static".toList <:+ a ++ [d] := by
  rcases wording with ⟨g, g', whole, -, blank, blank', lead, name, steps, rfl, isLead, isName, each⟩
  have words : Visible (keyword isImport) := fun e member => Character.not_isBlank_of_isNamePart
    (Character.isNamePart_of_isWord ((keyword_words isImport).2 e member))
  rcases h.exists_behind_visible words whole.symm with ⟨same, -⟩ | ⟨x, rfl, rest⟩
  · exact Or.inl same
  · rcases Text.exists_behind (h.not_blank_front blank) rest with ⟨y, rfl, rest'⟩
    rcases isLead with rfl | ⟨between, rfl, -, blanks⟩
    · exact (h.false_of_name isName each blank' (by simpa using rest')).elim
    · have cut : "static".toList ++ (between ++ (name ++ (List.flatten steps ++ (g' ++ [';'])))) =
          y ++ d :: (gap ++ c :: b) := by simpa using rest'
      rcases h.exists_behind_visible (by decide) cut with ⟨same, -⟩ | ⟨z, rfl, rest₁⟩
      · exact Or.inr ⟨keyword isImport ++ g, by simp [← same]⟩
      · rcases Text.exists_behind (h.not_blank_front blanks) rest₁ with ⟨u, -, last⟩
        exact (h.false_of_name isName each blank' last).elim

end Gaps

theorem IsWording.exists_gap {isImport : Bool} {path s : Text} (h : IsWording isImport path s) :
    ∃ a d gap c b, s = a ++ d :: (gap ++ c :: b) ∧ a ++ [d] = keyword isImport ∧ IsGap d gap c := by
  rcases h with ⟨gap, gap', rfl, some, blank, -, lead, name, steps, rfl, isLead, isName, -⟩
  have first : ∃ c b, lead ++ (name ++ List.flatten steps) = c :: b ∧ isNamePart c = true := by
    rcases isLead with rfl | ⟨between, rfl, -⟩
    · rcases List.exists_cons_of_ne_nil isName.1 with ⟨c, w, rfl⟩
      exact ⟨c, w ++ List.flatten steps, rfl, isName.2 c List.mem_cons_self⟩
    · exact ⟨'s', _, rfl, by decide⟩
  rcases first with ⟨c, b, front, named⟩
  rcases List.eq_nil_or_concat (keyword isImport) with none | ⟨a, d, concat⟩
  · exact absurd none (keyword_words isImport).1
  · have last : isNamePart d = true := Character.isNamePart_of_isWord
      ((keyword_words isImport).2 d (by rw [concat]; simp))
    refine ⟨a, d, gap, c, b ++ (gap' ++ [';']), ?_, by simpa using concat.symm, some, blank,
      last, named⟩
    rw [concat, front]
    simp

/-- No wording begins behind the front of another one and in front of its end. -/
theorem IsWording.eq_nil_of_inside {isImport isImport' : Bool} {path path' s s' x r r' : Text}
    (outer : IsWording isImport path s) (inner : IsWording isImport' path' s')
    (whole : s ++ r = x ++ (s' ++ r')) (inside : x.length < s.length) : x = [] := by
  rcases outer.exists_parts with ⟨c, u, shape, -, parts⟩
  rcases inner.exists_parts with ⟨c', u', shape', -, innerParts⟩
  have noEnd : ';' ∉ c :: u := fun member => absurd (parts ';' member) (by decide)
  have noEnd' : ';' ∉ c' :: u' := fun member => absurd (innerParts ';' member) (by decide)
  -- both end with the first semicolon
  have same : s = x ++ s' := by
    have cut : (c :: u) ++ ';' :: r = (x ++ (c' :: u')) ++ ';' :: r' := by
      rw [shape, shape'] at whole
      simpa using whole
    rcases List.append_eq_append_iff.mp whole with ⟨v, front, -⟩ | ⟨v, front, -⟩
    · rw [front, List.length_append] at inside
      omega
    · have inFront : ';' ∉ x ++ (c' :: u') := by
        have part : x <+: c :: u := by
          have begins : x <+: (c :: u) ++ [';'] := ⟨v, by rw [← front, shape]; rfl⟩
          refine List.prefix_of_prefix_length_le begins (List.prefix_append _ _) ?_
          rw [shape] at inside
          simp only [List.length_append, List.length_cons, List.length_nil] at inside ⊢
          omega
        intro member
        rcases List.mem_append.mp member with here | there
        · exact noEnd (part.subset here)
        · exact noEnd' there
      rcases Text.exists_cut inFront cut with ⟨all, -⟩ | ⟨a', longer, -⟩
      · rw [shape, shape', ← List.cons_append, all]
        simp
      · exact absurd (by rw [longer]; simp) noEnd
  rcases inner.exists_gap with ⟨a, d, gap, e, b, rfl, isKeyword, isGap⟩
  have last : x ++ a ++ [d] = x ++ keyword isImport' := by rw [List.append_assoc, isKeyword]
  rw [same, ← List.append_assoc] at outer
  rcases isGap.eq_keyword_or_static outer with alone | static
  · rw [last] at alone
    have suffix : keyword isImport' <:+ keyword isImport := ⟨x, alone⟩
    have equal := (by decide : ∀ i i', keyword i' <:+ keyword i → i' = i) isImport isImport' suffix
    rw [equal] at alone
    simpa using alone
  · rw [last] at static
    have within : "static".toList <:+ keyword isImport' :=
      List.suffix_of_suffix_length_le static (List.suffix_append _ _)
        (by cases isImport' <;> decide)
    exact absurd within (by cases isImport' <;> decide)

/-! ## Other blanks -/

/-- Steps of a path in other blanks. -/
theorem exists_steps_of_respaced {steps : List Text} (each : ∀ s ∈ steps, IsStep s) {gap : Text}
    (blank : Blank gap) {r t : Text} (h : Respaced (List.flatten steps ++ (gap ++ ';' :: r)) t) :
    ∃ steps' gap' r', t = List.flatten steps' ++ (gap' ++ ';' :: r') ∧ (∀ s ∈ steps', IsStep s) ∧
      Blank gap' ∧ unspaced (List.flatten steps') = unspaced (List.flatten steps) ∧
      Respaced r r' := by
  induction steps generalizing t with
  | nil =>
      rcases Respaced.exists_blank_append (s := [';']) (b := r) h blank (by decide) (by decide) with
        ⟨gap', r', rfl, blank', -, rest⟩
      exact ⟨[], gap', r', rfl, by simp, blank', rfl, rest⟩
  | cons s steps ih =>
      rcases each s List.mem_cons_self with ⟨g, g', w, rfl, blankFront, blankBack, last⟩
      have seen : Visible w ∧ w ≠ [] := by
        rcases last with isName | rfl
        · exact ⟨visible_of_isName isName, isName.1⟩
        · decide
      have whole :
          Respaced (g ++ (['.'] ++ (g' ++ (w ++ (List.flatten steps ++ (gap ++ ';' :: r))))))
            t := by
        simpa using h
      rcases whole.exists_blank_append blankFront (by decide) (by decide) with
        ⟨k, u, rfl, isBlankK, -, rest⟩
      rcases rest.exists_blank_append blankBack seen.1 seen.2 with ⟨k', v, rfl, isBlankK', -, rest'⟩
      rcases ih (fun s member => each s (List.mem_cons_of_mem _ member)) rest' with
        ⟨steps', gap', r', rfl, each', blank', same, last'⟩
      refine ⟨(k ++ '.' :: (k' ++ w)) :: steps', gap', r', by simp, ?_, blank', ?_, last'⟩
      · exact List.forall_mem_cons.mpr ⟨⟨k, k', w, rfl, isBlankK, isBlankK', last⟩, each'⟩
      · have step : ∀ {a b : Text}, Blank a → Blank b →
            unspaced (a ++ '.' :: (b ++ w)) = '.' :: unspaced w := fun {a b} blankA blankB => by
          have parts : a ++ '.' :: (b ++ w) = a ++ (['.'] ++ (b ++ w)) := rfl
          rw [parts, Text.unspaced_append, Text.unspaced_append, Text.unspaced_append,
            Text.unspaced_of_blank blankA, Text.unspaced_of_blank blankB]
          rfl
        rw [List.flatten_cons, List.flatten_cons, Text.unspaced_append (k ++ '.' :: (k' ++ w)),
          Text.unspaced_append (g ++ '.' :: (g' ++ w)), same, step isBlankK isBlankK',
          step blankFront blankBack]

theorem behindEdge_reverse_iff (x : Text) :
    BehindEdge x.reverse ↔ x.getLast?.any isWord = false := by
  rw [BehindEdge, List.head?_reverse]
  cases x.getLast? <;> simp

/-- A wording in other blanks is one of the same statement. -/
theorem IsWording.exists_of_respaced {isImport : Bool} {path s : Text}
    (wording : IsWording isImport path s) {x r t : Text} (h : Respaced (x ++ (s ++ r)) t) :
    ∃ x' path' s' r', t = x' ++ (s' ++ r') ∧ IsWording isImport path' s' ∧
      canonicalText isImport path' = canonicalText isImport path ∧
      (BehindEdge x.reverse → BehindEdge x'.reverse) ∧ (x = [] → x' = []) ∧ Respaced r r' := by
  rcases wording with
    ⟨gap, gap', rfl, some, blank, blank', lead, name, steps, rfl, isLead, isName, each⟩
  rcases keyword_words isImport with ⟨nonempty, words⟩
  have seen : Visible (keyword isImport) := fun c member =>
    Character.not_isBlank_of_isNamePart (Character.isNamePart_of_isWord (words c member))
  rcases List.exists_cons_of_ne_nil nonempty with ⟨c, w, isKeyword⟩
  have seenName := visible_of_isName isName
  have cut : Respaced (x ++ c :: (w ++ (gap ++ (lead ++ (name ++
      (List.flatten steps ++ (gap' ++ ';' :: r))))))) t := by
    rw [isKeyword] at h
    simpa using h
  rw [isKeyword] at seen
  rcases cut.exists_cut (seen c List.mem_cons_self) with ⟨x', v, rfl, behind, empty, -, last⟩
  rcases behind.exists_append (fun d member => seen d (List.mem_cons_of_mem c member)) with
    ⟨u, rfl, rest⟩
  have edge : BehindEdge x.reverse → BehindEdge x'.reverse := by
    rw [behindEdge_reverse_iff, behindEdge_reverse_iff, last]
    exact id
  have front : ∀ u : Text, c :: (w ++ u) = keyword isImport ++ u := fun u => by rw [isKeyword]; rfl
  -- the word `static` in front of the path, or nothing
  have parts : ∃ k lead' v, u = k ++ (lead' ++ (name ++ v)) ∧ k ≠ [] ∧ Blank k ∧
      IsStaticLead lead' ∧
      (lead' = [] ↔ lead = []) ∧ Respaced (List.flatten steps ++ (gap' ++ ';' :: r)) v := by
    rcases isLead with rfl | ⟨between, rfl, some', blanks⟩
    · rw [List.nil_append] at rest
      rcases rest.exists_blank_append blank seenName isName.1 with
        ⟨k, v, rfl, isBlankK, none, inSteps⟩
      exact ⟨k, [], v, rfl, fun same => some (none.mpr same), isBlankK, Or.inl rfl,
        Iff.rfl, inSteps⟩
    · rw [List.append_assoc] at rest
      rcases rest.exists_blank_append blank (by decide) (by decide) with
        ⟨k, v, rfl, isBlankK, none, inName⟩
      rcases inName.exists_blank_append blanks seenName isName.1 with
        ⟨k', v, rfl, isBlankK', none', inSteps⟩
      refine ⟨k, "static".toList ++ k', v, by simp, fun same => some (none.mpr same), isBlankK,
        Or.inr ⟨k', rfl, fun same => some' (none'.mpr same), isBlankK'⟩, by simp, inSteps⟩
  rcases parts with ⟨k, lead', v, rfl, someK, isBlankK, isLead', same, inSteps⟩
  rcases exists_steps_of_respaced each blank' inSteps with
    ⟨steps', k', r', rfl, each', isBlankK', bare, atEnd⟩
  refine ⟨x', lead' ++ (name ++ List.flatten steps'), _, r', ?_,
    ⟨k, k', rfl, someK, isBlankK, isBlankK', lead', name, steps', rfl, isLead', isName, each'⟩, ?_,
    edge, empty.mp, atEnd⟩
  · rw [front]
    simp
  · have paths := canonicalPath_of_parts isLead isName each
    rw [canonicalText, canonicalText, canonicalPath_of_parts isLead' isName each', bare, paths]
    simp only [same]

theorem begins_of_respaced {c : Char} {behind behind' t t' : Text}
    (edge : BehindEdge behind → BehindEdge behind') (same : Respaced (c :: t) (c :: t'))
    (begins : Begins behind (c :: t)) : Begins behind' (c :: t') := by
  rcases begins with ⟨atEdge, isImport, path, s, r, whole, wording⟩
  rw [whole] at same
  rcases wording.exists_of_respaced (x := []) same with
    ⟨x', path', s', r', whole', wording', -, -, empty, -⟩
  rcases empty rfl with rfl
  exact ⟨edge atEdge, isImport, path', s', r', whole', wording'⟩

end HeaderStatement

namespace Matcher

variable {α : Type} {m : Matcher α} {value : α}

open HeaderStatement (IsWording)

/-- A reader of wordings finds each that stands in a text. -/
theorem mem_findAllFrom_of_isWording
    (takes : Gives m fun _ s => ∃ isImport path, IsWording isImport path s) {isImport : Bool}
    {path s : Text} (wording : IsWording isImport path s) {x behind r : Text}
    (reads : Reads m ⟨x.reverse ++ behind, s ++ r⟩ value ⟨s.reverse ++ (x.reverse ++ behind), r⟩) :
    value ∈ findAllFrom m behind 0 (x ++ (s ++ r)) := by
  induction size : x.length using Nat.strongRecOn generalizing x behind with
  | ind n ih =>
      cases x with
      | nil =>
          rcases wording.exists_parts with ⟨c, u, shape, -, -⟩
          have nonempty : s ≠ [] := by simp [shape]
          have here : Reads m ⟨behind, s ++ r⟩ value ⟨s.reverse ++ behind, r⟩ := reads
          rw [List.nil_append, findAllFrom_of_reads nonempty here]
          exact List.mem_cons_self
      | cons c x =>
          cases readings : m ⟨behind, c :: x ++ (s ++ r)⟩ with
          | nil =>
              have step : findAllFrom m behind 0 (c :: x ++ (s ++ r)) =
                  findAllFrom m (c :: behind) 0 (x ++ (s ++ r)) := by
                rw [List.cons_append] at readings ⊢
                simp only [findAllFrom, readings]
              rw [step]
              exact ih x.length (by simp [← size]) (by simpa using reads) rfl
          | cons reading rest =>
              rcases takes _ reading (by rw [readings]; exact List.mem_cons_self) with
                ⟨s', ⟨isImport', path', wording'⟩, whole, back⟩
              have long : s'.length ≤ (c :: x).length := by
                apply Nat.le_of_not_lt
                intro inside
                exact absurd (wording'.eq_nil_of_inside wording whole.symm inside) (by simp)
              have front : s' <+: c :: x :=
                List.prefix_of_prefix_length_le ⟨_, whole.symm⟩ (List.prefix_append _ _) long
              rcases front with ⟨v, shape⟩
              rcases wording'.exists_parts with ⟨d, u, shape', -, -⟩
              have nonempty : s' ≠ [] := by simp [shape']
              have cut : c :: x ++ (s ++ r) = s' ++ (v ++ (s ++ r)) := by
                rw [← shape, List.append_assoc]
              have ahead : reading.2.ahead = v ++ (s ++ r) :=
                List.append_cancel_left (whole.symm.trans cut)
              have later : reading.2 = ⟨s'.reverse ++ behind, v ++ (s ++ r)⟩ := by
                rw [← ahead, ← back]
              rw [cut] at readings
              have first : Reads m ⟨behind, s' ++ (v ++ (s ++ r))⟩ reading.1
                  ⟨s'.reverse ++ behind, v ++ (s ++ r)⟩ := by
                rw [← later]
                exact Reads.of_eq_cons readings
              rw [cut, findAllFrom_of_reads nonempty first]
              have shorter : v.length < n := by
                have positive := List.length_pos_iff.mpr nonempty
                rw [← size, ← shape, List.length_append]
                omega
              refine List.mem_cons_of_mem _ (ih v.length shorter ?_ rfl)
              rw [← shape] at reads
              simpa using reads

end Matcher

namespace Header

open HeaderStatement (BehindEdge Begins IsWording canonicalText)
open Matcher (headerStatement)

/-- A wording that stands behind a word edge is an entry. -/
theorem mem_entries_of_isWording {isImport : Bool} {path s : Text}
    (wording : IsWording isImport path s) {x : Text} (edge : BehindEdge x.reverse) (r : Text) :
    (isImport, canonicalText isImport path) ∈ entries (x ++ (s ++ r)) := by
  have edge' : BehindEdge (x.reverse ++ []) := by rwa [List.append_nil]
  rcases HeaderStatement.reads_of_isWording wording edge' r with ⟨found, reads, text⟩
  have member :=
    Matcher.mem_findAllFrom_of_isWording HeaderStatement.gives_headerStatement wording reads
  exact List.mem_map.mpr ⟨_, member, by rw [text]⟩

/-- Every entry is one of a wording that stands behind a word edge. -/
theorem exists_of_mem_entries {entry : Bool × Text} {t : Text} (member : entry ∈ entries t) :
    ∃ x path s r, t = x ++ (s ++ r) ∧ IsWording entry.1 path s ∧ BehindEdge x.reverse ∧
      entry.2 = canonicalText entry.1 path := by
  rcases List.mem_map.mp member with ⟨found, isFound, rfl⟩
  rcases Matcher.exists_of_mem_findAllFrom isFound with ⟨x, y, later, rfl, reading⟩
  rcases HeaderStatement.exists_isWording reading with ⟨atEdge, s, wording, ahead, -⟩
  have ahead : y = s ++ later.ahead := ahead
  rcases wording.exists_parts with ⟨c, u, shape, word, -⟩
  refine ⟨x, found.2.text, s, later.ahead, by rw [ahead], wording, fun d last => ?_, rfl⟩
  rw [ahead, shape] at atEdge
  exact HeaderStatement.not_behindEdge_of_word word atEdge (by simpa using last)

theorem mem_entries_append {entry : Bool × Text} {t : Text} (member : entry ∈ entries t) {u : Text}
    (last : u.getLast?.any isWord = false) : entry ∈ entries (u ++ t) := by
  rcases exists_of_mem_entries member with ⟨x, path, s, r, rfl, wording, edge, text⟩
  have edge' : BehindEdge (u ++ x).reverse := by
    rw [HeaderStatement.behindEdge_reverse_iff] at edge ⊢
    exact Text.not_word_last_append last edge
  have found := mem_entries_of_isWording wording edge' r
  rw [List.append_assoc, ← text] at found
  exact found

theorem entriesFrom_of_respaced {t t' : Text} (h : Respaced t t') {behind behind' : Text}
    (edge : BehindEdge behind ↔ BehindEdge behind') :
    entriesFrom behind t = entriesFrom behind' t' := by
  induction size : t.length using Nat.strongRecOn generalizing t t' behind behind' with
  | ind n ih =>
      cases h with
      | ends blank blank' =>
          have none : ∀ {gap : Text}, Blank gap → ';' ∉ gap := fun blank member =>
            absurd (blank ';' member) (by decide)
          rw [entriesFrom_eq_nil (none blank), entriesFrom_eq_nil (none blank')]
      | @visible gap gap' t t' c blank blank' empty shown rest =>
          have here : Respaced (c :: t) (c :: t') :=
            .visible Text.blank_nil Text.blank_nil Iff.rfl shown rest
          have edge' : BehindEdge (gap.reverse ++ behind) ↔
              BehindEdge (gap'.reverse ++ behind') := by
            by_cases none : gap = []
            · rw [none, empty.mp none]
              exact edge
            · exact iff_of_true (HeaderStatement.behindEdge_gap blank none _)
                (HeaderStatement.behindEdge_gap blank' (fun none' => none (empty.mpr none')) _)
          have shorter : (c :: t).length ≤ n := by
            rw [← size, List.length_append]
            exact Nat.le_add_left _ _
          rw [entriesFrom_gap blank, entriesFrom_gap blank']
          generalize gap.reverse ++ behind = front at edge'
          generalize gap'.reverse ++ behind' = front' at edge'
          by_cases begins : Begins front (c :: t)
          · rcases begins with ⟨atEdge, isImport, path, s, r, whole, wording⟩
            rw [whole] at here shorter ⊢
            rcases wording.exists_of_respaced (x := []) here with
              ⟨x', path', s', r', whole', wording', text, -, none, behindEnd⟩
            rcases none rfl with rfl
            have positive : 0 < s.length := by
              rcases wording.exists_parts with ⟨d, u, rfl, -, -⟩
              exact Nat.succ_pos _
            rw [List.length_append] at shorter
            rw [whole', List.nil_append, entriesFrom_of_isWording wording atEdge,
              entriesFrom_of_isWording wording' (edge'.mp atEdge), text,
              ih r.length (by omega) behindEnd
                (iff_of_true (wording.behindEdge _) (wording'.behindEdge _)) rfl]
          · have begins' : ¬ Begins front' (c :: t') := fun there =>
              begins (HeaderStatement.begins_of_respaced edge'.mpr here.symm there)
            rw [entriesFrom_cons begins, entriesFrom_cons begins']
            exact ih t.length shorter rest (by simp [BehindEdge]) rfl

/-- A text has the same entries in other blanks. -/
theorem entries_of_respaced {t t' : Text} (h : Respaced t t') : entries t = entries t' :=
  entriesFrom_of_respaced h Iff.rfl

/-- The entries of a text are entries of it in other blanks. -/
theorem mem_entries_of_respaced {entry : Bool × Text} {t t' : Text} (h : Respaced t t')
    (member : entry ∈ entries t) : entry ∈ entries t' :=
  entries_of_respaced h ▸ member

/-- A wording behind a word edge cuts the entries: no entry reaches over its front. -/
theorem entriesFrom_append_of_isWording {isImport : Bool} {path s : Text}
    (wording : IsWording isImport path s) {behind x : Text}
    (edge : BehindEdge (x.reverse ++ behind)) (r : Text) :
    entriesFrom behind (x ++ (s ++ r)) =
      entriesFrom behind x ++ (isImport, canonicalText isImport path) :: entries r := by
  induction size : x.length using Nat.strongRecOn generalizing x behind with
  | ind n ih =>
      cases x with
      | nil =>
          have atEdge : BehindEdge behind := edge
          rw [List.nil_append, entriesFrom_of_isWording wording atEdge,
            entriesFrom_congr (iff_of_true (wording.behindEdge _) HeaderStatement.behindEdge_nil)]
          rfl
      | cons c x =>
          by_cases begins : Begins behind (c :: x ++ (s ++ r))
          · rcases begins with ⟨atEdge, isImport', path', s', r', whole, wording'⟩
            have long : s'.length ≤ (c :: x).length := by
              apply Nat.le_of_not_lt
              intro inside
              exact absurd (wording'.eq_nil_of_inside wording whole.symm inside) (by simp)
            rcases List.prefix_of_prefix_length_le ⟨_, whole.symm⟩
              (List.prefix_append _ _) long with
              ⟨v, shape⟩
            rw [← shape] at size edge ⊢
            have shorter : v.length < n := by
              rcases wording'.exists_parts with ⟨d, u, rfl, -, -⟩
              rw [← size]
              simp only [List.length_append, List.length_cons]
              omega
            rw [List.append_assoc, entriesFrom_of_isWording wording' atEdge,
              entriesFrom_of_isWording wording' atEdge,
              ih v.length shorter (by simpa using edge) rfl, List.cons_append]
          · have begins' : ¬ Begins behind (c :: x) := by
              rintro ⟨atEdge, isImport', path', s', r', whole, wording'⟩
              exact begins ⟨atEdge, isImport', path', s',
                r' ++ (s ++ r), by rw [whole, List.append_assoc], wording'⟩
            rw [List.cons_append] at begins ⊢
            rw [entriesFrom_cons begins, entriesFrom_cons begins']
            exact ih x.length (by simp [← size]) (by simpa using edge) rfl

/-- A text that opens with a wording, blanks aside, adds its entries to those of the text in
front of it. -/
theorem entries_append_of_opening {isImport : Bool} {path s gap x : Text}
    (wording : IsWording isImport path s) (blank : Blank gap) (last : x.getLast?.any isWord = false)
    (r : Text) :
    entries (x ++ (gap ++ (s ++ r))) = entries x ++ entries (gap ++ (s ++ r)) := by
  have edge : BehindEdge ((x ++ gap).reverse ++ []) := by
    rw [List.append_nil, HeaderStatement.behindEdge_reverse_iff]
    exact Text.not_word_last_append last (Text.not_word_last_of_blank blank)
  have front : entries (x ++ gap) = entries x := by
    have same := Respaced.append_left (.ends blank Text.blank_nil) x
    rw [entries_of_respaced same, List.append_nil]
  rw [entries_gap blank, entries_append_of_isWording wording, ← front, ← List.append_assoc x gap]
  exact entriesFrom_append_of_isWording wording edge r

end Header
end Testwright
