import Testwright.Header.Removal
import Testwright.Proofs.Header.ImportReading
import Testwright.Proofs.Header.Presence

namespace Testwright

/-!
# Texts that are all statements and other words

In a text with no word `package` or `import` outside of its statements, the statements
can be listed as they stand, one behind the other, with nothing between them that could
become the front of a statement (`Listing`).  This is what makes edits of such a text
harmless.  Its statements are found in their order (`Listing.map_findAllFrom`), a text
put behind it adds its own statements and changes none (`Listing.append`), and cutting it
at a statement cuts the list there (`Listing.exists_cut`).

All this is about texts with something in front of them, of which only the end of a word
matters.
-/

open Character (isBlank isWord)
open HeaderStatement (BehindEdge Begins IsWording header keyword ofSource)
open Matcher (Reads headerStatement)
open Text (Blank)
open Header (wording_unique)

namespace HeaderStatement

/-- The text begins with the word `package` or the word `import`. -/
def IsAtKeyword (behind t : Text) : Prop :=
  BehindEdge behind ∧ ∃ isImport y, t = keyword isImport ++ y ∧ y.head?.any isWord = false

/-- The statements of a text that has no keyword outside of them. -/
inductive Listing : Text → Text → List Text → Prop
  | nil (behind : Text) : Listing behind [] []
  | statement {behind path s t : Text} {isImport : Bool} {statements : List Text}
      (wording : IsWording isImport path s) (edge : BehindEdge behind)
      (rest : Listing (s.reverse ++ behind) t statements) :
        Listing behind (s ++ t) (s :: statements)
  | skip {behind t : Text} {c : Char} {statements : List Text}
      (other : ¬ IsAtKeyword behind (c :: t))
      (rest : Listing (c :: behind) t statements) : Listing behind (c :: t) statements

/-! ## Keywords -/

theorem IsWording.isAtKeyword {isImport : Bool} {path s : Text}
    (wording : IsWording isImport path s) {behind : Text} (edge : BehindEdge behind) (t : Text) :
    IsAtKeyword behind (s ++ t) := by
  rcases wording with ⟨gap, gap', rfl, some, blank, -⟩
  rcases List.exists_cons_of_ne_nil some with ⟨c, gap, rfl⟩
  refine ⟨edge, isImport, c :: gap ++ (path ++ (gap' ++ [';'])) ++ t, by simp, ?_⟩
  simpa using Character.not_isWord_of_isBlank (blank c List.mem_cons_self)

theorem IsWording.ne_nil {isImport : Bool} {path s : Text} (wording : IsWording isImport path s) :
    s ≠ [] := by
  rcases wording.exists_parts with ⟨c, u, rfl, -, -⟩
  simp

theorem not_begins_of_not_isAtKeyword {behind t : Text} (other : ¬ IsAtKeyword behind t) :
    ¬ Begins behind t := by
  rintro ⟨edge, isImport, path, s, r, rfl, wording⟩
  exact other (wording.isAtKeyword edge r)

theorem behindEdge_append_iff {x behind : Text} (some : x ≠ []) :
    BehindEdge (x.reverse ++ behind) ↔ x.getLast?.any isWord = false := by
  rw [← behindEdge_reverse_iff, BehindEdge, BehindEdge,
    List.head?_append_of_ne_nil _ (fun none => some (List.reverse_eq_nil_iff.mp none))]

/-- Where no word ends a text, what follows has no part in a keyword at its front. -/
theorem isAtKeyword_append_iff {behind x : Text} (some : x ≠ [])
    (edge : x.getLast?.any isWord = false) (t : Text) :
    IsAtKeyword behind (x ++ t) ↔ IsAtKeyword behind x := by
  have inWord : ∀ {isImport : Bool} {a b : Text},
      keyword isImport = a ++ b → a.getLast?.any isWord = false →
      a = [] := by
    intro isImport a b cut last
    rcases List.eq_nil_or_concat a with none | ⟨front, c, rfl⟩
    · exact none
    · have word := (keyword_words isImport).2 c (by rw [cut]; simp)
      simp [word] at last
  refine and_congr_right fun _ => exists_congr fun isImport => ⟨?_, ?_⟩
  · rintro ⟨y, whole, other⟩
    rcases List.append_eq_append_iff.mp whole with ⟨u, longer, rest⟩ | ⟨u, front, rest⟩
    · exact absurd (inWord longer edge) some
    · cases u with
      | nil =>
          rw [List.append_nil] at front
          exact absurd (inWord (b := []) (by simpa using front.symm) edge) some
      | cons c u => exact ⟨c :: u, front, by simpa [rest] using other⟩
  · rintro ⟨y, rfl, other⟩
    refine ⟨y ++ t, by simp, ?_⟩
    cases y with
    | nil =>
        rw [List.append_nil] at edge some
        exact absurd (inWord (b := []) (List.append_nil _).symm edge) some
    | cons c y => exact other

/-! ## Listings -/

section Listings

variable {behind behind' x t : Text} {statements : List Text}

/-- In front of a text, only the end of a word matters. -/
theorem Listing.congr (listing : Listing behind t statements)
    (same : BehindEdge behind ↔ BehindEdge behind') :
    Listing behind' t statements := by
  induction listing generalizing behind' with
  | nil behind => exact .nil behind'
  | statement wording edge _ ih =>
      exact .statement wording (same.mp edge)
        (ih (iff_of_true (wording.behindEdge _) (wording.behindEdge _)))
  | skip other _ ih =>
      exact .skip (fun atKeyword => other ⟨same.mpr atKeyword.1, atKeyword.2⟩)
        (ih (by simp [BehindEdge]))

/-- The statements are what the reader of headers finds. -/
theorem Listing.map_findAllFrom (listing : Listing behind t statements) :
    (Matcher.findAllFrom headerStatement.stretchOf behind 0 t).map (fun found => found.1.text) =
      statements := by
  induction listing with
  | nil behind => rfl
  | @statement behind path s t isImport statements wording edge _ ih =>
      rcases reads_of_isWording wording edge t with ⟨found, reads, -⟩
      rw [Matcher.findAllFrom_of_reads wording.ne_nil reads.stretchOf, List.map_cons, ih,
        Matcher.text_mk]
  | @skip behind t c statements other _ ih =>
      have none : headerStatement ⟨behind, c :: t⟩ = [] := Classical.byContradiction fun some =>
        not_begins_of_not_isAtKeyword other ((headerStatement_ne_nil_iff _ _).mp some)
      simp only [Matcher.findAllFrom, Matcher.stretchOf_of_nil none]
      exact ih

theorem Listing.eq_nil (listing : Listing behind [] statements) : statements = [] :=
  listing.map_findAllFrom.symm

/-- A text behind a listed one adds its statements. -/
theorem Listing.append (listing : Listing behind x statements)
    (edge : BehindEdge (x.reverse ++ behind)) {later : List Text} (rest : Listing [] t later) :
    Listing behind (x ++ t) (statements ++ later) := by
  induction listing with
  | nil behind => exact rest.congr (iff_of_true behindEdge_nil edge)
  | statement wording front _ ih =>
      rw [List.append_assoc, List.cons_append]
      exact .statement wording front (ih (by simpa using edge))
  | @skip behind x c statements other _ ih =>
      have last : (c :: x).getLast?.any isWord = false :=
        (behindEdge_append_iff (List.cons_ne_nil c x)).mp edge
      exact .skip (fun atKeyword =>
        other ((isAtKeyword_append_iff (List.cons_ne_nil c x) last t).mp atKeyword))
        (ih (by simpa using edge))

/-- A text that begins in no word is listed as what follows its first character. -/
theorem Listing.of_cons {c : Char} (listing : Listing behind (c :: t) statements)
    (other : isWord c = false) :
    Listing (c :: behind) t statements := by
  generalize whole : c :: t = u at listing
  cases listing with
  | nil => cases whole
  | statement wording =>
      rcases wording.exists_parts with ⟨d, v, rfl, word, -⟩
      rw [(List.cons.inj whole).1, word] at other
      cases other
  | skip _ rest =>
      rcases List.cons.inj whole with ⟨rfl, rfl⟩
      exact rest

/-- Blanks in front of a text are passed over. -/
theorem Listing.of_gap {gap : Text} (blank : Blank gap) (edge : BehindEdge behind)
    (listing : Listing behind (gap ++ t) statements) : Listing [] t statements := by
  induction gap generalizing behind with
  | nil => exact listing.congr (iff_of_true edge behindEdge_nil)
  | cons c gap ih =>
      have other := Character.not_isWord_of_isBlank (blank c List.mem_cons_self)
      exact ih (fun d member => blank d (List.mem_cons_of_mem c member))
        (behindEdge_cons other behind)
        (listing.of_cons other)

/-- A statement that ends no later than the blanks behind a text ends in that text: it ends
with a semicolon. -/
theorem IsWording.exists_of_append_blank {isImport : Bool} {path s gap u : Text}
    (wording : IsWording isImport path s) (blank : Blank gap) (whole : s ++ t = x ++ (gap ++ u))
    (short : s.length ≤ (x ++ gap).length) :
    ∃ x', x = s ++ x' ∧ t = x' ++ (gap ++ u) := by
  rcases List.append_eq_append_iff.mp whole with ⟨a, rfl, rest⟩ | ⟨a, longer, rest⟩
  · exact ⟨a, rfl, rest⟩
  · rcases List.eq_nil_or_concat a with rfl | ⟨v, c, rfl⟩
    · exact ⟨[], by simpa using longer.symm, by simpa using rest.symm⟩
    · rw [longer, List.length_append, List.length_append] at short
      have inGap : v.concat c <+: gap :=
        List.prefix_of_prefix_length_le ⟨t, rest.symm⟩ (List.prefix_append gap u) (by omega)
      rcases wording.exists_parts with ⟨d, v', rfl, -, -⟩
      have ends : (x ++ v) ++ [c] = (d :: v') ++ [';'] := by simpa using longer.symm
      rcases List.cons.inj (List.append_inj' ends rfl).2 with ⟨rfl, -⟩
      exact absurd (blank ';' (inGap.subset (by simp))) (by decide)

/-- At a statement, blanks in front of it aside, a listed text is cut into listed texts. -/
theorem Listing.exists_cut {isImport : Bool} {path s gap r : Text}
    (wording : IsWording isImport path s) (blank : Blank gap)
    (edge : BehindEdge (x.reverse ++ behind))
    (listing : Listing behind (x ++ (gap ++ (s ++ r))) statements) :
    ∃ front back, statements = front ++ s :: back ∧ Listing behind x front ∧ Listing [] r back := by
  generalize whole : x ++ (gap ++ (s ++ r)) = u at listing
  induction listing generalizing x gap with
  | nil behind =>
      have none : s = [] := by
        simp only [List.append_eq_nil_iff] at whole
        exact whole.2.2.1
      exact absurd none wording.ne_nil
  | @statement behind path' s' t isImport' statements wording' front rest ih =>
      by_cases here : x ++ gap = []
      · -- both statements stand at the front
        rcases List.append_eq_nil_iff.mp here with ⟨rfl, rfl⟩
        obtain ⟨-, -, rfl⟩ := wording_unique wording wording' whole
        have same : s ++ r = s ++ t := by simpa using whole
        obtain rfl : r = t := List.append_cancel_left same
        exact ⟨[], statements, rfl, .nil behind,
          rest.congr (iff_of_true (wording.behindEdge _) behindEdge_nil)⟩
      · have apart : s'.length ≤ (x ++ gap).length := by
          refine Nat.le_of_not_lt fun inside => here ?_
          have cut : s' ++ t = x ++ gap ++ (s ++ r) := by simp [← whole]
          exact wording'.eq_nil_of_inside wording cut inside
        rcases wording'.exists_of_append_blank blank whole.symm apart with ⟨x', rfl, rfl⟩
        rcases ih blank (by simpa using edge) rfl with ⟨first, back, rfl, listed, later⟩
        exact ⟨s' :: first, back, rfl, .statement wording' front listed, later⟩
  | @skip behind t c statements other rest ih =>
      cases x with
      | cons d x =>
          rcases List.cons.inj whole with ⟨rfl, rfl⟩
          rcases ih blank (by simpa using edge) rfl with ⟨first, back, rfl, listed, later⟩
          refine ⟨first, back, rfl, .skip (fun atKeyword => other ?_) listed, later⟩
          have last := (behindEdge_append_iff (List.cons_ne_nil d x)).mp edge
          exact (isAtKeyword_append_iff (List.cons_ne_nil d x) last _).mpr atKeyword
      | nil =>
          cases gap with
          | nil =>
              have atKeyword := wording.isAtKeyword edge r
              rw [show s ++ r = c :: t from whole] at atKeyword
              exact absurd atKeyword other
          | cons d gap =>
              rcases List.cons.inj whole with ⟨rfl, rfl⟩
              have inGap : Blank gap := fun e member => blank e (List.mem_cons_of_mem d member)
              have edge' : BehindEdge (([] : Text).reverse ++ d :: behind) :=
                behindEdge_cons (Character.not_isWord_of_isBlank (blank d List.mem_cons_self))
                  behind
              rcases ih (x := []) inGap edge' rfl with ⟨first, back, rfl, listed, later⟩
              exact ⟨[], back, by simp [listed.eq_nil], .nil behind, later⟩

end Listings

/-! ## Where the keywords stand -/

/-- Every keyword of the text stands in a statement that is behind a word edge. -/
def Covered (behind t : Text) : Prop :=
  ∀ x y, t = x ++ y → IsAtKeyword (x.reverse ++ behind) y →
    ∃ a s b path isImport, t = a ++ (s ++ b) ∧ IsWording isImport path s ∧
      BehindEdge (a.reverse ++ behind) ∧
      a.length ≤ x.length ∧ x.length < (a ++ s).length

theorem Covered.exists_listing {behind t : Text} (covered : Covered behind t) :
    ∃ statements, Listing behind t statements := by
  induction size : t.length using Nat.strongRecOn generalizing t behind with
  | ind n ih =>
      cases t with
      | nil => exact ⟨[], .nil behind⟩
      | cons c t =>
          by_cases begins : Begins behind (c :: t)
          · rcases begins with ⟨edge, isImport, path, s, r, whole, wording⟩
            rw [whole] at covered size ⊢
            have rest : Covered (s.reverse ++ behind) r := by
              rintro x y rfl atKeyword
              rcases covered (s ++ x) y (by simp) (by simpa using atKeyword) with
                ⟨a, s', b, path', isImport', cut, wording', edge', front, back⟩
              have apart : s.length ≤ a.length := by
                refine Nat.le_of_not_lt fun inside => ?_
                rcases wording.eq_nil_of_inside wording' cut inside with rfl
                obtain ⟨-, -, rfl⟩ := wording_unique wording wording' cut
                simp only [List.nil_append, List.length_append] at back
                omega
              rcases List.prefix_of_prefix_length_le ⟨_, rfl⟩
                (cut ▸ List.prefix_append a _) apart with
                ⟨a', rfl⟩
              rw [List.append_assoc] at cut
              refine ⟨a', s', b, path', isImport', List.append_cancel_left cut, wording',
                by simpa using edge', ?_, ?_⟩
              · simpa using front
              · simpa [Nat.add_assoc] using back
            have positive := List.length_pos_iff.mpr wording.ne_nil
            rw [List.length_append] at size
            rcases ih r.length (by omega) rest rfl with ⟨statements, listing⟩
            exact ⟨s :: statements, .statement wording edge listing⟩
          · have other : ¬ IsAtKeyword behind (c :: t) := by
              intro atKeyword
              rcases covered [] (c :: t) rfl atKeyword with
                ⟨a, s, b, path, isImport, whole, wording, edge, front, -⟩
              rcases List.eq_nil_of_length_eq_zero (Nat.le_zero.mp front) with rfl
              exact begins ⟨edge, isImport, path, s, b, whole, wording⟩
            have rest : Covered (c :: behind) t := by
              rintro x y rfl atKeyword
              rcases covered (c :: x) y rfl (by simpa using atKeyword) with
                ⟨a, s, b, path, isImport, cut, wording, edge, front, back⟩
              cases a with
              | nil => exact absurd ⟨edge, isImport, path, s, b, cut, wording⟩ begins
              | cons d a =>
                  rcases List.cons.inj cut with ⟨rfl, tail⟩
                  exact ⟨a, s, b, path, isImport, tail, wording, by simpa using edge,
                    by simpa using front, by simpa using back⟩
            rcases ih t.length (by simp [← size]) rest rfl with ⟨statements, listing⟩
            exact ⟨statements, .skip other listing⟩

/-- No word `package` or `import` of the header stands outside of its statements. -/
def KeywordsStand (source : Text) : Prop :=
  ∀ place < (header source).length, ∀ isImport : Bool,
    Matcher.wholeWord (keyword isImport) ⟨((header source).take place).reverse,
      (header source).drop place⟩ ≠ [] →
      ∃ statement ∈ ofSource source, statement.start ≤ place ∧ place < statement.stop

instance decidableKeywordsStand (source : Text) : Decidable (KeywordsStand source) :=
  inferInstanceAs (Decidable (∀ place < (header source).length, ∀ _ : Bool, _ ≠ [] → _))

/-- A keyword at a place is a whole word there. -/
theorem exists_wholeWord_of_isAtKeyword {behind t : Text} (h : IsAtKeyword behind t) :
    ∃ isImport, Matcher.wholeWord (keyword isImport) ⟨behind, t⟩ ≠ [] := by
  rcases h with ⟨edge, isImport, y, rfl, other⟩
  rcases keyword_words isImport with ⟨some, words⟩
  have closing : Place.atWordEdge ⟨(keyword isImport).reverse ++ behind, y⟩ = true := by
    rcases List.eq_nil_or_concat (keyword isImport) with none | ⟨front, last, ends⟩
    · exact absurd none some
    · rw [ends, List.concat_eq_append, List.reverse_append]
      exact (Place.atWordEdge_back_iff (words last (by simp [ends])) _ y).mpr other
  have reads : Reads (Matcher.wholeWord (keyword isImport)) ⟨behind, keyword isImport ++ y⟩ () _ :=
    (Lexeme.wordEdge_append some words edge).bind
      ((Reads.of_eq_cons (Matcher.word_append (keyword isImport) behind y)).bind
        (Reads.of_eq_cons (Matcher.require_of_true closing)))
  exact ⟨isImport, reads.ne_nil⟩

/-- Where every keyword stands in a statement of the source, the header can be listed. -/
theorem KeywordsStand.exists_listing {source : Text} (stand : KeywordsStand source) :
    ∃ statements, Listing [] (header source) statements := by
  apply Covered.exists_listing
  intro x y cut atKeyword
  rw [List.append_nil] at atKeyword
  rcases exists_wholeWord_of_isAtKeyword atKeyword with ⟨isImport, wholeWord⟩
  have inside : x.length < (header source).length := by
    rcases atKeyword with ⟨-, isImport', z, rfl, -⟩
    have positive := List.length_pos_iff.mpr (keyword_words isImport').1
    rw [cut, List.length_append, List.length_append]
    omega
  rcases stand x.length inside isImport (by simpa [cut] using wholeWord) with
    ⟨statement, member, front, back⟩
  rcases exists_standing_of_mem_ofSource member with
    ⟨a, s, b, path, whole, wording, edge, -, start, stop, noBrace⟩
  refine ⟨a, s, header b, path, statement.isImport, ?_, wording, by simpa using edge, start ▸ front,
    stop ▸ back⟩
  rw [whole, ← List.append_assoc, header_append noBrace, List.append_assoc]

/-! ## The statements of a source -/

/-- A statement of a source stands there as it was read. -/
theorem map_wording_ofSource (source : Text) :
    (ofSource source).map (fun statement => statement.wording source) =
      (Matcher.findAllFrom headerStatement.stretchOf [] 0 (header source)).map fun found =>
        found.1.text := by
  rcases exists_header source with ⟨rest, whole, -⟩
  rw [ofSource, List.map_map]
  refine List.map_congr_left fun found member => ?_
  rcases Matcher.exists_of_mem_findAllFrom member with ⟨x, y, later, cut, reading⟩
  rcases List.mem_map.mp reading with ⟨⟨value, last⟩, isReading, same⟩
  rcases Prod.mk.inj same with ⟨rfl, rfl⟩
  rcases exists_isWording isReading with ⟨-, s, -, ahead, behind⟩
  have ahead : y = s ++ last.ahead := ahead
  have behind : last.behind = s.reverse ++ (x.reverse ++ []) := behind
  have text : Stretch.text ⟨⟨x.reverse ++ [], y⟩, last⟩ = s := by
    rw [ahead]
    exact Matcher.text_mk _ last.behind s last.ahead
  have places : source = x ++ s ++ (last.ahead ++ rest) := by
    rw [whole, cut, ahead]
    simp
  have start : (x.reverse ++ ([] : Text)).length = x.length := by simp
  have stop : last.behind.length = (x ++ s).length := by
    rw [behind]
    simp [Nat.add_comm]
  simp only [Function.comp_apply, wording, text, start, stop]
  rw [places, List.take_left, List.drop_left]

/-- The listed statements of the header are those of the source, as they stand there. -/
theorem Listing.map_wording_ofSource {source : Text} {statements : List Text}
    (listing : Listing [] (header source) statements) :
    (ofSource source).map (fun statement => statement.wording source) = statements :=
  (HeaderStatement.map_wording_ofSource source).trans listing.map_findAllFrom

end HeaderStatement
end Testwright
