import Testwright.Proofs.Convention.ClassHeader
import Testwright.Proofs.Header.Lines
import Testwright.Proofs.Text.Standing

namespace Testwright

/-!
# The base class of the first class

Whether the first class of a source extends the base class depends on the clauses of
its header alone.  Import lines that are put into the source do not change it
(`extendsBaseClass_insertBlock`), wherever they go: in front of the header, between
the semicolon that leads it and the header, or into the header itself.
-/

open Character (isBlank isNamePart isWord)
open Header (isSpaceOrTab)
open Matcher (Reads Stops Takes classHeader extendsTestCase)
open Text (Blank StandsIn)

namespace Matcher

/-- The words of a clause that extends the base class. -/
def IsBaseClause (s : Text) : Prop :=
  ∃ gap qualifier, s = "extends".toList ++ (gap ++ (qualifier ++ "TestCase".toList)) ∧
    gap ≠ [] ∧ Blank gap ∧
    (qualifier = [] ∨ qualifier = "junit.framework.".toList)

/-- The reader of such a clause between its word edges. -/
def baseClause : Matcher Unit := do
  word "extends".toList
  run1 isBlank
  maybe (word "junit.framework.".toList)
  word "TestCase".toList

theorem extendsTestCase_eq : extendsTestCase = stretch (do
    run isBlank
    wordEdge
    baseClause
    wordEdge) := by
  simp only [extendsTestCase, baseClause, bind_assoc]

theorem takes_baseClause : Takes baseClause IsBaseClause := by
  have parts := (takes_word "extends".toList).bind fun _ => (takes_run1 isBlank).bind fun _ =>
    (takes_word "junit.framework.".toList).maybe.bind fun _ => takes_word "TestCase".toList
  apply parts.mono
  rintro s ⟨_, _, rfl, rfl, gap, _, rfl, ⟨some, blank⟩, qualifier, _, rfl, whether, rfl⟩
  exact ⟨gap, qualifier, rfl, some, blank, whether.symm⟩

theorem reads_baseClause {s : Text} (h : IsBaseClause s) (behind t : Text) :
    Reads baseClause ⟨behind, s ++ t⟩ () ⟨s.reverse ++ behind, t⟩ := by
  rcases h with ⟨gap, qualifier, rfl, some, blank, whether⟩
  have shown : Stops isBlank (qualifier ++ ("TestCase".toList ++ t)) := by
    rcases whether with rfl | rfl
    · exact (by decide : isBlank 'T' = false)
    · exact (by decide : isBlank 'j' = false)
  have qualified : ∀ behind, Reads (maybe (word "junit.framework.".toList))
      ⟨behind, qualifier ++ ("TestCase".toList ++ t)⟩ ()
        ⟨qualifier.reverse ++ behind, "TestCase".toList ++ t⟩ := by
    intro behind
    rcases whether with rfl | rfl
    · have other : ¬ "junit.framework.".toList <+: [] ++ ("TestCase".toList ++ t) := by
        rintro ⟨r, same⟩
        exact absurd (List.cons.inj same).1 (by decide)
      exact Reads.of_eq_cons (maybe_of_nil (word_eq_nil other))
    · exact Reads.maybe (Reads.of_eq_cons (word_append _ behind _))
  have final : ∀ behind,
      Reads (maybe (word "junit.framework.".toList) >>= fun _ => word "TestCase".toList)
      ⟨behind, qualifier ++ ("TestCase".toList ++ t)⟩ ()
      ⟨"TestCase".toList.reverse ++ (qualifier.reverse ++ behind), t⟩ := fun behind =>
    (qualified behind).bind (Reads.of_eq_cons (word_append _ _ t))
  have read : Reads baseClause
      ⟨behind, "extends".toList ++ (gap ++ (qualifier ++ ("TestCase".toList ++ t)))⟩ () _ :=
    (Reads.of_eq_cons (word_append "extends".toList behind _)).bind
      ((Reads.of_eq_cons (run1_append blank some shown _)).bind (final _))
  simpa using read

/-- A clause begins and ends within words. -/
theorem IsBaseClause.exists_ends {s : Text} (h : IsBaseClause s) :
    (∃ r, s = 'e' :: r) ∧ ∃ r, s = r ++ ['e'] := by
  rcases h with ⟨gap, qualifier, rfl, -⟩
  exact ⟨⟨_, rfl⟩, "extends".toList ++ (gap ++ (qualifier ++ "TestCas".toList)), by simp⟩

theorem occursIn_extendsTestCase_iff {t : Text} :
    extendsTestCase.occursIn t = true ↔ StandsIn IsBaseClause t := by
  rw [occursIn_iff, extendsTestCase_eq]
  constructor
  · rintro ⟨x, y, rfl, some⟩
    rcases List.exists_mem_of_ne_nil _ some with ⟨⟨found, later⟩, member⟩
    rcases mem_bind.mp (mem_stretch member) with ⟨_, place, inRun, inEdge⟩
    rcases takes_run isBlank _ _ inRun with ⟨gap, -, cut, behind⟩
    rcases mem_bind.mp inEdge with ⟨_, place', edge, inBoth⟩
    rcases mem_require edge with ⟨rfl, before⟩
    rcases mem_bind.mp inBoth with ⟨_, last, inClause, edge'⟩
    rcases takes_baseClause _ _ inClause with ⟨s, isClause, cut', behind'⟩
    rcases mem_require edge' with ⟨rfl, final⟩
    rcases place' with ⟨front, ahead⟩
    rcases later with ⟨front', ahead'⟩
    have frontEq : front = gap.reverse ++ x.reverse := behind
    have frontEq' : front' = s.reverse ++ front := behind'
    have aheadEq : ahead = s ++ ahead' := cut'
    rcases (show y = gap ++ ahead from cut) with rfl
    rcases isClause.exists_ends with ⟨⟨r, first⟩, r', ends⟩
    refine ⟨x ++ gap, s, ahead', by simp [aheadEq], isClause, ?_, ?_⟩
    · rw [frontEq, aheadEq, ← List.reverse_append, first] at before
      exact (Place.atWordEdge_front_iff (by decide) (x ++ gap) _).mp before
    · rw [frontEq', ends, List.reverse_append] at final
      exact (Place.atWordEdge_back_iff (by decide) _ ahead').mp final
  · rintro ⟨x, s, y, rfl, isClause, before, behind⟩
    refine ⟨x, s ++ y, rfl, ?_⟩
    rcases isClause.exists_ends with ⟨⟨r, first⟩, r', ends⟩
    have stops : Stops isBlank (s ++ y) := by
      rw [first]
      exact (by decide : isBlank 'e' = false)
    have opening : Place.atWordEdge ⟨x.reverse, s ++ y⟩ = true := by
      rw [first]
      exact (Place.atWordEdge_front_iff (by decide) x _).mpr before
    have closing : Place.atWordEdge ⟨s.reverse ++ x.reverse, y⟩ = true := by
      rw [ends, List.reverse_append]
      exact (Place.atWordEdge_back_iff (by decide) _ y).mpr behind
    have read : Reads (run isBlank >>= fun _ => wordEdge >>= fun _ =>
        baseClause >>= fun _ => wordEdge)
        ⟨x.reverse, s ++ y⟩ () _ :=
      (Reads.of_eq_cons (run_of_stops stops _)).bind
        ((Reads.of_eq_cons (require_of_true opening)).bind
        ((reads_baseClause isClause _ y).bind (Reads.of_eq_cons (require_of_true closing))))
    exact (Reads.stretch read).ne_nil

/-- The first clause that extends the base class, with the blanks in front of it, is a
stretch that ends within a word. -/
theorem exists_of_find?_extendsTestCase {t : Text} {clause : Stretch}
    (found : extendsTestCase.find? t = some clause) :
    ∃ taken, t = clause.before ++ (taken ++ ['e']) ++ clause.after := by
  rcases exists_of_findFrom found with ⟨x, y, later, rfl, -, reading⟩
  have member := List.mem_of_mem_head? reading
  rw [extendsTestCase_eq] at member
  rcases List.mem_map.mp member with ⟨⟨_, last⟩, inside, same⟩
  rcases Prod.mk.inj same with ⟨rfl, rfl⟩
  have parts := (takes_run isBlank).bind fun _ => (takes_require Place.atWordEdge).bind fun _ =>
    takes_baseClause.bind fun _ => takes_require Place.atWordEdge
  rcases parts _ _ inside with
    ⟨_, ⟨gap, _, rfl, -, _, _, rfl, rfl, s, _, rfl, isClause, rfl⟩, ahead, -⟩
  rcases isClause.exists_ends.2 with ⟨r, rfl⟩
  refine ⟨gap ++ r, ?_⟩
  change y = _ at ahead
  simp [Stretch.before, Stretch.after, ahead]

/-! ## Text that adds no base class -/

/-- In front of a text it adds no clause that extends the base class, and takes none
away. -/
def Mute (g : Text) : Prop :=
  ∀ t, StandsIn IsBaseClause (g ++ t) ↔ StandsIn IsBaseClause t

theorem IsBaseClause.lacks {c : Char} (other : isNamePart c = false) (visible : isBlank c = false)
    (noDot : c ≠ '.') : ∀ s, IsBaseClause s → s ≠ [] ∧ c ∉ s := by
  rintro s ⟨gap, qualifier, rfl, -, blank, whether⟩
  have other' : ∀ d, isNamePart d = true ∨ isBlank d = true ∨ d = '.' → d ≠ c := by
    rintro d (name | shown | rfl) rfl
    · rw [other] at name
      cases name
    · rw [visible] at shown
      cases shown
    · exact noDot rfl
  refine ⟨by simp, fun member => ?_⟩
  simp only [List.mem_append] at member
  rcases member with inFirst | inGap | inQualifier | inLast
  · exact other' c
      ((by decide : ∀ d ∈ "extends".toList, isNamePart d = true ∨ isBlank d = true ∨
        d = '.') c inFirst)
      rfl
  · exact other' c (Or.inr (Or.inl (blank c inGap))) rfl
  · rcases whether with rfl | rfl
    · cases inQualifier
    · exact other' c
        ((by decide : ∀ d ∈ "junit.framework.".toList,
          isNamePart d = true ∨ isBlank d = true ∨ d = '.')
        c inQualifier) rfl
  · exact other' c
      ((by decide : ∀ d ∈ "TestCase".toList, isNamePart d = true ∨ isBlank d = true ∨
        d = '.') c inLast)
      rfl

theorem mute_nil : Mute [] := fun _ => Iff.rfl

theorem Mute.append {g g' : Text} (first : Mute g) (second : Mute g') :
    Mute (g ++ g') := fun t => by
  rw [List.append_assoc, first, second]

theorem mute_of_blank {gap : Text} (blank : Blank gap) : Mute gap := by
  intro t
  constructor
  · rintro ⟨x, s, y, whole, isClause, before, behind⟩
    rcases isClause.exists_ends with ⟨⟨r, rfl⟩, -⟩
    have absent : 'e' ∉ gap := fun member => absurd (blank 'e' member) (by decide)
    rcases Text.exists_behind absent
      (show gap ++ t = x ++ 'e' :: (r ++ y) by simpa using whole) with
      ⟨x', rfl, rfl⟩
    refine ⟨x', 'e' :: r, y, by simp, isClause, ?_, behind⟩
    cases x' with
    | nil => rfl
    | cons c x' => rwa [List.getLast?_append_of_ne_nil _ (List.cons_ne_nil c x')] at before
  · rintro ⟨x, s, y, rfl, isClause, before, behind⟩
    refine ⟨gap ++ x, s, y, by simp, isClause, ?_, behind⟩
    cases x with
    | nil =>
        rw [List.append_nil]
        exact Text.not_word_last_of_blank blank
    | cons c x => rwa [List.getLast?_append_of_ne_nil _ (List.cons_ne_nil c x)]

/-- The blanks of an import line stand behind its keywords. -/
theorem eq_keyword_of_cut {form : ImportForm} (dotted : Header.isDottedPath form.path = true)
    {p v : Text} {c : Char} (blank : isBlank c = true)
    (cut : "import ".toList ++ form.declared = p ++ c :: v) :
    p = "import".toList ∨ p = "import static".toList := by
  have visible := ImportForm.visible_target dotted
  have behindWord : ∀ w : Text, Text.Visible w → ∀ {t p : Text}, w ++ ' ' :: t = p ++ c :: v →
      p = w ∨ ∃ p', p = w ++ ' ' :: p' ∧ t = p' ++ c :: v := by
    intro w shown t p same
    have absent : c ∉ w := fun member => absurd (blank.symm.trans (shown c member)) (by decide)
    rcases Text.exists_behind absent same with ⟨y, rfl, rest⟩
    cases y with
    | nil => exact Or.inl (List.append_nil w)
    | cons d y =>
        rcases List.cons.inj rest with ⟨rfl, tails⟩
        exact Or.inr ⟨y, rfl, tails⟩
  have inTarget : ∀ p', form.target ≠ p' ++ c :: v := fun p' same =>
    absurd (blank.symm.trans (visible c (by rw [same]; simp))) (by decide)
  have keyword : "import ".toList = "import".toList ++ [' '] := by decide
  rw [keyword, List.append_assoc] at cut
  rcases behindWord "import".toList (by decide) cut with rfl | ⟨p', rfl, rest⟩
  · exact Or.inl rfl
  · cases static : form.isStatic with
    | false =>
        have declared : form.declared = form.target := by
          rw [ImportForm.declared, static]
          rfl
        exact absurd (declared.symm.trans rest) (inTarget p')
    | true =>
        have declared : form.declared = "static".toList ++ ' ' :: form.target := by
          rw [ImportForm.declared, static]
          rfl
        rcases behindWord "static".toList (by decide) (declared.symm.trans rest) with
          rfl | ⟨p'', -, final⟩
        · right
          decide
        · exact absurd final (inTarget p'')

theorem mute_importLine {line : Text} (h : Header.IsImportLine line) : Mute line := by
  rcases h with ⟨form, dotted, rfl⟩
  have silent : ¬ StandsIn IsBaseClause ("import ".toList ++ form.declared) := by
    rintro ⟨x, s, y, whole, ⟨gap, qualifier, rfl, some, blank, -⟩, -, -⟩
    rcases List.exists_cons_of_ne_nil some with ⟨c, gap, rfl⟩
    have cut : "import ".toList ++ form.declared =
        (x ++ "extends".toList) ++ c :: (gap ++ (qualifier ++ "TestCase".toList) ++ y) := by
      rw [whole]
      simp
    have last : (x ++ "extends".toList).getLast? = Option.some 's' := by simp
    rcases eq_keyword_of_cut dotted (blank c List.mem_cons_self) cut with same | same
    · rw [same] at last
      exact absurd last (by decide)
    · rw [same] at last
      exact absurd last (by decide)
  intro t
  have parted : form.line ++ t = ("import ".toList ++ form.declared) ++ ';' :: t :=
    List.append_assoc ("import ".toList ++ form.declared) [';'] t
  rw [parted,
    Text.standsIn_append_cons_iff (IsBaseClause.lacks (by decide) (by decide) (by decide))
      (by decide)]
  exact or_iff_right silent

theorem mute_joinLines {separator : Text} (blank : Blank separator) {lines : List Text}
    (each : ∀ line ∈ lines, Header.IsImportLine line) :
    Mute (TestPlan.joinLines separator lines) := by
  induction lines with
  | nil => exact mute_nil
  | cons line lines ih =>
      have first := (mute_importLine (each line List.mem_cons_self)).append (mute_of_blank blank)
      exact first.append (ih fun other member => each other (List.mem_cons_of_mem line member))

/-- Behind a semicolon, parts without a closing bracket that are mute may be traded
for each other. -/
theorem AreClauses.exists_traded {angles clauses b g g' t : Text} (h : AreClauses angles clauses)
    (whole : angles ++ clauses = b ++ ';' :: (g ++ t)) (noBracket : '>' ∉ g) (noBracket' : '>' ∉ g')
    (mute : Mute g) (mute' : Mute g') :
    ∃ angles' clauses', angles' ++ clauses' = b ++ ';' :: (g' ++ t) ∧ AreClauses angles' clauses' ∧
      (StandsIn IsBaseClause clauses' ↔ StandsIn IsBaseClause clauses) := by
  have traded : ∀ u : Text, StandsIn IsBaseClause (u ++ ';' :: (g' ++ t)) ↔
      StandsIn IsBaseClause (u ++ ';' :: (g ++ t)) := fun u => by
    have lacks := IsBaseClause.lacks (by decide : isNamePart ';' = false) (by decide) (by decide)
    rw [Text.standsIn_append_cons_iff lacks (by decide),
      Text.standsIn_append_cons_iff lacks (by decide), mute t, mute' t]
  -- The bracket that opens type parameters stands in front of the semicolon.
  have opened : ∀ gap inner rest : Text, ∀ v : Text, Blank gap →
      gap ++ '<' :: (inner ++ '>' :: rest) = b ++ ';' :: (v ++ t) →
        ∃ b', b = gap ++ '<' :: b' ∧ inner ++ '>' :: rest = b' ++ ';' :: (v ++ t) := by
    intro gap inner rest v blank same
    have absent : ';' ∉ gap ++ ['<'] := by
      intro member
      rcases List.mem_append.mp member with inGap | final
      · exact absurd (blank _ inGap) (by decide)
      · exact absurd final (by decide)
    have same' : (gap ++ ['<']) ++ (inner ++ '>' :: rest) = b ++ ';' :: (v ++ t) := by
      rw [← same]
      simp
    rcases Text.exists_behind absent same' with ⟨b', rfl, tails⟩
    exact ⟨b', by simp, tails⟩
  rcases h with ⟨gap, inner, rfl, blank, first⟩ | ⟨rfl, none⟩
  · rcases opened gap inner clauses g blank (by rw [← whole]; simp) with ⟨b', rfl, tails⟩
    by_cases closed : '>' ∈ b'
    · rcases List.eq_append_cons_of_mem closed with ⟨i, u, rfl, absent⟩
      have closing : inner ++ '>' :: clauses = i ++ '>' :: (u ++ ';' :: (g ++ t)) := by
        simpa using tails
      rcases Text.exists_cut absent closing with ⟨rfl, rfl⟩ | ⟨i', rfl, -⟩
      · exact ⟨gap ++ '<' :: (inner ++ ['>']), u ++ ';' :: (g' ++ t), by simp,
          Or.inl ⟨gap, inner, rfl, blank, first⟩, traded u⟩
      · exact absurd (List.mem_append_right i List.mem_cons_self) first
    · have absent : '>' ∉ b' ++ ';' :: g := by simp [closed, noBracket]
      have closing : (b' ++ ';' :: g) ++ t = inner ++ '>' :: clauses := by simpa using tails.symm
      rcases Text.exists_behind absent closing with ⟨i, rfl, rfl⟩
      have others : '>' ∉ i := fun member => first (List.mem_append_right _ member)
      have absent' : '>' ∉ b' ++ ';' :: (g' ++ i) := by simp [closed, noBracket', others]
      exact ⟨gap ++ '<' :: ((b' ++ ';' :: (g' ++ i)) ++ ['>']), clauses, by simp,
        Or.inl ⟨gap, b' ++ ';' :: (g' ++ i), rfl, blank, absent'⟩, Iff.rfl⟩
  · refine ⟨[], b ++ ';' :: (g' ++ t), rfl, Or.inr ⟨rfl, ?_⟩, ?_⟩
    · intro gap inner rest blank same
      rcases opened gap inner rest g' blank same.symm with ⟨b', rfl, tails⟩
      have closes : '>' ∈ b' ++ ';' :: (g' ++ t) := by simp [← tails]
      have closes' : '>' ∈ b' ++ ';' :: (g ++ t) := by
        simp only [List.mem_append, List.mem_cons, noBracket', noBracket] at closes ⊢
        exact closes
      rcases List.append_of_mem closes' with ⟨inner', rest', parted⟩
      apply none gap inner' rest' blank
      rw [← parted]
      simpa using whole
    · rw [traded, ← whole]
      rfl

end Matcher

namespace ClassHeader

/-- Whether the first class header from a place on extends the base class. -/
def extendsFrom (behind t : Text) : Bool :=
  (classHeader.findFrom behind t).any fun header => extendsTestCase.occursIn header.clauses.text

theorem extendsBaseClass_eq (source : Text) :
    Convention.extendsBaseClass source = extendsFrom [] source := rfl

variable {parts : Parts} {behind : Text}

theorem extendsFrom_of_fits (fits : parts.Fits behind) (rest : Text) :
    extendsFrom behind (parts.text ++ '\x7b' :: rest) = extendsTestCase.occursIn parts.clauses := by
  rw [extendsFrom, Matcher.findFrom_of_reads (fits.reads rest)]
  simp

theorem extendsFrom_cons {c : Char} {t : Text} (none : ¬ Opens behind (c :: t)) :
    extendsFrom behind (c :: t) = extendsFrom (c :: behind) t := by
  have unread : classHeader ⟨behind, c :: t⟩ = [] :=
    Classical.byContradiction fun reads => none (ne_nil_iff.mp reads)
  rw [extendsFrom, Matcher.findFrom, unread]
  rfl

theorem extendsFrom_append {s t : Text} (silent : Matcher.Silent classHeader behind s t) :
    extendsFrom behind (s ++ t) = extendsFrom (s.reverse ++ behind) t := by
  rw [extendsFrom, Matcher.findFrom_append silent]
  rfl

theorem extendsFrom_nil (behind : Text) : extendsFrom behind [] = false := by
  have unread : classHeader ⟨behind, []⟩ = [] := by
    apply Classical.byContradiction
    intro reads
    rcases ne_nil_iff.mp reads with ⟨parts, rest, whole, -⟩
    simp at whole
  rw [extendsFrom, Matcher.findFrom, unread]
  rfl

/-- Of what stands in front of a place, only whether it ends a line matters. -/
theorem extendsFrom_congr {behind' : Text}
    (same : Matcher.BeginsLine behind ↔ Matcher.BeginsLine behind') (t : Text) :
    extendsFrom behind t = extendsFrom behind' t := by
  induction t generalizing behind behind' with
  | nil => rw [extendsFrom_nil, extendsFrom_nil]
  | cons c t ih =>
      by_cases opens : Opens behind (c :: t)
      · rcases opens with ⟨parts, rest, whole, fits⟩
        rw [whole, extendsFrom_of_fits fits, extendsFrom_of_fits (fits.congr same.mp)]
      · have opens' : ¬ Opens behind' (c :: t) := fun ⟨parts, rest, whole, fits⟩ =>
          opens ⟨parts, rest, whole, fits.congr same.mpr⟩
        rw [extendsFrom_cons opens, extendsFrom_cons opens']
        exact ih Iff.rfl

/-- A header behind a semicolon is a header at the start of a line. -/
theorem extendsFrom_semicolon {behind' : Text} (begins : Matcher.BeginsLine behind') (t : Text) :
    extendsFrom behind (';' :: t) = extendsFrom behind' t := by
  by_cases opens : Opens behind (';' :: t)
  · rcases opens with ⟨parts, rest, whole, fits⟩
    rcases exists_spaces_of_semicolon fits whole with ⟨spaces, lead, all⟩
    have fits' : ({ parts with lead := spaces } : Parts).Fits behind' :=
      { fits with lead := Or.inl ⟨begins, all⟩ }
    have tail : t = ({ parts with lead := spaces } : Parts).text ++ '\x7b' :: rest := by
      rw [Parts.text, lead] at whole
      exact (List.cons.inj whole).2
    rw [whole, extendsFrom_of_fits fits, tail, extendsFrom_of_fits fits']
  · rw [extendsFrom_cons opens]
    cases t with
    | nil => rw [extendsFrom_nil, extendsFrom_nil]
    | cons c t =>
        by_cases opens' : Opens behind' (c :: t)
        · rcases opens' with ⟨parts, rest, whole, fits⟩
          rcases fits.lead with ⟨-, all⟩ | marked
          · refine absurd ⟨{ parts with lead := ';' :: parts.lead }, rest,
              congrArg (';' :: ·) whole, ?_⟩ opens
            exact { fits with lead := Or.inr ⟨';', parts.lead, rfl, Or.inl rfl, all⟩ }
          · have fits' : parts.Fits (';' :: behind) := { fits with lead := Or.inr marked }
            rw [whole, extendsFrom_of_fits fits, extendsFrom_of_fits fits']
        · have unopened : ¬ Opens (';' :: behind) (c :: t) := by
            rintro ⟨parts, rest, whole, fits⟩
            exact opens' ⟨parts, rest, whole, fits.congr fun _ => begins⟩
          rw [extendsFrom_cons unopened, extendsFrom_cons opens']
          have same : Matcher.BeginsLine (c :: ';' :: behind) ↔ Matcher.BeginsLine (c :: behind') :=
            Iff.rfl
          exact extendsFrom_congr same t

/-- Whether the first class extends the base class is settled in front of its opening
brace. -/
theorem extendsBaseClass_congr {source : Text} {header : ClassHeader} {front rest : Text}
    (found : classHeader.find? source = some header)
    (behind : header.clauses.after = '\x7b' :: rest) (cut : source = front ++ '\x7b' :: rest)
    (rest' : Text) :
    Convention.extendsBaseClass (front ++ '\x7b' :: rest') =
      Convention.extendsBaseClass source := by
  rcases exists_of_find? found with ⟨x, parts, other, whole, silent, fits, rfl⟩
  rcases List.cons.inj behind with ⟨-, rfl⟩
  have same : front = x ++ parts.text := by
    rw [whole, ← List.append_assoc] at cut
    exact (List.append_cancel_right cut).symm
  have silent' : Matcher.Silent classHeader [] x (parts.text ++ '\x7b' :: rest') := by
    apply silent_of_not_opens
    intro u v parted some opens
    have opens' : Opens (u.reverse ++ []) (v ++ (parts.text ++ '\x7b' :: other)) := by
      rw [← List.append_assoc] at opens ⊢
      exact opens.congr other
    exact ne_nil_iff.mpr opens' (silent u v parted some)
  rw [same, whole, List.append_assoc, extendsBaseClass_eq, extendsBaseClass_eq,
    extendsFrom_append silent, extendsFrom_append silent',
    extendsFrom_of_fits (by simpa using fits), extendsFrom_of_fits (by simpa using fits)]

/-- A text that may be put into a header behind a semicolon. -/
structure IsInsert (g : Text) : Prop where
  mute : Matcher.Mute g
  noBracket : '>' ∉ g
  noBrace : '\x7b' ∉ g

/-- Inside a header, inserts may be traded for each other. -/
theorem exists_traded {c : Char} {a g g' t rest : Text} (fits : parts.Fits behind)
    (whole : c :: a ++ ';' :: (g ++ t) = parts.text ++ '\x7b' :: rest) (noBrace : '\x7b' ∉ a)
    (insert : IsInsert g) (insert' : IsInsert g') :
    ∃ parts' : Parts, parts'.Fits behind ∧
      c :: a ++ ';' :: (g' ++ t) = parts'.text ++ '\x7b' :: rest ∧
      extendsTestCase.occursIn parts'.clauses = extendsTestCase.occursIn parts.clauses := by
  rcases parts with ⟨lead, heading, angles, clauses⟩
  rcases exists_front_cons fits with ⟨d, front, shape, noSemicolon⟩
  change lead ++ heading = d :: front at shape
  have whole' : c :: (a ++ ';' :: (g ++ t)) =
      d :: (front ++ (angles ++ clauses ++ '\x7b' :: rest)) := by
    calc c :: (a ++ ';' :: (g ++ t)) =
      (lead ++ heading) ++ (angles ++ clauses ++ '\x7b' :: rest) := by
          rw [← List.cons_append, whole]
          simp [Parts.text]
      _ = d :: (front ++ (angles ++ clauses ++ '\x7b' :: rest)) := by rw [shape, List.cons_append]
  rcases List.cons.inj whole' with ⟨rfl, tails⟩
  rcases Text.exists_behind noSemicolon tails.symm with ⟨b, rfl, body⟩
  have noBrace' : '\x7b' ∉ b ++ ';' :: g := by
    have inB : '\x7b' ∉ b := fun member => noBrace (List.mem_append_right front member)
    simp [inB, insert.noBrace]
  have body' : (b ++ ';' :: g) ++ t = (angles ++ clauses) ++ '\x7b' :: rest := by
    simpa using body.symm
  rcases Text.exists_behind noBrace' body' with ⟨t, inBody, rfl⟩
  have parted : angles ++ clauses = b ++ ';' :: (g ++ t) := by simpa using inBody
  rcases fits.clauses.exists_traded parted insert.noBracket insert'.noBracket insert.mute
    insert'.mute with
    ⟨angles', clauses', traded, areClauses, same⟩
  refine ⟨⟨lead, heading, angles', clauses'⟩, ⟨fits.lead, fits.heading, ?_, areClauses, ?_⟩, ?_, ?_⟩
  · have stops : Stops isNamePart (angles ++ clauses) := fits.stops
    rw [parted] at stops
    change Stops isNamePart (angles' ++ clauses')
    rw [traded]
    exact Matcher.stops_append_cons (Matcher.stops_of_append stops) (by decide) _
  · have absent : '\x7b' ∉ angles ++ clauses := fits.noBrace
    change '\x7b' ∉ angles' ++ clauses'
    rw [parted] at absent
    rw [traded]
    simp only [List.mem_append, List.mem_cons, not_or] at absent ⊢
    exact ⟨absent.1, absent.2.1, insert'.noBrace, absent.2.2.2⟩
  · have assembled : Parts.text ⟨lead, heading, angles', clauses'⟩ =
        (c :: front) ++ (b ++ ';' :: (g' ++ t)) := by
      rw [← shape, ← traded]
      simp [Parts.text]
    rw [assembled]
    simp
  · rw [Bool.eq_iff_iff, Matcher.occursIn_extendsTestCase_iff, Matcher.occursIn_extendsTestCase_iff]
    exact same

/-- Behind a semicolon inserts may be traded for each other, if it makes no difference
to a header behind that very semicolon. -/
theorem extendsFrom_traded {a g g' t : Text} (noBrace : '\x7b' ∉ a) (insert : IsInsert g)
    (insert' : IsInsert g')
    (here : ∀ behind, extendsFrom behind (';' :: (g ++ t)) =
      extendsFrom behind (';' :: (g' ++ t))) :
    extendsFrom behind (a ++ ';' :: (g ++ t)) = extendsFrom behind (a ++ ';' :: (g' ++ t)) := by
  induction a generalizing behind with
  | nil => exact here behind
  | cons c a ih =>
      have noBrace' : '\x7b' ∉ a := fun member => noBrace (List.mem_cons_of_mem c member)
      by_cases opens : Opens behind (c :: a ++ ';' :: (g ++ t))
      · rcases opens with ⟨parts, rest, whole, fits⟩
        rcases exists_traded fits whole noBrace' insert insert' with ⟨parts', fits', whole', same⟩
        rw [whole, whole', extendsFrom_of_fits fits, extendsFrom_of_fits fits', same]
      · have opens' :
            ¬ Opens behind (c :: a ++ ';' :: (g' ++ t)) := fun ⟨parts, rest, whole, fits⟩ => by
          rcases exists_traded fits whole noBrace' insert' insert with ⟨parts', fits', whole', -⟩
          exact opens ⟨parts', rest, whole', fits'⟩
        exact (extendsFrom_cons opens).trans ((ih noBrace').trans (extendsFrom_cons opens').symm)

theorem IsInsert.append {g g' : Text} (first : IsInsert g) (second : IsInsert g') :
    IsInsert (g ++ g') where
  mute := first.mute.append second.mute
  noBracket := fun member => (List.mem_append.mp member).elim first.noBracket second.noBracket
  noBrace := fun member => (List.mem_append.mp member).elim first.noBrace second.noBrace

theorem isInsert_of_blank {gap : Text} (blank : Blank gap) : IsInsert gap where
  mute := Matcher.mute_of_blank blank
  noBracket := fun member => absurd (blank _ member) (by decide)
  noBrace := fun member => absurd (blank _ member) (by decide)

theorem beginsLine_of_last {s : Text} (last : s.getLast? = some '\n') (behind : Text) :
    Matcher.BeginsLine (s.reverse ++ behind) := by
  intro c head
  rw [List.head?_append, List.head?_reverse, last] at head
  exact (Option.some.inj head).symm

section Lines

variable {separator : Text} (isBreak : separator = ['\n'] ∨ separator = ['\r', '\n'])
include isBreak

theorem getLast?_separator : separator.getLast? = some '\n' := by
  rcases isBreak with rfl | rfl <;> rfl

/-- No class header begins in a row of a header. -/
theorem silent_row {row : Header.Row} (dotted : row.IsDotted) (behind t : Text) :
    Matcher.Silent classHeader behind (row.text ++ separator) t := by
  have blank := (Header.blank_of_isBreak isBreak).1
  have last := getLast?_separator isBreak
  rcases dotted.exists_parts with none | ⟨isImport, u, shape, parts⟩
  · rw [none]
    exact silent_of_blank blank (Or.inr last) t
  · have inner : ∀ c ∈ HeaderStatement.keyword isImport ++ ' ' :: u,
        c ≠ '\n' ∧ c ≠ ';' ∧ c ≠ '}' := fun c member =>
      ⟨(parts c member).2, HeaderStatement.ne_of_isWordingPart (parts c member).1 (by decide),
        HeaderStatement.ne_of_isWordingPart (parts c member).1 (by decide)⟩
    have keyword : Lexeme.IsKeyword (HeaderStatement.keyword isImport) ∧
        HeaderStatement.keyword isImport ∉ "class".toList :: Matcher.classModifiers := by
      cases isImport <;> decide
    rw [shape]
    simpa using silent_statement keyword.1 (by decide) keyword.2 inner blank last t

theorem silent_rowsText {rows : List Header.Row} (dotted : ∀ row ∈ rows, row.IsDotted)
    (behind t : Text) :
    Matcher.Silent classHeader behind (Header.rowsText separator rows) t := by
  induction rows generalizing behind with
  | nil => exact Matcher.silent_nil _ _ _
  | cons row rows ih =>
      refine Matcher.silent_append.mpr ⟨silent_row isBreak (dotted row List.mem_cons_self) _ _, ?_⟩
      exact ih (fun other member => dotted other (List.mem_cons_of_mem row member)) _

variable {lines : List Text} (each : ∀ line ∈ lines, Header.IsImportLine line)
include each

theorem isInsert_joinLines : IsInsert (TestPlan.joinLines separator lines) where
  mute := Matcher.mute_joinLines (Header.blank_of_isBreak isBreak).1 each
  noBracket := fun member =>
    (Header.isHeaderText_joinLines (Header.blank_of_isBreak isBreak).1 each).ne member
      (by decide) rfl
  noBrace := Header.noBrace_joinLines (Header.blank_of_isBreak isBreak).1 each

theorem silent_joinLines (behind t : Text) :
    Matcher.Silent classHeader behind (TestPlan.joinLines separator lines) t := by
  rw [← Header.rowsText_imported]
  exact silent_rowsText isBreak (Header.isDotted_of_mem_imported each) behind t

/-- Behind a semicolon, import lines go unnoticed between blanks and what follows. -/
theorem extendsFrom_lines {gap lead : Text} (blank : Blank gap)
    (ends : gap = [] ∨ gap.getLast? = some '\n') (blank' : Blank lead)
    (last : (gap ++ lead).getLast? = some '\n') (some : lines ≠ []) (behind t : Text) :
    extendsFrom behind (';' :: (gap ++ t)) =
      extendsFrom behind (';' :: (gap ++ lead ++ TestPlan.joinLines separator lines ++ t)) := by
  have unopened : ∀ {g : Text}, Blank g → g.getLast? = Option.some '\n' → ∀ u,
      extendsFrom behind (';' :: (g ++ u)) = extendsFrom (g.reverse ++ (';' :: behind)) u := by
    intro g blank last u
    rw [extendsFrom_cons (not_opens_semicolon blank (List.mem_of_getLast? last) u),
      extendsFrom_append (silent_of_blank blank (Or.inr last) u)]
  rw [List.append_assoc, unopened (blank.append blank') last,
    extendsFrom_append (silent_joinLines isBreak each _ t)]
  have begins := beginsLine_of_last (Header.getLast?_joinLines isBreak some)
    ((gap ++ lead).reverse ++ ';' :: behind)
  rcases ends with rfl | final
  · exact extendsFrom_semicolon begins t
  · rw [unopened blank final]
    exact extendsFrom_congr ⟨fun _ => begins, fun _ => beginsLine_of_last final _⟩ t

/-- Import lines that are put into a source do not change whether its first class
extends the base class. -/
theorem extendsBaseClass_insertBlock (source : Text) :
    Convention.extendsBaseClass
        (Header.insertBlock source (TestPlan.joinLines separator lines) separator) =
      Convention.extendsBaseClass source := by
  by_cases none : lines = []
  · rw [none]
    rfl
  have blank := (Header.blank_of_isBreak isBreak).1
  have last := Header.getLast?_joinLines isBreak none
  have nonempty : TestPlan.joinLines separator lines ≠ [] := fun empty => by simp [empty] at last
  have fits := Header.slotOf_fits source separator
  rw [Header.insertBlock_eq nonempty, Header.Slot.fill, Header.Slot.stretch]
  have whole := fits.whole
  rcases fits.place with top | ⟨a, gap, behind⟩
  · rw [top.before, List.nil_append] at whole
    rw [top.before, top.lead, ← whole, extendsBaseClass_eq, extendsBaseClass_eq]
    have inTrail : Blank (Header.slotOf source separator).trail ∧
        ((Header.slotOf source separator).trail = [] ∨
          (Header.slotOf source separator).trail.getLast? = some '\n') ∧
        (TestPlan.joinLines separator lines ++ (Header.slotOf source separator).trail).getLast? =
          some '\n' := by
      rcases top.trail with trail | trail
      · rw [trail, List.append_nil]
        exact ⟨Text.blank_nil, Or.inl rfl, last⟩
      · rw [trail]
        exact ⟨blank, Or.inr (by simpa using Text.getLast?_append_separator isBreak []),
          Text.getLast?_append_separator isBreak _⟩
    have silent : Matcher.Silent classHeader []
        (TestPlan.joinLines separator lines ++ (Header.slotOf source separator).trail) source :=
      Matcher.silent_append.mpr ⟨silent_joinLines isBreak each _ _,
        silent_of_blank inTrail.1 inTrail.2.1 _⟩
    rw [List.nil_append, List.nil_append, extendsFrom_append silent]
    refine extendsFrom_congr ⟨fun _ c head => ?_, fun _ => beginsLine_of_last inTrail.2.2 []⟩ source
    cases head
  · have cut : source = a ++ ';' :: (gap ++ (Header.slotOf source separator).after) := by
      rw [behind.before] at whole
      simpa using whole
    have noBrace : '\x7b' ∉ a := fun member => fits.noBrace (by rw [behind.before]; simp [member])
    have blank' := behind.blank_lead blank
    have insert :
        IsInsert (gap ++ (Header.slotOf source separator).lead ++
          TestPlan.joinLines separator lines) :=
      ((isInsert_of_blank behind.blank).append (isInsert_of_blank blank')).append
        (isInsert_joinLines isBreak each)
    have last' : (gap ++ (Header.slotOf source separator).lead).getLast? = some '\n' := by
      rcases behind.lead with ⟨lead, some⟩ | lead | lead
      · rw [lead, List.append_nil]
        exact (behind.ends.resolve_left some).2
      · rw [lead]
        exact Text.getLast?_append_separator isBreak gap
      · rw [lead, ← List.append_assoc]
        exact Text.getLast?_append_separator isBreak _
    have unnoticed :=
      fun front => extendsFrom_lines isBreak each behind.blank (behind.ends.imp id And.right)
      blank' last' none front (Header.slotOf source separator).after
    have traded : extendsFrom [] (a ++ ';' :: (gap ++ (Header.slotOf source separator).after)) =
        _ :=
      extendsFrom_traded noBrace (isInsert_of_blank behind.blank) insert unnoticed
    rw [extendsBaseClass_eq, extendsBaseClass_eq, behind.before, behind.trail]
    refine Eq.trans ?_ (traded.symm.trans (congrArg (extendsFrom []) cut.symm))
    congr 1
    simp

end Lines

end ClassHeader

namespace Convention

theorem ofSource?_eq_legacy_iff {source : Text} :
    ofSource? source = some legacy ↔ extendsBaseClass source = true := by
  rw [ofSource?]
  cases extendsBaseClass source with
  | true => simp
  | false =>
      rw [if_neg (by simp)]
      split <;> simp

/-- A source with the imports of a convention shows it, if its first class extends the
base class in the legacy convention alone. -/
theorem ofSource?_eq_of_imports {source : Text} {convention : Convention}
    (extended : extendsBaseClass source = decide (convention = legacy))
    (imported : ∀ line ∈ convention.imports, Header.containsImport source line = true) :
    ofSource? source = some convention := by
  cases convention with
  | legacy => exact ofSource?_eq_legacy_iff.mpr extended
  | modern =>
      have isMark : markImport ∈ imports modern := by simp [imports]
      simp [ofSource?, extended, imported markImport isMark]

theorem extendsBaseClass_of_ofSource? {source : Text} {convention : Convention}
    (shown : ofSource? source = some convention) :
    extendsBaseClass source = decide (convention = legacy) := by
  rw [Bool.eq_iff_iff, ← ofSource?_eq_legacy_iff, shown, decide_eq_true_iff, Option.some_inj]

end Convention
end Testwright
