import Testwright.Proofs.Header.Wording
import Testwright.Proofs.Matcher.Searching

namespace Testwright

/-!
# The entries of a header

An entry is what a package or import statement says, apart from where it stands
and how it is spaced: its kind and its canonical text.  A statement ends at the
first semicolon behind its keyword, so the entries of a text can be read part by
part, the text being cut behind any semicolon (`entriesFrom_cut`); and what
stands in front of a text matters only by whether a word ends there
(`entriesFrom_congr`).  An edit of a header that puts whole statements between
two parts therefore adds their entries and changes none.
-/

namespace Matcher

variable {α : Type} {m : Matcher α} {behind t : Text} {found : α}

/-- What a search finds is read at some place of the text, behind what it has to pass. -/
theorem exists_of_mem_findAllFrom_pending {pending : Nat}
    (h : found ∈ findAllFrom m behind pending t) :
    ∃ x y later, t = x ++ y ∧ pending ≤ x.length ∧ (found, later) ∈ m ⟨x.reverse ++ behind, y⟩ := by
  induction t generalizing behind pending with
  | nil => simp [findAllFrom] at h
  | cons c t ih =>
      have shift : ∀ {pending : Nat}, found ∈ findAllFrom m (c :: behind) pending t →
          ∃ x y later, c :: t = x ++ y ∧ pending + 1 ≤ x.length ∧
            (found, later) ∈ m ⟨x.reverse ++ behind, y⟩ := by
        intro pending member
        rcases ih member with ⟨x, y, later, rfl, far, reading⟩
        exact ⟨c :: x, y, later, rfl, by simpa using far, by simpa using reading⟩
      cases pending with
      | succ pending => exact shift h
      | zero =>
          have anywhere : ∀ {pending : Nat}, found ∈ findAllFrom m (c :: behind) pending t →
              ∃ x y later, c :: t = x ++ y ∧ 0 ≤ x.length ∧
                (found, later) ∈ m ⟨x.reverse ++ behind, y⟩ := by
            intro pending member
            rcases shift member with ⟨x, y, later, whole, -, reading⟩
            exact ⟨x, y, later, whole, Nat.zero_le _, reading⟩
          rw [findAllFrom] at h
          split at h
          · rename_i reading rest readings
            rcases List.mem_cons.mp h with here | later
            · exact ⟨[], c :: t, reading.2, rfl, Nat.zero_le _, by rw [here]; simp [readings]⟩
            · exact anywhere later
          · exact anywhere h

theorem exists_of_mem_findAllFrom {pending : Nat} (h : found ∈ findAllFrom m behind pending t) :
    ∃ x y later, t = x ++ y ∧ (found, later) ∈ m ⟨x.reverse ++ behind, y⟩ := by
  rcases exists_of_mem_findAllFrom_pending h with ⟨x, y, later, whole, -, reading⟩
  exact ⟨x, y, later, whole, reading⟩

/-- The stretches that a search finds follow each other. -/
theorem pairwise_findAllFrom_stretchOf {P : α → Text → Prop} (gives : Gives m P) (behind : Text)
    (pending : Nat) (t : Text) :
    (findAllFrom (stretchOf m) behind pending t).Pairwise fun found next =>
      found.1.last.behind.length ≤ next.1.first.behind.length := by
  induction t generalizing behind pending with
  | nil => cases pending <;> exact List.Pairwise.nil
  | cons c t ih =>
      cases pending with
      | succ pending => exact ih _ _
      | zero =>
          rw [findAllFrom]
          split
          · rename_i reading rest readings
            refine List.pairwise_cons.mpr ⟨fun next member => ?_, ih _ _⟩
            have inside : reading ∈ stretchOf m ⟨behind, c :: t⟩ := by
              rw [readings]
              exact List.mem_cons_self
            rcases List.mem_map.mp inside with ⟨reading', isReading, rfl⟩
            rcases gives _ reading' isReading with ⟨s, -, ahead, back⟩
            rcases exists_of_mem_findAllFrom_pending member with ⟨x, y, later, whole, far, isNext⟩
            rcases List.mem_map.mp isNext with ⟨reading'', -, same⟩
            rcases (Prod.mk.inj same).1 with rfl
            have size : (c :: t).length = (s ++ reading'.2.ahead).length :=
              congrArg List.length ahead
            change reading'.2.behind.length ≤ (x.reverse ++ c :: behind).length
            rw [back]
            simp only [List.length_append, List.length_cons, List.length_reverse] at size far ⊢
            omega
          · exact ih _ _

/-- Remembering the stretches changes nothing in what is found. -/
theorem map_snd_findAllFrom_stretchOf (m : Matcher α) (behind t : Text) (pending : Nat) :
    (findAllFrom (stretchOf m) behind pending t).map Prod.snd = findAllFrom m behind pending t := by
  induction t generalizing behind pending with
  | nil => cases pending <;> rfl
  | cons c t ih =>
      cases pending with
      | succ pending => exact ih _ _
      | zero =>
          simp only [findAllFrom, stretchOf]
          cases m ⟨behind, c :: t⟩ with
          | nil => exact ih _ _
          | cons reading rest => simp [ih]

end Matcher

namespace Text

/-- A text that is cut at a character of it, and cut at the first such character. -/
theorem exists_cut {c : Char} {a b u r : Text} (first : c ∉ u) (same : a ++ c :: b = u ++ c :: r) :
    (a = u ∧ r = b) ∨ ∃ a', a = u ++ c :: a' ∧ r = a' ++ c :: b := by
  rcases List.append_eq_append_iff.mp same with ⟨a', longer, rest⟩ | ⟨a', longer, rest⟩
  · cases a' with
    | nil => exact Or.inl ⟨by simpa using longer.symm, (List.cons.inj rest).2.symm⟩
    | cons d a' =>
        rcases List.cons.inj rest with ⟨rfl, -⟩
        exact absurd (by simp [longer]) first
  · cases a' with
    | nil => exact Or.inl ⟨by simpa using longer, (List.cons.inj rest).2⟩
    | cons d a' =>
        rcases List.cons.inj rest with ⟨rfl, tail⟩
        exact Or.inr ⟨a', longer, tail⟩

end Text

namespace HeaderStatement

open Character (isBlank isNamePart isWord)
open Matcher (headerStatement)
open Text (Blank)

/-! ## Where a wording ends -/

/-- The characters of a statement in front of its semicolon. -/
def isWordingPart (c : Char) : Bool :=
  isNamePart c || isBlank c || c == '.' || c == '*'

theorem isWordingPart_of_isNamePart {c : Char} (h : isNamePart c = true) :
    isWordingPart c = true := by
  simp [isWordingPart, h]

theorem isWordingPart_of_isBlank {c : Char} (h : isBlank c = true) : isWordingPart c = true := by
  simp [isWordingPart, h]

theorem ne_of_isWordingPart {c d : Char} (part : isWordingPart c = true)
    (other : isWordingPart d = false) :
    c ≠ d := by
  rintro rfl
  rw [other] at part
  cases part

theorem isWordingPart_of_isStep {s : Text} (h : IsStep s) : ∀ c ∈ s, isWordingPart c = true := by
  rcases h with ⟨gap, gap', w, rfl, blank, blank', last⟩
  have inLast : ∀ c ∈ w, isWordingPart c = true := by
    rcases last with isName | rfl
    · exact fun c member => isWordingPart_of_isNamePart (isName.2 c member)
    · decide
  intro c member
  rcases List.mem_append.mp member with here | member
  · exact isWordingPart_of_isBlank (blank c here)
  · rcases List.mem_cons.mp member with rfl | member
    · decide
    · rcases List.mem_append.mp member with here | later
      · exact isWordingPart_of_isBlank (blank' c here)
      · exact inLast c later

theorem isWordingPart_of_isPath {path : Text} (h : IsPath path) :
    ∀ c ∈ path, isWordingPart c = true := by
  rcases h with ⟨lead, name, steps, rfl, isLead, isName, each⟩
  have inLead : ∀ c ∈ lead, isWordingPart c = true := by
    rcases isLead with rfl | ⟨gap, rfl, -, blank⟩
    · simp
    · exact List.forall_mem_append.mpr
        ⟨by decide, fun c member => isWordingPart_of_isBlank (blank c member)⟩
  refine List.forall_mem_append.mpr ⟨inLead, List.forall_mem_append.mpr ⟨fun c member =>
    isWordingPart_of_isNamePart (isName.2 c member), fun c member => ?_⟩⟩
  rcases List.mem_flatten.mp member with ⟨s, isOne, inside⟩
  exact isWordingPart_of_isStep (each s isOne) c inside

/-- A wording is a first word character, other characters of statements, and a
semicolon. -/
theorem IsWording.exists_parts {isImport : Bool} {path s : Text} (h : IsWording isImport path s) :
    ∃ c u, s = c :: (u ++ [';']) ∧ isWord c = true ∧ ∀ d ∈ c :: u, isWordingPart d = true := by
  rcases h with ⟨gap, gap', rfl, -, blank, blank', isPath⟩
  rcases keyword_words isImport with ⟨some, words⟩
  rcases List.exists_cons_of_ne_nil some with ⟨c, w, isKeyword⟩
  rw [isKeyword] at words ⊢
  refine ⟨c, w ++ (gap ++ (path ++ gap')), by simp, words c List.mem_cons_self, ?_⟩
  have inKeyword : ∀ d ∈ c :: w, isWordingPart d = true := fun d member =>
    isWordingPart_of_isNamePart (Character.isNamePart_of_isWord (words d member))
  rw [← List.cons_append]
  refine List.forall_mem_append.mpr ⟨inKeyword, ?_⟩
  refine List.forall_mem_append.mpr ⟨fun d member => isWordingPart_of_isBlank (blank d member), ?_⟩
  exact List.forall_mem_append.mpr ⟨isWordingPart_of_isPath isPath, fun d member =>
    isWordingPart_of_isBlank (blank' d member)⟩

theorem IsWording.noBrace {isImport : Bool} {path s : Text} (h : IsWording isImport path s) :
    '\x7b' ∉ s := by
  rcases h.exists_parts with ⟨c, u, shape, -, parts⟩
  rw [shape, ← List.cons_append]
  intro inside
  rcases List.mem_append.mp inside with here | last
  · exact absurd (parts _ here) (by decide)
  · exact absurd last (by decide)

/-- The last visible character of the text is no part of a statement, or its end. -/
def EndsApart (t : Text) : Prop :=
  ∀ w c gap, t = w ++ c :: gap → isBlank c = false → Blank gap → isWordingPart c = false

theorem endsApart_nil : EndsApart [] := fun w c gap cut => by simp at cut

theorem EndsApart.of_append {s t : Text} (h : EndsApart (s ++ t)) : EndsApart t := by
  rintro w c gap rfl shown blank
  exact h (s ++ w) c gap (by simp) shown blank

theorem endsApart_concat {c : Char} (other : isWordingPart c = false) (shown : isBlank c = false)
    (t : Text) {gap : Text} (blank : Blank gap) : EndsApart (t ++ c :: gap) := by
  intro w d gap' cut shown' blank'
  have reversed := congrArg List.reverse cut
  simp only [List.reverse_append, List.reverse_cons, List.append_assoc,
    List.singleton_append] at reversed
  have back : Blank gap.reverse := fun e member => blank e (List.mem_reverse.mp member)
  have back' : Blank gap'.reverse := fun e member => blank' e (List.mem_reverse.mp member)
  rcases Text.eq_of_blanks_append back back' shown shown' reversed with ⟨-, rfl, -⟩
  exact other

/-! ## Readings and none -/

theorem behindEdge_nil : BehindEdge [] := by
  intro c last
  cases last

theorem behindEdge_cons {c : Char} (other : isWord c = false) (behind : Text) :
    BehindEdge (c :: behind) := by
  intro d last
  cases last
  exact other

/-- A wording ends with a semicolon, where no word ends. -/
theorem IsWording.behindEdge {isImport : Bool} {path s : Text} (h : IsWording isImport path s)
    (behind : Text) :
    BehindEdge (s.reverse ++ behind) := by
  rcases h.exists_parts with ⟨c, u, rfl, -, -⟩
  simpa using behindEdge_cons (c := ';') (by decide) (u.reverse ++ c :: behind)

theorem behindEdge_gap {gap : Text} (blank : Blank gap) (some : gap ≠ []) (behind : Text) :
    BehindEdge (gap.reverse ++ behind) := by
  rcases List.eq_nil_or_concat gap with none | ⟨front, c, rfl⟩
  · exact absurd none some
  · simpa using behindEdge_cons (Character.not_isWord_of_isBlank (blank c (by simp)))
      (front.reverse ++ behind)

/-- A wording stands at the front of a text, and no word ends before it. -/
def Begins (behind t : Text) : Prop :=
  BehindEdge behind ∧ ∃ isImport path s r, t = s ++ r ∧ IsWording isImport path s

theorem not_behindEdge_of_word {behind : Text} {c d : Char} {t : Text} (word : isWord c = true)
    (edge : Place.atWordEdge ⟨behind, c :: t⟩ = true) (last : behind.head? = some d) :
    isWord d = false := by
  cases behind with
  | nil => cases last
  | cons e behind =>
      cases last
      simpa [Place.atWordEdge, word] using edge

theorem gives_headerStatement :
    Matcher.Gives headerStatement fun _ s => ∃ isImport path, IsWording isImport path s := by
  rintro place ⟨found, later⟩ member
  rcases exists_isWording member with ⟨-, s, wording, ahead, behind⟩
  exact ⟨s, ⟨_, _, wording⟩, ahead, behind⟩

/-- A place has a reading exactly where a wording begins. -/
theorem headerStatement_ne_nil_iff (behind t : Text) :
    headerStatement ⟨behind, t⟩ ≠ [] ↔ Begins behind t := by
  constructor
  · intro some
    rcases List.exists_mem_of_ne_nil _ some with ⟨⟨found, later⟩, member⟩
    rcases exists_isWording member with ⟨atEdge, s, wording, cut, -⟩
    rcases wording.exists_parts with ⟨c, u, rfl, word, -⟩
    have whole : t = c :: (u ++ [';'] ++ later.ahead) := cut
    rw [whole] at atEdge
    exact ⟨fun d last => not_behindEdge_of_word word atEdge last, _, _, _, _, cut, wording⟩
  · rintro ⟨edge, isImport, path, s, r, rfl, wording⟩
    rcases reads_of_isWording wording edge r with ⟨found, reads, -⟩
    exact reads.ne_nil

theorem not_begins_of_front {c : Char} (other : isWord c = false) (behind t : Text) :
    ¬ Begins behind (c :: t) := by
  rintro ⟨-, isImport, path, s, r, same, wording⟩
  rcases wording.exists_parts with ⟨d, u, rfl, word, -⟩
  rw [← (List.cons.inj same).1, other] at word
  cases word

/-- A wording that begins in front of a character that is no part of one ends there, or in
front of it. -/
theorem IsWording.exists_cut {isImport : Bool} {path s : Text} (wording : IsWording isImport path s)
    {a b r : Text} {c : Char} (other : isWordingPart c = false) (whole : a ++ c :: b = s ++ r) :
    (a ++ [c] = s ∧ r = b) ∨ ∃ a', a = s ++ a' ∧ r = a' ++ c :: b := by
  rcases wording.exists_parts with ⟨d, u, rfl, -, parts⟩
  have absent : c ∉ d :: u := fun member => ne_of_isWordingPart (parts c member) other rfl
  have cut : (d :: u) ++ ';' :: r = a ++ c :: b := by simp [whole]
  rcases Text.exists_behind absent cut with ⟨y, rfl, rest⟩
  cases y with
  | nil =>
      rcases List.cons.inj rest with ⟨rfl, same⟩
      exact Or.inl ⟨by simp, same⟩
  | cons e y =>
      rcases List.cons.inj rest with ⟨rfl, same⟩
      exact Or.inr ⟨y, by simp, same⟩

/-- Whether a wording begins is decided in front of the first character that is no part of
one. -/
theorem begins_append_iff {a : Text} {behind b b' : Text} {c : Char}
    (other : isWordingPart c = false) :
    Begins behind (a ++ c :: b) ↔ Begins behind (a ++ c :: b') := by
  have one : ∀ b b', Begins behind (a ++ c :: b) → Begins behind (a ++ c :: b') := by
    rintro b b' ⟨edge, isImport, path, s, r, same, wording⟩
    rcases wording.exists_cut other same with ⟨rfl, -⟩ | ⟨a', rfl, -⟩
    · exact ⟨edge, isImport, path, _, b', by simp, wording⟩
    · exact ⟨edge, isImport, path, _, a' ++ c :: b', by simp, wording⟩
  exact ⟨one b b', one b' b⟩

end HeaderStatement

namespace Header

open Character (isBlank isWord)
open HeaderStatement (BehindEdge Begins IsWording behindEdge_cons behindEdge_nil canonicalText)
open Matcher (headerStatement)
open Text (Blank)

/-! ## Entries -/

/-- The entries of a text, where `behind` stands in front of it. -/
def entriesFrom (behind t : Text) : List (Bool × Text) :=
  (Matcher.findAllFrom headerStatement behind 0 t).map fun found =>
    (found.1, canonicalText found.1 found.2.text)

/-- The entries of a text. -/
def entries (t : Text) : List (Bool × Text) :=
  entriesFrom [] t

@[simp] theorem entriesFrom_nil (behind : Text) : entriesFrom behind [] = [] := rfl

theorem entriesFrom_of_isWording {isImport : Bool} {path s behind : Text}
    (wording : IsWording isImport path s) (edge : BehindEdge behind) (t : Text) :
    entriesFrom behind (s ++ t) =
      (isImport, canonicalText isImport path) :: entriesFrom (s.reverse ++ behind) t := by
  rcases HeaderStatement.reads_of_isWording wording edge t with ⟨found, reads, text⟩
  rcases wording.exists_parts with ⟨c, u, shape, -, -⟩
  have some : s ≠ [] := by simp [shape]
  rw [entriesFrom, Matcher.findAllFrom_of_reads some reads, List.map_cons, text]
  rfl

theorem entriesFrom_cons {behind : Text} {c : Char} {t : Text} (none : ¬ Begins behind (c :: t)) :
    entriesFrom behind (c :: t) = entriesFrom (c :: behind) t := by
  have noReading : headerStatement ⟨behind, c :: t⟩ = [] :=
    Classical.byContradiction fun some =>
      none ((HeaderStatement.headerStatement_ne_nil_iff _ _).mp some)
  simp only [entriesFrom, Matcher.findAllFrom, noReading]

/-- In front of a text, only the end of a word matters. -/
theorem entriesFrom_congr {behind behind' : Text} (same : BehindEdge behind ↔ BehindEdge behind')
    (t : Text) : entriesFrom behind t = entriesFrom behind' t := by
  induction size : t.length using Nat.strongRecOn generalizing t behind behind' with
  | ind n ih =>
      cases t with
      | nil => rfl
      | cons c t =>
          by_cases begins : Begins behind (c :: t)
          · rcases begins with ⟨edge, isImport, path, s, r, whole, wording⟩
            rcases wording.exists_parts with ⟨d, u, rfl, -, -⟩
            have shorter : r.length < n := by
              rw [← size, whole]
              simp only [List.length_append, List.length_cons]
              omega
            rw [whole, entriesFrom_of_isWording wording edge,
              entriesFrom_of_isWording wording (same.mp edge),
              ih r.length shorter (iff_of_true (wording.behindEdge _) (wording.behindEdge _)) r rfl]
          · have begins' : ¬ Begins behind' (c :: t) := fun b => begins ⟨same.mpr b.1, b.2⟩
            rw [entriesFrom_cons begins, entriesFrom_cons begins']
            have next : BehindEdge (c :: behind) ↔ BehindEdge (c :: behind') := by simp [BehindEdge]
            exact ih t.length (by simp [← size]) next t rfl

/-- Every statement ends with a semicolon. -/
theorem entriesFrom_eq_nil {t : Text} (none : ';' ∉ t) (behind : Text) :
    entriesFrom behind t = [] := by
  induction t generalizing behind with
  | nil => rfl
  | cons c t ih =>
      have begins : ¬ Begins behind (c :: t) := by
        rintro ⟨-, isImport, path, s, r, whole, wording⟩
        rcases wording.exists_parts with ⟨d, u, rfl, -, -⟩
        exact none (by rw [whole]; simp)
      rw [entriesFrom_cons begins]
      exact ih (fun member => none (List.mem_cons_of_mem c member)) _

/-- A statement in front of a text is its first entry. -/
theorem entries_append_of_isWording {isImport : Bool} {path s : Text}
    (wording : IsWording isImport path s) (t : Text) :
    entries (s ++ t) = (isImport, canonicalText isImport path) :: entries t := by
  rw [entries, entriesFrom_of_isWording wording behindEdge_nil,
    entriesFrom_congr (iff_of_true (wording.behindEdge _) behindEdge_nil)]
  rfl

/-- Blanks are passed over. -/
theorem entriesFrom_gap {gap : Text} (blank : Blank gap) (behind t : Text) :
    entriesFrom behind (gap ++ t) = entriesFrom (gap.reverse ++ behind) t := by
  induction gap generalizing behind with
  | nil => rfl
  | cons c gap ih =>
      have other := Character.not_isWord_of_isBlank (blank c List.mem_cons_self)
      have rest := ih (fun d member => blank d (List.mem_cons_of_mem c member)) (c :: behind)
      rw [List.cons_append, entriesFrom_cons (HeaderStatement.not_begins_of_front other behind _),
        rest]
      simp

/-- Blanks in front bring in no entry. -/
theorem entries_gap {gap : Text} (blank : Blank gap) (t : Text) :
    entries (gap ++ t) = entries t := by
  by_cases none : gap = []
  · rw [none, List.nil_append]
  · rw [entries, entriesFrom_gap blank]
    exact entriesFrom_congr
      (iff_of_true (HeaderStatement.behindEdge_gap blank none []) behindEdge_nil) t

/-- The entries are read part by part, where a part ends with a character that is in no
statement but at its end. -/
theorem entriesFrom_append_cons {c : Char} (other : HeaderStatement.isWordingPart c = false)
    (behind a b : Text) :
    entriesFrom behind (a ++ c :: b) = entriesFrom behind (a ++ [c]) ++ entries b := by
  have noWord : isWord c = false := by
    cases word : isWord c with
    | false => rfl
    | true =>
        rw [HeaderStatement.isWordingPart_of_isNamePart (Character.isNamePart_of_isWord word)]
          at other
        cases other
  have afterEnd : ∀ x : Text, entriesFrom (c :: x) b = entries b := fun x =>
    entriesFrom_congr (iff_of_true (behindEdge_cons noWord x) behindEdge_nil) b
  induction size : a.length using Nat.strongRecOn generalizing a behind with
  | ind n ih =>
      cases a with
      | nil =>
          have none : ∀ t, ¬ Begins behind (c :: t) :=
            HeaderStatement.not_begins_of_front noWord behind
          rw [List.nil_append, List.nil_append, entriesFrom_cons (none b),
            entriesFrom_cons (none []), afterEnd]
          rfl
      | cons d a =>
          by_cases begins : Begins behind (d :: a ++ c :: b)
          · rcases begins with ⟨edge, isImport, path, s, r, whole, wording⟩
            rcases wording.exists_cut other whole with ⟨ended, rfl⟩ | ⟨a', front, rfl⟩
            · have alone : d :: a ++ [c] = s ++ [] := by rw [ended, List.append_nil]
              rw [whole, alone, entriesFrom_of_isWording wording edge,
                entriesFrom_of_isWording wording edge,
                entriesFrom_congr (iff_of_true (wording.behindEdge _) behindEdge_nil) r]
              rfl
            · have shorter : a'.length < n := by
                rcases wording.exists_parts with ⟨e, u, rfl, -, -⟩
                rw [← size, front]
                simp only [List.length_append, List.length_cons]
                omega
              have alone : d :: a ++ [c] = s ++ (a' ++ [c]) := by rw [front, List.append_assoc]
              rw [whole, alone, entriesFrom_of_isWording wording edge,
                entriesFrom_of_isWording wording edge, ih a'.length shorter _ a' rfl,
                List.cons_append]
          · have begins' : ¬ Begins behind (d :: a ++ [c]) :=
              fun there => begins ((HeaderStatement.begins_append_iff other).mp there)
            have step := ih a.length (by simp [← size]) (d :: behind) a rfl
            exact (entriesFrom_cons begins).trans
              (step.trans (congrArg (· ++ entries b) (entriesFrom_cons begins').symm))

/-- Behind a semicolon no statement goes on. -/
theorem entriesFrom_cut (behind a b : Text) :
    entriesFrom behind (a ++ ';' :: b) = entriesFrom behind (a ++ [';']) ++ entries b :=
  entriesFrom_append_cons (by decide) behind a b

/-- The entries of a text that ends apart are its own, whatever follows. -/
theorem entries_append_of_endsApart {t : Text} (ends : HeaderStatement.EndsApart t) (u : Text) :
    entries (t ++ u) = entries t ++ entries u := by
  rcases Text.blank_or_exists_visible t with blank | ⟨w, c, gap, rfl, shown, blank⟩
  · have none :=
      entriesFrom_eq_nil (t := t) (fun member => absurd (blank ';' member) (by decide)) []
    rw [entries_gap blank, show entries t = [] from none, List.nil_append]
  · have parted : ∀ v,
        entries (w ++ c :: (gap ++ v)) = entries (w ++ [c]) ++ entries v := fun v => by
      rw [entries, entriesFrom_append_cons (ends w c gap rfl shown blank), entries_gap blank]
      rfl
    have alone : entries (w ++ c :: gap) = entries (w ++ [c]) ++ [] := by
      have whole := parted []
      rwa [List.append_nil] at whole
    rw [List.append_assoc, List.cons_append, parted, alone, List.append_nil]

end Header
end Testwright
