import Testwright.Proofs.Convention.BaseClass
import Testwright.Proofs.Text.Depth

namespace Testwright

/-!
# The clause in which a class names its base

The word `extends` stands in a class header in two roles: outside angle brackets the
class names its base with it, inside them it bounds a type.  The conversion looks for
the word in the clauses of the header, and these begin behind the first bracket that
closes type parameters.  Where every bound stands in front of that bracket, what is
found is the class's own clause (`ownBase_iff`); and then the conversion is refused for
the reasons it gives (`convert_refusals`).
-/

open Character (isBlank isDottedPart isNamePart isWord)
open Matcher (AreClauses Reads Stops Takes angleArguments classHeader extendsBase isNotBrace)
open Text (Blank level)

namespace Matcher

/-! ## Reading a base class -/

/-- The name of a class with its arguments, up to the first bracket that closes them, in
front of the second text. -/
def IsBaseName (b rest : Text) : Prop :=
  ∃ w angles, b = w ++ angles ∧ w ≠ [] ∧ (∀ c ∈ w, isDottedPart c = true) ∧
    Stops isDottedPart (angles ++ rest) ∧ AreClauses angles rest

/-- The text begins with the word `extends` and the base `b`. -/
def BeginsBase (b t : Text) : Prop :=
  ∃ gap rest, t = "extends".toList ++ (gap ++ (b ++ rest)) ∧ gap ≠ [] ∧ Blank gap ∧
    IsBaseName b rest

theorem BeginsBase.exists_cons {b t : Text} (h : BeginsBase b t) : ∃ r, t = 'e' :: r := by
  rcases h with ⟨gap, rest, rfl, -⟩
  exact ⟨_, rfl⟩

/-- No blanks stand around the name of a base. -/
theorem IsBaseName.trim_eq {b rest : Text} (h : IsBaseName b rest) : Text.trim b = b := by
  rcases h with ⟨w, angles, rfl, named, dotted, -, parted⟩
  have shown : ∀ c ∈ w, isBlank c = false :=
    fun c member => Character.not_isBlank_of_isDottedPart (dotted c member)
  refine Text.IsTrimmed.trim_eq ⟨fun c head => ?_, fun c last => ?_⟩
  · rw [List.head?_append_of_ne_nil _ named] at head
    exact shown c (List.mem_of_mem_head? head)
  · rcases parted with ⟨gap, inner, rfl, -, -⟩ | ⟨rfl, -⟩
    · have closing : w ++ (gap ++ '<' :: (inner ++ ['>'])) =
          (w ++ (gap ++ '<' :: inner)) ++ ['>'] := by simp
      rw [closing, List.getLast?_concat] at last
      exact Option.some.inj last ▸ (by decide)
    · rw [List.append_nil] at last
      exact shown c (List.mem_of_getLast? last)

/-- A name of a base stands wherever a part of a name does. -/
theorem exists_isBaseName {c : Char} (dotted : isDottedPart c = true) (t : Text) :
    ∃ b rest, c :: t = b ++ rest ∧ IsBaseName b rest := by
  let w := (c :: t).takeWhile isDottedPart
  rcases exists_clauses ((c :: t).dropWhile isDottedPart) with ⟨angles, rest, cut, parted⟩
  have whole : c :: t = w ++ (angles ++ rest) := by
    rw [← cut]
    exact List.takeWhile_append_dropWhile.symm
  refine ⟨w ++ angles, rest, by rw [whole, List.append_assoc], w, angles, rfl, ?_, ?_, ?_, parted⟩
  · simp [w, dotted]
  · exact fun d member => List.mem_takeWhile_imp member
  · rw [← cut]
    exact stops_dropWhile isDottedPart (c :: t)

theorem reads_extendsBase {b t behind : Text} (h : BeginsBase b t) (noBrace : '\x7b' ∉ t)
    (edge : Place.atWordEdge ⟨behind, t⟩ = true) :
    ∃ base later, Reads extendsBase ⟨behind, t⟩ base later ∧ base.text = b := by
  rcases h with ⟨gap, rest, rfl, some, blank, w, angles, rfl, named, dotted, stops, parted⟩
  have visible : Stops isBlank (w ++ angles ++ rest) := by
    rcases List.exists_cons_of_ne_nil named with ⟨c, w, rfl⟩
    exact Character.not_isBlank_of_isDottedPart (dotted c List.mem_cons_self)
  have noBrace' : '\x7b' ∉ angles ++ rest := fun member => noBrace (by
    simp only [List.mem_append] at member ⊢
    tauto)
  have name : ∀ behind, Reads (run1 isDottedPart >>= fun _ => maybe angleArguments)
      ⟨behind, w ++ angles ++ rest⟩ () ⟨(w ++ angles).reverse ++ behind, rest⟩ := by
    intro behind
    have arguments := reads_angles parted noBrace' (w.reverse ++ behind) (stops_nil isNotBrace)
    rw [List.append_nil] at arguments
    have read : Reads (run1 isDottedPart >>= fun _ => maybe angleArguments) _ () _ :=
      (Reads.of_eq_cons (run1_append dotted named stops behind)).bind arguments
    simpa using read
  have read : Reads extendsBase ⟨behind, "extends".toList ++ (gap ++ (w ++ angles ++ rest))⟩ _ _ :=
    (Reads.of_eq_cons (require_of_true edge)).bind
      ((Reads.of_eq_cons (word_append "extends".toList behind _)).bind
        ((Reads.of_eq_cons (run1_append blank some visible _)).bind (Reads.stretch (name _))))
  exact ⟨_, _, read, text_mk _ _ _ _⟩

theorem exists_beginsBase {behind t : Text} (some : extendsBase ⟨behind, t⟩ ≠ []) :
    Place.atWordEdge ⟨behind, t⟩ = true ∧ ∃ b, BeginsBase b t := by
  rcases List.exists_mem_of_ne_nil _ some with ⟨⟨base, later⟩, member⟩
  rcases mem_bind.mp member with ⟨_, place₁, inEdge, member⟩
  rcases mem_require inEdge with ⟨rfl, edge⟩
  rcases mem_bind.mp member with ⟨_, place₂, inWord, member⟩
  rcases mem_bind.mp member with ⟨_, place₃, inGap, inBase⟩
  rcases mem_bind.mp (mem_stretch inBase) with ⟨_, place₄, inName, -⟩
  rcases takes_word _ _ _ inWord with ⟨_, rfl, cut₁, -⟩
  rcases takes_run1 isBlank _ _ inGap with ⟨gap, ⟨nonempty, blank⟩, cut₂, -⟩
  rcases takes_run1 isDottedPart _ _ inName with ⟨w, ⟨named, dotted⟩, cut₃, -⟩
  rcases List.exists_cons_of_ne_nil named with ⟨c, w, rfl⟩
  rcases exists_isBaseName (dotted c List.mem_cons_self) (w ++ place₄.ahead) with
    ⟨b, rest, cut, isBase⟩
  simp only at cut₁ cut₂ cut₃
  refine ⟨edge, b, gap, rest, ?_, nonempty, blank, isBase⟩
  rw [cut₁, cut₂, cut₃, ← cut]
  rfl

/-- The first base that a text names behind a word edge. -/
def FirstBase (t b : Text) : Prop :=
  ∃ x y, t = x ++ y ∧ x.getLast?.any isWord = false ∧ BeginsBase b y ∧
    ∀ u v b', x = u ++ v → v ≠ [] → u.getLast?.any isWord = false → ¬ BeginsBase b' (v ++ y)

theorem FirstBase.trim_eq {t b : Text} (h : FirstBase t b) : Text.trim b = b := by
  rcases h with ⟨x, y, -, -, ⟨gap, rest, -, -, -, isBase⟩, -⟩
  exact isBase.trim_eq

theorem atWordEdge_iff {b x y : Text} (h : BeginsBase b y) :
    Place.atWordEdge ⟨x.reverse, y⟩ = true ↔ x.getLast?.any isWord = false := by
  rcases h.exists_cons with ⟨r, rfl⟩
  exact Place.atWordEdge_front_iff (by decide) x r

theorem extendsBase_ne_nil_iff {x y : Text} (noBrace : '\x7b' ∉ y) :
    extendsBase ⟨x.reverse, y⟩ ≠ [] ↔ x.getLast?.any isWord = false ∧ ∃ b, BeginsBase b y := by
  constructor
  · intro some
    rcases exists_beginsBase some with ⟨edge, b, begins⟩
    exact ⟨(atWordEdge_iff begins).mp edge, b, begins⟩
  · rintro ⟨edge, b, begins⟩
    rcases reads_extendsBase begins noBrace ((atWordEdge_iff begins).mpr edge) with
      ⟨base, later, read, -⟩
    exact read.ne_nil

/-- The search finds the first base that is named. -/
theorem find?_extendsBase_iff {t b : Text} (noBrace : '\x7b' ∉ t) :
    (∃ base, extendsBase.find? t = some base ∧ base.text = b) ↔ FirstBase t b := by
  have lacks : ∀ {x y : Text}, t = x ++ y → '\x7b' ∉ y := fun cut member =>
    noBrace (cut ▸ List.mem_append_right _ member)
  constructor
  · rintro ⟨base, found, rfl⟩
    rcases exists_of_findFrom found with ⟨x, y, later, cut, silent, read⟩
    rw [List.append_nil] at read
    rcases exists_beginsBase read.ne_nil with ⟨edge, b, begins⟩
    rcases reads_extendsBase begins (lacks cut) edge with ⟨base', later', read', rfl⟩
    have same : base' = base := (Prod.mk.inj (Option.some.inj (read'.symm.trans read))).1
    refine ⟨x, y, cut, (atWordEdge_iff begins).mp edge, same ▸ begins, ?_⟩
    rintro u v b' rfl some edge' begins'
    have lacks' : '\x7b' ∉ v ++ y := lacks (x := u) (by rw [cut, List.append_assoc])
    have reads := (extendsBase_ne_nil_iff lacks').mpr ⟨edge', b', begins'⟩
    exact reads (by simpa using silent u v rfl some)
  · rintro ⟨x, y, cut, edge, begins, first⟩
    have silent : Silent extendsBase [] x y := by
      intro u v parts some
      by_contra reads
      rw [List.append_nil] at reads
      have lacks' : '\x7b' ∉ v ++ y := lacks (x := u) (by rw [cut, parts, List.append_assoc])
      rcases (extendsBase_ne_nil_iff lacks').mp reads with ⟨edge', b', begins'⟩
      exact first u v b' parts some edge' begins'
    rcases reads_extendsBase begins (lacks cut) ((atWordEdge_iff begins).mpr edge) with
      ⟨base, later, read, same⟩
    refine ⟨base, ?_, same⟩
    rw [find?, cut, findFrom_append silent, List.append_nil]
    exact findFrom_of_reads read

/-! ## The class's own clause -/

/-- Outside angle brackets, the first base that a text names behind a word edge. -/
def OwnBase (t b : Text) : Prop :=
  ∃ x y, t = x ++ y ∧ x.getLast?.any isWord = false ∧ level 0 x = 0 ∧ BeginsBase b y ∧
    ∀ u v b', x = u ++ v → v ≠ [] → u.getLast?.any isWord = false → level 0 u = 0 →
      ¬ BeginsBase b' (v ++ y)

/-- Every base that is named inside angle brackets bounds a type parameter, in front of
the first bracket that closes the parameters. -/
def BoundsApart (t : Text) : Prop :=
  ∀ x y b, t = x ++ y → x.getLast?.any isWord = false → BeginsBase b y → level 0 x ≠ 0 →
    x.head? = some '<' ∧ '>' ∉ x ∧ '>' ∈ y

/-- Whether every `extends` of the text stands outside angle brackets, or in front of the
first bracket that closes the type parameters. -/
def areBoundsApart (t : Text) : Bool :=
  (List.range (t.length + 1)).all fun n =>
    !("extends".toList.isPrefixOf (t.drop n)) || level 0 (t.take n) == 0 ||
      ((t.take n).head? == some '<' && !(t.take n).contains '>' && (t.drop n).contains '>')

theorem boundsApart_of_areBoundsApart {t : Text} (checked : areBoundsApart t = true) :
    BoundsApart t := by
  rintro x y b rfl edge ⟨gap, rest, rfl, -⟩ inside
  have here :=
    List.all_eq_true.mp checked x.length (List.mem_range.mpr (by rw [List.length_append]; omega))
  have word : "extends".toList.isPrefixOf ("extends".toList ++ (gap ++ (b ++ rest))) = true :=
    List.isPrefixOf_iff_prefix.mpr (List.prefix_append _ _)
  rw [List.take_left, List.drop_left, word] at here
  simpa [inside, and_assoc] using here

/-- A bound of a type parameter stands apart, the bound of an argument does not. -/
example : areBoundsApart "<T extends A> extends Base<T>".toList = true ∧
    areBoundsApart " implements Box<? extends A>".toList = false := by
  decide +kernel

variable {angles clauses : Text}

theorem AreClauses.edge (parted : AreClauses angles clauses) :
    angles.getLast?.any isWord = false := by
  rcases parted with ⟨gap, inner, rfl, -, -⟩ | ⟨rfl, -⟩
  · rw [show gap ++ '<' :: (inner ++ ['>']) = (gap ++ '<' :: inner) ++ ['>'] by simp,
      List.getLast?_concat]
    decide
  · rfl

/-- Where no bracket closes, the depth stays. -/
theorem le_level {t : Text} (unclosed : '>' ∉ t) (depth : Nat) : depth ≤ level depth t := by
  induction t generalizing depth with
  | nil => exact Nat.le_refl depth
  | cons c t ih =>
      rw [List.mem_cons, not_or] at unclosed
      have here : depth ≤ Text.nest depth c := by
        unfold Text.nest
        split_ifs with opens closes
        · exact Nat.le_succ depth
        · exact absurd closes.symm unclosed.1
        · exact Nat.le_refl depth
      exact Nat.le_trans here (ih unclosed.2 _)

/-- Among the type parameters every base is named inside angle brackets. -/
theorem AreClauses.level_ne_zero (parted : AreClauses angles clauses) {u v y b : Text}
    (cut : angles = u ++ v) (some : v ≠ []) (begins : BeginsBase b (v ++ y)) : level 0 u ≠ 0 := by
  rcases List.exists_cons_of_ne_nil some with ⟨c, v, rfl⟩
  rcases begins.exists_cons with ⟨r, first⟩
  rcases (List.cons.inj first).1 with rfl
  rcases parted with ⟨gap, inner, rfl, blank, unclosed⟩ | ⟨rfl, -⟩
  · rcases List.append_eq_append_iff.mp cut with ⟨a, rfl, rest⟩ | ⟨a, rfl, rest⟩
    · cases a with
      | nil => exact absurd (List.cons.inj rest).1 (by decide)
      | cons d i =>
          rcases List.cons.inj rest with ⟨rfl, rest⟩
          have inside : '>' ∉ i := by
            intro member
            rcases List.append_of_mem member with ⟨i', i'', rfl⟩
            have closes : inner ++ '>' :: [] = i' ++ '>' :: (i'' ++ 'e' :: v) := by simpa using rest
            rcases Text.exists_behind unclosed closes with ⟨z, -, behind⟩
            cases z with
            | nil => exact absurd (List.cons.inj behind).2 (by simp)
            | cons e z => exact absurd (List.cons.inj behind).2 (by simp)
          have opened : level 0 (gap ++ '<' :: i) = level (level 0 gap + 1) i := by
            rw [Text.level_append, Text.level_cons]
            rfl
          have deep := le_level inside (level 0 gap + 1)
          omega
    · cases a with
      | nil => exact absurd (List.cons.inj rest).1 (by decide)
      | cons d a =>
          rcases (List.cons.inj rest).1 with rfl
          exact absurd (blank 'e' (by simp)) (by decide)
  · exact absurd cut (by simp)

/-- Behind the type parameters, a base is named outside angle brackets. -/
theorem AreClauses.level_eq_zero (parted : AreClauses angles clauses)
    (apart : BoundsApart (angles ++ clauses)) {x y b : Text} (cut : clauses = x ++ y)
    (edge : x.getLast?.any isWord = false) (begins : BeginsBase b y) :
    level 0 (angles ++ x) = 0 := by
  by_contra inside
  rcases apart (angles ++ x) y b (by rw [cut, List.append_assoc])
    (Text.not_word_last_append parted.edge edge) begins
    inside with ⟨opens, unclosed, closes⟩
  rcases parted with ⟨gap, inner, rfl, -, -⟩ | ⟨rfl, none⟩
  · exact unclosed (by simp)
  · rcases List.head?_eq_some_iff.mp opens with ⟨r, rfl⟩
    rcases List.append_of_mem closes with ⟨i, rest, rfl⟩
    exact none [] (r ++ i) rest Text.blank_nil (by rw [cut]; simp)

/-- Where bounds stand in front of the bracket that closes the type parameters, the
clauses name first what the class names as its base. -/
theorem AreClauses.ownBase_iff (parted : AreClauses angles clauses)
    (apart : BoundsApart (angles ++ clauses)) {b : Text} :
    OwnBase (angles ++ clauses) b ↔ FirstBase clauses b := by
  constructor
  · rintro ⟨x, y, cut, edge, outside, begins, first⟩
    have behind : ∃ x', x = angles ++ x' ∧ clauses = x' ++ y := by
      rcases List.append_eq_append_iff.mp cut with ⟨x', rfl, rest⟩ | ⟨v, front, rfl⟩
      · exact ⟨x', rfl, rest⟩
      · cases v with
        | nil => exact ⟨[], by simpa using front.symm, rfl⟩
        | cons c v => exact absurd outside (parted.level_ne_zero front (by simp) begins)
    rcases behind with ⟨x', rfl, cut'⟩
    refine ⟨x', y, cut', Text.not_word_last_of_append edge, begins, ?_⟩
    rintro u v b' rfl some edge' begins'
    have outside' :=
      parted.level_eq_zero apart (x := u) (by rw [cut', List.append_assoc]) edge' begins'
    exact first (angles ++ u) v b' (by rw [List.append_assoc]) some
      (Text.not_word_last_append parted.edge edge')
      outside' begins'
  · rintro ⟨x, y, cut, edge, begins, first⟩
    refine ⟨angles ++ x, y, by rw [cut, List.append_assoc],
      Text.not_word_last_append parted.edge edge,
      parted.level_eq_zero apart cut edge begins, begins, ?_⟩
    intro u v b' parts some edge' outside begins'
    rcases List.append_eq_append_iff.mp parts with ⟨w, rfl, rest⟩ | ⟨w, front, rfl⟩
    · exact first w v b' rest some (Text.not_word_last_of_append edge') begins'
    · cases w with
      | nil => exact first [] x b' rfl some rfl begins'
      | cons d w =>
          rw [List.append_assoc] at begins'
          exact parted.level_ne_zero front (by simp) begins' outside

end Matcher

namespace ClassHeader

/-- What follows the name of the class: its type parameters, from their bracket on, and
the clauses. -/
def body (header : ClassHeader) : Text :=
  header.declaration.text.dropWhile (fun c => !(c == '<')) ++ header.clauses.text

/-- The body of a header that was read parts into type parameters and clauses. -/
theorem exists_body {source : Text} {header : ClassHeader}
    (found : classHeader.find? source = some header) :
    ∃ angles, header.body = angles ++ header.clauses.text ∧ AreClauses angles header.clauses.text ∧
      '\x7b' ∉ header.clauses.text := by
  rcases exists_of_find? found with ⟨x, parts, rest, -, -, fits, rfl⟩
  have heading : ∀ c ∈ parts.heading, (!(c == '<')) = true := by
    intro c member
    have other : c ≠ '<' := by
      rintro rfl
      exact absurd (Matcher.isNamePart_or_isBlank fits.heading '<' member) (by decide)
    simpa using other
  have noBrace : '\x7b' ∉ parts.clauses :=
    fun member => fits.noBrace (List.mem_append_right _ member)
  rw [Parts.header_clauses_text]
  refine ⟨parts.angles.dropWhile fun c => !(c == '<'), ?_, ?_, noBrace⟩
  · rw [body, Parts.header_clauses_text, Parts.header_declaration_text,
      List.dropWhile_append_of_pos heading]
  · rcases fits.clauses with ⟨gap, inner, same, blank, unclosed⟩ | ⟨same, none⟩
    · have before : ∀ c ∈ gap, (!(c == '<')) = true := by
        intro c member
        have other : c ≠ '<' := by
          rintro rfl
          exact absurd (blank '<' member) (by decide)
        simpa using other
      rw [same, List.dropWhile_append_of_pos before]
      exact Or.inl ⟨[], inner, by simp, Text.blank_nil, unclosed⟩
    · rw [same]
      exact Or.inr ⟨rfl, none⟩

end ClassHeader

namespace Convention

open Matcher (BoundsApart FirstBase OwnBase)

/-! ## The reasons to refuse a conversion -/

/-- The first class of the source names this base in its own clause. -/
def NamesBase (source b : Text) : Prop :=
  ∃ header, classHeader.find? source = some header ∧ OwnBase header.body b

variable {style : TestStyle} {target : Option ClassSurface} {wanted : Convention} {source : Text}

theorem isSome_find?_of_legacy (shown : ofSource? source = some legacy) :
    ∃ header, classHeader.find? source = some header := by
  have extended := ofSource?_eq_legacy_iff.mp shown
  rw [extendsBaseClass, Option.any_eq_true] at extended
  rcases extended with ⟨header, found, -⟩
  exact ⟨header, found⟩

/-- What a conversion answers, refusals first. -/
theorem convert_eq_error_iff {refusal : Refusal} :
    convert style target wanted source = .error refusal ↔
      refusal = .unrecognizedConvention ∧ (ofSource? source = none ∨
        ofSource? source = some modern ∧ wanted = legacy ∧ classHeader.find? source = none) ∨
      ofSource? source = some modern ∧ wanted = legacy ∧
      ∃ header base, classHeader.find? source = some header ∧
        extendsBase.find? header.clauses.text = some base ∧
        refusal = .incompatibleBaseClass (Text.trim base.text) := by
  unfold convert
  cases shown : ofSource? source with
  | none => simp [eq_comm]
  | some convention =>
      cases wanted with
      | modern =>
          cases convention with
          | modern => simp
          | legacy =>
              rcases isSome_find?_of_legacy shown with ⟨header, found⟩
              simp [toModern, found]
      | legacy =>
          cases convention with
          | legacy => simp
          | modern =>
              cases found : classHeader.find? source with
              | none => simp [toLegacy, found, eq_comm]
              | some header =>
                  cases clause : extendsBase.find? header.clauses.text with
                  | none => simp [toLegacy, found, clause]
                  | some base => simp [toLegacy, found, clause, eq_comm]

/-- Where bounds stand apart, the base that is found is the one that the class names. -/
theorem namesBase_iff
    (apart : ∀ header, classHeader.find? source = some header → BoundsApart header.body)
    {b : Text} :
    NamesBase source b ↔ ∃ header base, classHeader.find? source = some header ∧
      extendsBase.find? header.clauses.text = some base ∧ b = Text.trim base.text := by
  have own : ∀ header, classHeader.find? source = some header →
      (OwnBase header.body b ↔ ∃ base, extendsBase.find? header.clauses.text = some base ∧
        b = Text.trim base.text) := by
    intro header found
    rcases ClassHeader.exists_body found with ⟨angles, body, parted, noBrace⟩
    rw [body, parted.ownBase_iff (body ▸ apart header found),
      ← Matcher.find?_extendsBase_iff noBrace]
    apply exists_congr
    intro base
    apply and_congr_right
    intro clause
    have first := (Matcher.find?_extendsBase_iff noBrace).mp ⟨base, clause, rfl⟩
    rw [first.trim_eq, eq_comm]
  constructor
  · rintro ⟨header, found, named⟩
    rcases (own header found).mp named with ⟨base, clause, same⟩
    exact ⟨header, base, found, clause, same⟩
  · rintro ⟨header, base, found, clause, same⟩
    exact ⟨header, found, (own header found).mpr ⟨base, clause, same⟩⟩

/-- A conversion is refused for want of a convention exactly if the source shows none,
and for its base class exactly if a modern source is wanted in the legacy convention
and its class names a base; otherwise it succeeds. -/
theorem convert_refusals
    (headed : ofSource? source = some modern → wanted = legacy → classHeader.find? source ≠ none)
    (apart : ∀ header, classHeader.find? source = some header → BoundsApart header.body) :
    (convert style target wanted source = .error .unrecognizedConvention ↔
      ofSource? source = none) ∧
      (∀ b, convert style target wanted source = .error (.incompatibleBaseClass b) ↔
        ofSource? source = some modern ∧ wanted = legacy ∧ NamesBase source b) ∧
      ((∃ t, convert style target wanted source = .ok t) ↔ ofSource? source ≠ none ∧
        ¬ (ofSource? source = some modern ∧ wanted = legacy ∧ ∃ b, NamesBase source b)) := by
  have unrecognized : convert style target wanted source = .error .unrecognizedConvention ↔
      ofSource? source = none := by
    rw [convert_eq_error_iff]
    constructor
    · rintro (⟨-, none | ⟨shown, isLegacy, none⟩⟩ | ⟨-, -, header, base, -, -, same⟩)
      · exact none
      · exact absurd none (headed shown isLegacy)
      · cases same
    · exact fun none => Or.inl ⟨rfl, Or.inl none⟩
  have incompatible : ∀ b, convert style target wanted source = .error (.incompatibleBaseClass b) ↔
        ofSource? source = some modern ∧ wanted = legacy ∧ NamesBase source b := by
    intro b
    rw [convert_eq_error_iff, namesBase_iff apart]
    constructor
    · rintro (⟨same, -⟩ | ⟨shown, isLegacy, header, base, found, clause, same⟩)
      · cases same
      · exact ⟨shown, isLegacy, header, base, found, clause, Refusal.incompatibleBaseClass.inj same⟩
    · rintro ⟨shown, isLegacy, header, base, found, clause, rfl⟩
      exact Or.inr ⟨shown, isLegacy, header, base, found, clause, rfl⟩
  refine ⟨unrecognized, incompatible, ?_⟩
  constructor
  · rintro ⟨t, done⟩
    refine ⟨fun none => ?_, ?_⟩
    · rw [unrecognized.mpr none] at done
      cases done
    · rintro ⟨shown, isLegacy, b, named⟩
      rw [(incompatible b).mpr ⟨shown, isLegacy, named⟩] at done
      cases done
  · rintro ⟨recognized, noBase⟩
    cases answer : convert style target wanted source with
    | ok t => exact ⟨t, rfl⟩
    | error refusal =>
        rcases convert_eq_error_iff.mp answer with
          ⟨rfl, -⟩ | ⟨shown, isLegacy, header, base, found, clause, rfl⟩
        · exact absurd (unrecognized.mp answer) recognized
        · exact absurd ⟨shown, isLegacy, _, ((incompatible _).mp answer).2.2⟩ noBase

theorem convert_refusals_bounded :
    let source :=
      "import org.junit.Test;\npublic class ATest<T extends Comparable<T>> extends Base \x7b\n\x7d\n".toList
    ofSource? source = some modern ∧ classHeader.find? source ≠ none ∧
      (∀ header, classHeader.find? source = some header → BoundsApart header.body) ∧
      NamesBase source "Base".toList := by
  intro source
  have shown : ofSource? source = some modern := by decide +kernel
  have headed : classHeader.find? source ≠ none := by
    rw [Option.ne_none_iff_isSome]
    decide +kernel
  have bounds : (classHeader.find? source).any (fun header => Matcher.areBoundsApart header.body) =
      true := by
    decide +kernel
  have apart : ∀ header, classHeader.find? source = some header → BoundsApart header.body := by
    intro header found
    rw [found] at bounds
    exact Matcher.boundsApart_of_areBoundsApart bounds
  have refused : convert TestStyle.modern none legacy source =
      .error (.incompatibleBaseClass "Base".toList) := by
    decide +kernel
  exact ⟨shown, headed, apart,
    (((convert_refusals fun _ _ => headed) apart).2.1 _ |>.mp refused).2.2⟩

/-- The bound of a wildcard is taken for the base of a class that names none, and a
source of marked methods shows a convention but has no class to convert. -/
theorem convert_refused_beside_bound :
    convert TestStyle.modern none legacy
        "import org.junit.Test;\npublic class ATest implements Comparable<Box<? extends Foo>> \x7b\n\x7d\n".toList =
      .error (.incompatibleBaseClass "Foo".toList) ∧
    ofSource? "@Test\nvoid a() \x7b\n\x7d\n".toList = some modern ∧
    convert TestStyle.modern none legacy "@Test\nvoid a() \x7b\n\x7d\n".toList =
      .error .unrecognizedConvention := by
  decide +kernel

end Convention
end Testwright
