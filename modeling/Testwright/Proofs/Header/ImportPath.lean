import Mathlib.Data.List.Forall2
import Testwright.Proofs.Header.ImportReading
import Testwright.Proofs.Header.Presence

namespace Testwright

/-!
# Imports as paths

An import says whether it is static and which segments its path has.  It may be spelled
with any blanks and line breaks behind the keywords and around the dots, and all its
spellings have one canonical line (`Spells.exists_wording`).  Different imports have
different lines (`eq_of_line_eq`), even where a segment is the word `static`, because a
space stands in a line behind the keywords only.  So a source has an import exactly if
a statement of its header spells that import and no other one
(`containsImport_iff_exists_spelled`).
-/

open HeaderStatement (IsName IsStaticLead IsStep IsWording canonicalText keyword ofSource)
open Text (Blank unspaced)

instance HeaderStatement.decidableIsName (w : Text) : Decidable (IsName w) :=
  inferInstanceAs (Decidable (w ≠ [] ∧ ∀ c ∈ w, Character.isNamePart c = true))

/-- An import by what it says.  The first segment is a name, and each of the others is a
name or an asterisk. -/
@[ext]
structure ImportPath where
  isStatic : Bool
  first : Text
  others : List Text
  isName_first : IsName first
  isSegment : ∀ w ∈ others, IsName w ∨ w = ['*']

namespace ImportPath

/-- The segment behind its dot, with blanks around the dot. -/
def SpellsSegment (segment s : Text) : Prop :=
  ∃ gap gap', s = gap ++ '.' :: (gap' ++ segment) ∧ Blank gap ∧ Blank gap'

/-- The word `static` with blanks behind it, or nothing. -/
def SpellsLead (isStatic : Bool) (lead : Text) : Prop :=
  if isStatic then ∃ gap, lead = "static".toList ++ gap ∧ gap ≠ [] ∧ Blank gap else lead = []

/-- The text spells the import, whatever blanks are in it. -/
def Spells (path : ImportPath) (s : Text) : Prop :=
  ∃ gap lead steps gap',
    s = "import".toList ++
      (gap ++ (lead ++ (path.first ++ (List.flatten steps ++ (gap' ++ [';']))))) ∧
    gap ≠ [] ∧ Blank gap ∧ SpellsLead path.isStatic lead ∧
    List.Forall₂ SpellsSegment path.others steps ∧ Blank gap'

/-- The segments with a dot between each two. -/
def dotted (path : ImportPath) : Text :=
  path.first ++ path.others.flatMap fun segment => '.' :: segment

/-- The import as a class surface lists it. -/
def declared (path : ImportPath) : Text :=
  (if path.isStatic then "static ".toList else []) ++ path.dotted

/-- The import in its canonical spelling. -/
def line (path : ImportPath) : Text :=
  "import ".toList ++ path.declared ++ [';']

/-! ## Spellings are wordings -/

theorem visible_of_isSegment {w : Text} (isSegment : IsName w ∨ w = ['*']) : Text.Visible w := by
  rcases isSegment with isName | rfl
  · exact HeaderStatement.visible_of_isName isName
  · decide

theorem unspaced_of_spellsSegments {segments steps : List Text}
    (each : ∀ w ∈ segments, IsName w ∨ w = ['*'])
    (spelled : List.Forall₂ SpellsSegment segments steps) :
    (∀ s ∈ steps, IsStep s) ∧ unspaced (List.flatten steps) = segments.flatMap fun w =>
      '.' :: w := by
  induction spelled with
  | nil => exact ⟨by simp, rfl⟩
  | @cons w s segments steps here _ ih =>
      rcases here with ⟨gap, gap', rfl, blank, blank'⟩
      rcases List.forall_mem_cons.mp each with ⟨isSegment, others⟩
      rcases ih others with ⟨isStep, bare⟩
      have visible := visible_of_isSegment isSegment
      have step : unspaced (gap ++ (['.'] ++ (gap' ++ w))) = '.' :: w := by
        rw [Text.unspaced_append, Text.unspaced_append, Text.unspaced_append,
          Text.unspaced_of_blank blank, Text.unspaced_of_blank blank',
          Text.unspaced_of_visible visible, Text.unspaced_of_visible (by decide)]
        rfl
      refine ⟨List.forall_mem_cons.mpr ⟨⟨gap, gap', w, rfl, blank, blank', isSegment⟩, isStep⟩, ?_⟩
      rw [List.flatten_cons, Text.unspaced_append, bare, List.flatMap_cons]
      exact congrArg (· ++ _) step

theorem exists_segments {steps : List Text} (each : ∀ s ∈ steps, IsStep s) :
    ∃ segments, (∀ w ∈ segments, IsName w ∨ w = ['*']) ∧
      List.Forall₂ SpellsSegment segments steps := by
  induction steps with
  | nil => exact ⟨[], by simp, .nil⟩
  | cons s steps ih =>
      rcases List.forall_mem_cons.mp each with
        ⟨⟨gap, gap', w, shape, blank, blank', isSegment⟩, others⟩
      rcases ih others with ⟨segments, isSegments, spelled⟩
      exact ⟨w :: segments, List.forall_mem_cons.mpr ⟨isSegment, isSegments⟩,
        .cons ⟨gap, gap', shape, blank, blank'⟩ spelled⟩

theorem spellsLead_iff {isStatic : Bool} {lead : Text} :
    SpellsLead isStatic lead ↔ IsStaticLead lead ∧ (lead = [] ↔ isStatic = false) := by
  cases isStatic with
  | false =>
      exact ⟨fun none => ⟨Or.inl none, iff_of_true none rfl⟩, fun spelled => spelled.2.mpr rfl⟩
  | true =>
      constructor
      · intro spelled
        rcases spelled with ⟨gap, rfl, some, blank⟩
        exact ⟨Or.inr ⟨gap, rfl, some, blank⟩, by simp⟩
      · rintro ⟨none | spelled, bare⟩
        · exact absurd (bare.mp none) (by decide)
        · exact spelled

/-- Every spelling of an import is a statement with the canonical line of the import. -/
theorem Spells.exists_wording {path : ImportPath} {s : Text} (h : path.Spells s) :
    ∃ text, IsWording true text s ∧ canonicalText true text = path.line := by
  rcases h with ⟨gap, lead, steps, gap', rfl, some, blank, spelled, segments, blank'⟩
  rcases spellsLead_iff.mp spelled with ⟨isLead, bare⟩
  rcases unspaced_of_spellsSegments path.isSegment segments with ⟨isStep, unspaced⟩
  refine ⟨lead ++ (path.first ++ List.flatten steps),
    ⟨gap, gap', by simp [keyword], some, blank, blank', lead, path.first, steps, rfl, isLead,
      path.isName_first, isStep⟩, ?_⟩
  have static : (if lead = [] then [] else "static ".toList) =
      if path.isStatic then "static ".toList else [] := by
    cases isStatic : path.isStatic with
    | false => rw [if_pos (bare.mpr isStatic), if_neg Bool.false_ne_true]
    | true => rw [if_neg fun none => by simp [isStatic] at bare; exact bare none, if_pos rfl]
  rw [canonicalText, HeaderStatement.canonicalPath_of_parts isLead path.isName_first isStep,
    unspaced, static]
  rfl

/-- Every import statement spells some import. -/
theorem exists_spells {text s : Text} (h : IsWording true text s) :
    ∃ path : ImportPath, path.Spells s := by
  rcases h with ⟨gap, gap', rfl, some, blank, blank', lead, name, steps, rfl, isLead, isName, each⟩
  rcases exists_segments each with ⟨segments, isSegment, spelled⟩
  refine ⟨⟨!lead.isEmpty, name, segments, isName, isSegment⟩, gap, lead, steps, gap',
    by simp [keyword], some, blank, spellsLead_iff.mpr ⟨isLead, by simp⟩, spelled, blank'⟩

/-! ## Different imports have different lines -/

theorem dot_not_mem_of_isSegment {w : Text} (isSegment : IsName w ∨ w = ['*']) : '.' ∉ w := by
  rcases isSegment with isName | rfl
  · exact fun member => absurd (isName.2 '.' member) (by decide)
  · decide

theorem splitOn_dots {first : Text} {others : List Text} (each : ∀ w ∈ first :: others, '.' ∉ w) :
    Text.splitOn (· == '.') (first ++ others.flatMap fun w => '.' :: w) = first :: others := by
  induction others generalizing first with
  | nil => simpa using Text.splitOn_of_not_mem (each first List.mem_cons_self)
  | cons w others ih =>
      rcases List.forall_mem_cons.mp each with ⟨here, later⟩
      have cut : first ++ (w :: others).flatMap (fun w => '.' :: w) =
          first ++ '.' :: (w ++ others.flatMap fun w => '.' :: w) := rfl
      rw [cut, Text.splitOn_append_cons (by decide), Text.splitOn_of_not_mem here, ih later]
      rfl

/-- The segments are read off the path. -/
theorem splitOn_dotted (path : ImportPath) :
    Text.splitOn (· == '.') path.dotted = path.first :: path.others :=
  splitOn_dots (List.forall_mem_cons.mpr
    ⟨dot_not_mem_of_isSegment (Or.inl path.isName_first),
      fun w member => dot_not_mem_of_isSegment (path.isSegment w member)⟩)

theorem visible_dotted (path : ImportPath) : Text.Visible path.dotted := by
  refine List.forall_mem_append.mpr ⟨HeaderStatement.visible_of_isName path.isName_first,
    fun c member => ?_⟩
  rcases List.mem_flatMap.mp member with ⟨w, isOne, inside⟩
  rcases List.mem_cons.mp inside with rfl | inside
  · decide
  · exact visible_of_isSegment (path.isSegment w isOne) c inside

/-- A path has no space, so a space in front of it is that of the word `static`. -/
theorem space_not_mem_dotted (path : ImportPath) : ' ' ∉ path.dotted :=
  fun member => absurd (path.visible_dotted ' ' member) (by decide)

theorem eq_of_line_eq {path path' : ImportPath} (same : path.line = path'.line) : path = path' := by
  have targets : path.declared = path'.declared :=
    List.append_cancel_left (List.append_cancel_right same)
  have leads : ∀ {p q : ImportPath}, "static ".toList ++ p.dotted ≠ q.dotted := fun {p q} whole =>
    space_not_mem_dotted q (by rw [← whole]; exact List.mem_append_left _ (by decide))
  have parts : path.isStatic = path'.isStatic ∧ path.dotted = path'.dotted := by
    cases isStatic : path.isStatic <;> cases isStatic' : path'.isStatic <;>
      simp only [declared, isStatic, isStatic', if_true, Bool.false_eq_true, if_false,
        List.nil_append] at targets
    · exact ⟨rfl, targets⟩
    · exact absurd targets.symm leads
    · exact absurd targets leads
    · exact ⟨rfl, List.append_cancel_left targets⟩
  have segments := congrArg (Text.splitOn (· == '.')) parts.2
  rw [splitOn_dotted, splitOn_dotted] at segments
  rcases List.cons.inj segments with ⟨first, others⟩
  exact ImportPath.ext parts.1 first others

/-- A text spells one import at most. -/
theorem Spells.unique {path path' : ImportPath} {s : Text} (h : path.Spells s)
    (h' : path'.Spells s) :
    path = path' := by
  rcases h.exists_wording with ⟨text, wording, canonical⟩
  rcases h'.exists_wording with ⟨text', wording', canonical'⟩
  rcases Header.wording_unique wording wording' (r := []) rfl with ⟨-, rfl, -⟩
  exact eq_of_line_eq (canonical.symm.trans canonical')

end ImportPath

namespace Header

/-- A source has an import exactly if a statement of its header spells it and no other,
however the statement and the line that asks for it are spaced. -/
theorem containsImport_iff_exists_spelled {wanted : ImportPath} {line : Text}
    (spelled : wanted.Spells (Text.trim line)) (source : Text) :
    containsImport source line = true ↔ ∃ statement ∈ ofSource source, statement.isImport = true ∧
      ∀ path : ImportPath, path.Spells (statement.wording source) ↔ path = wanted := by
  rcases spelled.exists_wording with ⟨text, wording, canonical⟩
  have asked : containsImport source line = (ofSource source).any fun statement =>
      statement.text == wanted.line := by
    rw [containsImport, HeaderStatement.ofLine?_of_isWording wording, canonical]
  rw [asked, List.any_eq_true]
  refine exists_congr fun statement => and_congr_right fun member => ?_
  rcases HeaderStatement.exists_isWording_of_mem_ofSource member with ⟨text', wording', canonical'⟩
  rw [beq_iff_eq, canonical']
  constructor
  · intro same
    have isImport : statement.isImport = true := by
      cases kind : statement.isImport with
      | true => rfl
      | false =>
          rw [kind] at same
          exact absurd (List.cons.inj same).1 (by decide)
    rw [isImport] at wording' same
    rcases ImportPath.exists_spells wording' with ⟨found, spells⟩
    rcases spells.exists_wording with ⟨text₁, wording₁, canonical₁⟩
    rcases wording_unique wording' wording₁ (r := []) rfl with ⟨-, rfl, -⟩
    obtain rfl : found = wanted := ImportPath.eq_of_line_eq (canonical₁.symm.trans same)
    exact ⟨isImport, fun path => ⟨fun other => other.unique spells, fun equal => equal ▸ spells⟩⟩
  · rintro ⟨isImport, spells⟩
    rcases ((spells wanted).mpr rfl).exists_wording with ⟨text₁, wording₁, canonical₁⟩
    rcases wording_unique wording' wording₁ (r := []) rfl with ⟨-, rfl, -⟩
    rw [isImport, canonical₁]

theorem containsImport_iff_exists_spelled_static :
    let wanted : ImportPath :=
      ⟨true, "static".toList, ["pkg$1".toList, "Assert".toList, ['*']], by decide, by decide⟩
    let line := " import\tstatic static. pkg$1 .Assert.*\n;".toList
    let source :=
      "package a;import x;import static\u00a0static\n.pkg$1.\tAssert . *;class T \x7b \x7d".toList
    wanted.Spells (Text.trim line) ∧ containsImport source line = true ∧
      ∃ statement ∈ ofSource source, statement.isImport = true ∧
        ∀ path : ImportPath, path.Spells (statement.wording source) ↔ path = wanted := by
  intro wanted line source
  have spelled : wanted.Spells (Text.trim line) := by
    refine ⟨['\t'], "static ".toList, [". pkg$1".toList, " .Assert".toList, ".*".toList], ['\n'],
      by decide, by decide, by decide, ⟨[' '], by decide, by decide, by decide⟩, ?_, by decide⟩
    exact .cons ⟨[], [' '], by decide, by decide, by decide⟩
      (.cons ⟨[' '], [], by decide, by decide, by decide⟩
      (.cons ⟨[], [], by decide, by decide, by decide⟩ .nil))
  have present : containsImport source line = true := by decide +kernel
  exact ⟨spelled, present, (containsImport_iff_exists_spelled spelled source).mp present⟩

end Header
end Testwright
