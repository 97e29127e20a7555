import Testwright.Proofs.Declaration.Accessor

namespace Testwright

/-!
# What a search for a private field finds

A private field is looked for by a pattern made of its type and name.  What the pattern
reads is described here by itself: a type is laid out as its names, arguments and
dimensions in their order, each name behind any qualification and with blanks around
every sign (`TypeTree.IsLayout`).  A text shows the field if such a layout stands
between the word `private` and the name, with or without more type arguments behind
the layout (`Text.ShowsPrivateField`).  The search finds the field in exactly the
texts that show it, if the library compiles the pattern (`findsField_iff`).  No
library with a limit on the pattern does so for all types
(`exists_shown_not_found`).

The pattern has blanks in front of each sign but behind a closing bracket, where a
layout may have them as well.  They belong to whatever comes next, so in one direction
a layout is split into what the pattern reads and the blanks behind that.
-/

open Character (isBlank isNamePart isWord)
open Text (Blank)

/-! ## Layouts -/

namespace Text

/-- The mark, with blanks on both sides or not. -/
def IsAround (mark : Char) (t : Text) : Prop :=
  ∃ gap gap', t = gap ++ mark :: gap' ∧ Blank gap ∧ Blank gap'

/-- The text has blanks in the place of each space of the word. -/
inductive IsWidened : Text → Text → Prop
  | nil : IsWidened [] []
  | space {gap word t : Text} (blank : Blank gap) (some : gap ≠ []) (rest : IsWidened word t) :
      IsWidened (' ' :: word) (gap ++ t)
  | char {c : Char} {word t : Text} (other : c ≠ ' ') (rest : IsWidened word t) :
      IsWidened (c :: word) (c :: t)

/-- Names, each with a dot behind it. -/
inductive IsQualification : Text → Prop
  | none : IsQualification []
  | name {name t : Text} (parts : ∀ c ∈ name, isNamePart c = true) (some : name ≠ [])
      (rest : IsQualification t) : IsQualification (name ++ '.' :: t)

end Text

namespace TypeTree

/-- The last part of the name, behind any qualification. -/
def IsNameLayout (name t : Text) : Prop :=
  ∃ front last, t = front ++ last ∧ Text.IsQualification front ∧
    Text.IsWidened (Text.afterLast '.' name) last

/-- This many bracket pairs, with blanks before and inside each. -/
inductive IsBracketLayout : Nat → Text → Prop
  | none : IsBracketLayout 0 []
  | pair {dimensions : Nat} {gap gap' t : Text} (blank : Blank gap) (blank' : Blank gap')
      (rest : IsBracketLayout dimensions t) :
        IsBracketLayout (dimensions + 1) (gap ++ '[' :: (gap' ++ ']' :: t))

mutual

/-- A type, laid out as in a source. -/
inductive IsLayout : TypeTree → Text → Prop
  | plain {name token n b : Text} {dimensions : Nat} (inName : IsNameLayout name n)
      (inBrackets : IsBracketLayout dimensions b) : IsLayout ⟨name, [], dimensions, token⟩ (n ++ b)
  | generic {name token n o a c b : Text} {first : TypeTree} {rest : List TypeTree}
      {dimensions : Nat}
      (inName : IsNameLayout name n) (opens : Text.IsAround '<' o)
        (inArguments : AreLayouts first rest a)
      (closes : Text.IsAround '>' c) (inBrackets : IsBracketLayout dimensions b) :
      IsLayout ⟨name, first :: rest, dimensions, token⟩ (n ++ (o ++ (a ++ (c ++ b))))

/-- A type and others, a comma between each two. -/
inductive AreLayouts : TypeTree → List TypeTree → Text → Prop
  | last {type : TypeTree} {t : Text} (here : IsLayout type t) : AreLayouts type [] t
  | next {type second : TypeTree} {rest : List TypeTree} {t comma a : Text} (here : IsLayout type t)
      (parts : Text.IsAround ',' comma) (others : AreLayouts second rest a) :
      AreLayouts type (second :: rest) (t ++ (comma ++ a))

end

end TypeTree

namespace Text

/-- Type arguments of any form, with blanks in front or not. -/
def IsArgumentSuffix (t : Text) : Prop :=
  ∃ gap inner, t = gap ++ '<' :: (inner ++ ['>']) ∧ Blank gap ∧
    ∀ c ∈ inner, isWord c = true ∨ isBlank c = true ∨ c ∈ "$.,<>?[]".toList

/-- The text has the word `private`, the type and the name in a row, parted by blanks,
and no word character behind the name. -/
def ShowsPrivateField (t : Text) (type : TypeTree) (field : Text) : Prop :=
  ∃ front gap layout suffix gap' rest,
    t = front ++ ("private".toList ++ (gap ++ (layout ++ (suffix ++ (gap' ++ (field ++ rest)))))) ∧
    Blank gap ∧ gap ≠ [] ∧ type.IsLayout layout ∧ (suffix = [] ∨ IsArgumentSuffix suffix) ∧
    Blank gap' ∧ gap' ≠ [] ∧ ∀ c ∈ rest.head?, isWord c = false

end Text

namespace Matcher

open Text (IsAround IsArgumentSuffix IsQualification IsWidened ShowsPrivateField)
open TypeTree (AreLayouts IsBracketLayout IsLayout IsNameLayout)

theorem isFieldArgumentPart_iff {c : Char} :
    isFieldArgumentPart c = true ↔ isWord c = true ∨ isBlank c = true ∨ c ∈ "$.,<>?[]".toList := by
  have signs : "$.,<>?[]".toList = ['$', '.', ',', '<', '>', '?', '[', ']'] := by decide
  simp only [isFieldArgumentPart, Character.isDottedPart, isNamePart, signs, Bool.or_eq_true,
    beq_iff_eq, List.contains_iff_mem, List.mem_cons]
  tauto

/-! ## What the pattern reads is laid out -/

theorem takes_spacedWord (w : Text) : Takes (spacedWord w) (IsWidened w) := by
  induction w with
  | nil => exact (takes_pure ()).mono fun s empty => empty ▸ .nil
  | cons c w ih =>
      rw [spacedWord]
      split
      · next isSpace =>
          refine ((takes_runs1 isBlank).bind fun _ => ih).mono ?_
          rintro s ⟨gap, t, rfl, ⟨some, blank⟩, widened⟩
          exact isSpace ▸ .space blank some widened
      · next other =>
          refine ((takes_char c).bind fun _ => ih).mono ?_
          rintro s ⟨_, t, rfl, rfl, widened⟩
          exact .char other widened

theorem takes_qualifiers_many : Takes (many qualifier) IsQualification := by
  have one := (takes_run1 isNamePart).bind fun _ => takes_char '.'
  refine (Takes.many one).mono ?_
  rintro s ⟨rounds, rfl, all⟩
  induction rounds with
  | nil => exact .none
  | cons round rounds ih =>
      rcases List.forall_mem_cons.mp all with ⟨⟨name, _, rfl, ⟨some, parts⟩, rfl⟩, others⟩
      rw [List.flatten_cons, List.append_assoc]
      exact .name parts some (ih others)

theorem takes_nameLayout (name : Text) : Takes (nameLayout name) (IsNameLayout name) := by
  refine (takes_qualifiers_many.bind fun _ => takes_spacedWord (Text.afterLast '.' name)).mono ?_
  rintro s ⟨front, last, rfl, qualifies, widened⟩
  exact ⟨front, last, rfl, qualifies, widened⟩

theorem takes_bracketsLayout (dimensions : Nat) :
    Takes (bracketsLayout dimensions) (IsBracketLayout dimensions) := by
  induction dimensions with
  | zero => exact (takes_pure ()).mono fun s empty => empty ▸ .none
  | succ dimensions ih =>
      refine ((takes_runs isBlank).bind fun _ => (takes_char '[').bind fun _ =>
        (takes_runs isBlank).bind fun _ =>
        (takes_char ']').bind fun _ => ih).mono ?_
      rintro s ⟨gap, _, rfl, blank, _, _, rfl, rfl, gap', _, rfl, blank', _, t, rfl, rfl, rest⟩
      exact .pair blank blank' rest

mutual

theorem takes_typeLayout : (type : TypeTree) → Takes (typeLayout type) (IsLayout type)
  | ⟨name, [], dimensions, token⟩ => by
      rw [typeLayout]
      refine ((takes_nameLayout name).bind fun _ => takes_bracketsLayout dimensions).mono ?_
      rintro s ⟨n, b, rfl, inName, inBrackets⟩
      exact .plain inName inBrackets
  | ⟨name, first :: rest, dimensions, token⟩ => by
      rw [typeLayout]
      refine ((takes_nameLayout name).bind fun _ => (takes_runs isBlank).bind fun _ =>
        (takes_char '<').bind fun _ =>
        (takes_runs isBlank).bind fun _ => (takes_typeLayout first).bind fun _ =>
        (takes_typeLayoutRest rest).bind fun _ => (takes_runs isBlank).bind fun _ =>
          (takes_char '>').bind fun _ =>
        takes_bracketsLayout dimensions).mono ?_
      rintro s ⟨n, _, rfl, inName, gap₁, _, rfl, blank₁, _, _, rfl, rfl, gap₂, _, rfl, blank₂, a,
        _, rfl, here, r, _, rfl, others, gap₃, _, rfl, blank₃, _, b, rfl, rfl, inBrackets⟩
      have opens : IsAround '<' (gap₁ ++ '<' :: gap₂) := ⟨gap₁, gap₂, rfl, blank₁, blank₂⟩
      have closes : IsAround '>' (gap₃ ++ ['>']) := ⟨gap₃, [], rfl, blank₃, Text.blank_nil⟩
      simpa using IsLayout.generic inName opens (others here) closes inBrackets

theorem takes_typeLayoutRest : (types : List TypeTree) →
    Takes (typeLayoutRest types) fun s => ∀ {first t},
    IsLayout first t → AreLayouts first types (t ++ s)
  | [] => by
      rw [typeLayoutRest]
      refine (takes_pure ()).mono ?_
      rintro s rfl first t here
      rw [List.append_nil]
      exact .last here
  | type :: types => by
      rw [typeLayoutRest]
      refine ((takes_runs isBlank).bind fun _ => (takes_char ',').bind fun _ =>
        (takes_runs isBlank).bind fun _ =>
        (takes_typeLayout type).bind fun _ => takes_typeLayoutRest types).mono ?_
      rintro s ⟨gap, _, rfl, blank, _, _, rfl, rfl, gap', _, rfl, blank', a, r, rfl, second, others⟩
        first t here
      have parts : IsAround ',' (gap ++ ',' :: gap') := ⟨gap, gap', rfl, blank, blank'⟩
      simpa using AreLayouts.next here parts (others second)

end

/-! ## What is laid out, the pattern reads -/

theorem accepts_spacedWord_of_isWidened {w t : Text} (widened : IsWidened w t) :
    Accepts (spacedWord w) t := by
  induction widened with
  | nil => exact accepts_pure
  | space blank some _ ih => exact accepts_spacedWord_space blank some ih
  | char other _ ih =>
      rw [spacedWord, if_neg other]
      exact (accepts_char _).bind ih

theorem accepts_qualifiers {t : Text} (qualifies : IsQualification t) :
    Accepts (many qualifier) t := by
  induction qualifies with
  | none => exact accepts_many_nil consumes_qualifier
  | @name name t parts some _ ih =>
      have whole := (accepts_qualifier parts some).many_append consumes_qualifier ih
      rwa [List.append_assoc] at whole

theorem accepts_nameLayout_of_isNameLayout {name t : Text} (laidOut : IsNameLayout name t) :
    Accepts (nameLayout name) t := by
  rcases laidOut with ⟨front, last, rfl, qualifies, widened⟩
  exact (accepts_qualifiers qualifies).bind (accepts_spacedWord_of_isWidened widened)

/-- The layout is what the pattern reads and blanks behind it. -/
def AcceptsFront (m : Matcher Unit) (t : Text) : Prop :=
  ∃ read gap, t = read ++ gap ∧ Blank gap ∧ Accepts m read

theorem acceptsFront_bracketsLayout {dimensions : Nat} {b : Text}
    (laidOut : IsBracketLayout dimensions b) {gap : Text} (blank : Blank gap) :
    AcceptsFront (bracketsLayout dimensions) (gap ++ b) := by
  induction laidOut generalizing gap with
  | none => exact ⟨[], gap, by simp, blank, accepts_pure⟩
  | @pair dimensions gap₁ gap₂ t blank₁ blank₂ rest ih =>
      rcases ih Text.blank_nil with ⟨read, last, whole, blankLast, accepts⟩
      rw [List.nil_append] at whole
      refine ⟨(gap ++ gap₁) ++ (['['] ++ (gap₂ ++ ([']'] ++ read))), last, by simp [whole],
        blankLast, ?_⟩
      exact (accepts_runs (blank.append blank₁)).bind
        ((accepts_char '[').bind ((accepts_runs blank₂).bind
        ((accepts_char ']').bind accepts)))

mutual

theorem acceptsFront_typeLayout : (type : TypeTree) → {t : Text} → IsLayout type t →
    AcceptsFront (typeLayout type) t
  | ⟨name, [], dimensions, token⟩, t, laidOut => by
      cases laidOut with
      | @plain _ _ n b _ inName inBrackets =>
          rcases acceptsFront_bracketsLayout inBrackets Text.blank_nil with
            ⟨read, gap, rfl, blank, accepts⟩
          rw [typeLayout]
          exact ⟨n ++ read, gap, by simp, blank,
            (accepts_nameLayout_of_isNameLayout inName).bind accepts⟩
  | ⟨name, first :: rest, dimensions, token⟩, t, laidOut => by
      cases laidOut with
      | @generic _ _ n _ a _ b _ _ _ inName opens inArguments closes inBrackets =>
          rcases opens with ⟨gap₁, gap₂, rfl, blank₁, blank₂⟩
          rcases closes with ⟨gap₃, gap₄, rfl, blank₃, blank₄⟩
          rcases acceptsFront_typeLayoutRest rest inArguments with ⟨w, r, rfl, here, behind⟩
          rcases acceptsFront_typeLayout first here with ⟨read, gap, rfl, blank, accepts⟩
          rcases behind blank with ⟨readRest, gap', rest, blank', acceptsRest⟩
          rcases acceptsFront_bracketsLayout inBrackets blank₄ with
            ⟨readLast, last, atEnd, blankLast, acceptsLast⟩
          refine ⟨n ++ (gap₁ ++ (['<'] ++
              (gap₂ ++ (read ++ (readRest ++ ((gap' ++ gap₃) ++ (['>'] ++ readLast))))))),
            last, ?_, blankLast, ?_⟩
          · calc n ++ (gap₁ ++ '<' :: gap₂ ++ (read ++ gap ++ r ++ (gap₃ ++ '>' :: gap₄ ++ b)))
                = n ++ (gap₁ ++ '<' :: (gap₂ ++
                    (read ++ ((gap ++ r) ++ (gap₃ ++ '>' :: (gap₄ ++ b)))))) := by simp
              _ = _ := by rw [rest, atEnd]; simp
          · rw [typeLayout]
            exact (accepts_nameLayout_of_isNameLayout inName).bind ((accepts_runs blank₁).bind
              ((accepts_char '<').bind ((accepts_runs blank₂).bind (accepts.bind (acceptsRest.bind
                ((accepts_runs (blank'.append blank₃)).bind
                  ((accepts_char '>').bind acceptsLast)))))))

theorem acceptsFront_typeLayoutRest : (types : List TypeTree) → {first : TypeTree} → {t : Text} →
    AreLayouts first types t → ∃ w r, t = w ++ r ∧ IsLayout first w ∧
      ∀ {gap : Text}, Blank gap → AcceptsFront (typeLayoutRest types) (gap ++ r)
  | [], first, t, laidOut => by
      cases laidOut with
      | last here =>
          refine ⟨t, [], by simp, here, fun {gap} blank => ?_⟩
          rw [typeLayoutRest]
          exact ⟨[], gap, by simp, blank, accepts_pure⟩
  | type :: types, first, t, laidOut => by
      cases laidOut with
      | @next _ _ _ t _ _ here parts others =>
          rcases parts with ⟨gap₁, gap₂, rfl, blank₁, blank₂⟩
          rcases acceptsFront_typeLayoutRest types others with ⟨w, r, rfl, second, behind⟩
          rcases acceptsFront_typeLayout type second with ⟨read, gap, rfl, blank, accepts⟩
          rcases behind blank with ⟨readRest, last, whole, blankLast, acceptsRest⟩
          refine ⟨t, _, rfl, here, fun {gap₀} blank₀ => ?_⟩
          refine ⟨(gap₀ ++ gap₁) ++ ([','] ++ (gap₂ ++ (read ++ readRest))), last, ?_,
            blankLast, ?_⟩
          · calc gap₀ ++ (gap₁ ++ ',' :: gap₂ ++ (read ++ gap ++ r))
                = gap₀ ++ (gap₁ ++ ',' :: (gap₂ ++ (read ++ (gap ++ r)))) := by simp
              _ = _ := by rw [whole]; simp
          · rw [typeLayoutRest]
            exact (accepts_runs (blank₀.append blank₁)).bind
              ((accepts_char ',').bind ((accepts_runs blank₂).bind
              (accepts.bind acceptsRest)))

end

/-! ## The search -/

/-- Behind a word that ends with a word character, an edge stops it. -/
theorem exists_of_mem_word_edge {w : Text} (last : w.getLast?.any isWord = true)
    {place later : Place} (member : ((), later) ∈ (do word w; wordEdge : Matcher Unit) place) :
    ∃ rest, place.ahead = w ++ rest ∧ ∀ c ∈ rest.head?, isWord c = false := by
  rcases mem_bind.mp member with ⟨_, between, inWord, atEdge⟩
  rcases takes_word w place _ inWord with ⟨s, same, ahead, behind⟩
  rw [same] at ahead behind
  have edge : between.atWordEdge = true := (mem_require atEdge).2
  refine ⟨between.ahead, ahead, fun c first => ?_⟩
  have wordBehind : between.behind.head?.any isWord = true := by
    rw [behind, List.head?_append, List.head?_reverse]
    cases atEnd : w.getLast? with
    | none =>
        rw [atEnd] at last
        cases last
    | some d => simpa [atEnd] using last
  rw [Place.atWordEdge, wordBehind, Option.mem_def.mp first] at edge
  simpa using edge

theorem takes_argumentSuffix :
    Takes (maybe do runs isBlank; char '<'; runs isFieldArgumentPart; char '>')
      fun s => s = [] ∨ IsArgumentSuffix s := by
  refine ((takes_runs isBlank).bind fun _ => (takes_char '<').bind fun _ =>
    (takes_runs isFieldArgumentPart).bind fun _ => takes_char '>').maybe.mono ?_
  rintro s (⟨gap, _, rfl, blank, _, _, rfl, rfl, inner, _, rfl, all, rfl⟩ | empty)
  · exact .inr ⟨gap, inner, rfl, blank, fun c member => isFieldArgumentPart_iff.mp (all c member)⟩
  · exact .inl empty

/-- Blanks in front of more type arguments belong to them or to what comes behind. -/
theorem accepts_argumentSuffix {suffix : Text} (isSuffix : suffix = [] ∨ IsArgumentSuffix suffix)
    {gap : Text} (blank : Blank gap) {gap' : Text} (blank' : Blank gap') (some : gap' ≠ []) :
    Accepts (do
      maybe do
        runs isBlank
        char '<'
        runs isFieldArgumentPart
        char '>'
      runs1 isBlank) (gap ++ (suffix ++ gap')) := by
  rcases isSuffix with rfl | ⟨gap₁, inner, rfl, blank₁, all⟩
  · exact accepts_maybe_nil.bind (accepts_runs1 (blank.append blank') (by simp [some]))
  · have parts : ∀ c ∈ inner, isFieldArgumentPart c = true := fun c member =>
      isFieldArgumentPart_iff.mpr (all c member)
    have suffixed := ((accepts_runs (blank.append blank₁)).bind ((accepts_char '<').bind
      ((accepts_runs parts).bind (accepts_char '>')))).maybe
    simpa using suffixed.bind (accepts_runs1 blank' some)

theorem privateField_eq (type : TypeTree) (field : Text) :
    privateField type field = (do
      word "private".toList
      runs1 isBlank
      typeLayout type
      (do maybe do
            runs isBlank
            char '<'
            runs isFieldArgumentPart
            char '>'
          runs1 isBlank : Matcher Unit)
      word field
      wordEdge) := by
  simp only [privateField, bind_assoc]

/-- What the pattern finds, the text shows. -/
theorem showsPrivateField_of_occursIn {type : TypeTree} {field t : Text}
    (last : field.getLast?.any isWord = true)
    (found : (privateField type field).occursIn t = true) : t.ShowsPrivateField type field := by
  rcases occursIn_iff.mp found with ⟨x, y, rfl, reads⟩
  rcases List.exists_mem_of_ne_nil _ reads with ⟨⟨_, later⟩, member⟩
  unfold privateField at member
  rcases (takes_word _).exists_of_mem_bind member with ⟨_, _, place₁, rfl, ahead₁, member⟩
  rcases (takes_runs1 _).exists_of_mem_bind member with
    ⟨_, gap, place₂, ⟨some, blank⟩, ahead₂, member⟩
  rcases (takes_typeLayout type).exists_of_mem_bind member with
    ⟨_, layout, place₃, laidOut, ahead₃, member⟩
  rcases takes_argumentSuffix.exists_of_mem_bind member with
    ⟨_, suffix, place₄, isSuffix, ahead₄, member⟩
  rcases (takes_runs1 _).exists_of_mem_bind member with
    ⟨_, gap', place₅, ⟨some', blank'⟩, ahead₅, member⟩
  rcases exists_of_mem_word_edge last member with ⟨rest, ahead₆, edge⟩
  have whole : y =
      "private".toList ++ (gap ++ (layout ++ (suffix ++ (gap' ++ (field ++ rest))))) := by
    rw [← ahead₆, ← ahead₅, ← ahead₄, ← ahead₃, ← ahead₂]
    exact ahead₁
  exact ⟨x, gap, layout, suffix, gap', rest, by rw [whole], blank, some, laidOut, isSuffix,
    blank', some', edge⟩

/-- What the text shows, the pattern finds. -/
theorem occursIn_of_showsPrivateField {type : TypeTree} {field t : Text}
    (last : field.getLast?.any isWord = true) (shown : t.ShowsPrivateField type field) :
    (privateField type field).occursIn t = true := by
  rcases shown with
    ⟨front, gap, layout, suffix, gap', rest, rfl, blank, some, laidOut, isSuffix, blank',
      some', edge⟩
  rcases acceptsFront_typeLayout type laidOut with ⟨read, gap₀, rfl, blank₀, accepts⟩
  have stops : Stops isWord rest := by
    cases rest with
    | nil => rfl
    | cons c rest => exact edge c rfl
  have behind := accepts_argumentSuffix isSuffix blank₀ blank' some'
  have found : ((), ⟨field.reverse ++ ((gap₀ ++ (suffix ++ gap')).reverse ++ (read.reverse ++
      (gap.reverse ++ ("private".toList.reverse ++ front.reverse)))), rest⟩) ∈
      privateField type field ⟨front.reverse,
        "private".toList ++
          (gap ++ (read ++ ((gap₀ ++ (suffix ++ gap')) ++ (field ++ rest))))⟩ := by
    rw [privateField_eq]
    exact (accepts_word _).mem_bind ((accepts_runs1 blank some).mem_bind (accepts.mem_bind
      (behind.mem_bind (mem_word_edge last stops _))))
  exact occursIn_iff.mpr ⟨front, _, by simp, List.ne_nil_of_mem found⟩

end Matcher

namespace PatternLibrary

/-- The search finds a private field in exactly the texts that show it, if its name ends
with a word character and the library compiles the pattern. -/
theorem findsField_iff {library : PatternLibrary} {type : TypeTree} {field t : Text}
    (compiled : library.compiles (type.fieldPattern field) = true)
    (last : field.getLast?.any isWord = true) :
    library.findsField type field t = true ↔ t.ShowsPrivateField type field := by
  rw [findsField, compiled, Bool.true_and]
  exact ⟨Matcher.showsPrivateField_of_occursIn last, Matcher.occursIn_of_showsPrivateField last⟩

/-- Blanks around the signs do not hide a field, a longer name does. -/
theorem findsField_iff_counts :
    let type := (TypeTree.named "Map".toList).withArguments
      [.named "String".toList, .named "a.Count".toList]
    (within 1000).compiles (type.fieldPattern "counts".toList) = true ∧
      "counts".toList.getLast?.any isWord = true ∧
      Text.ShowsPrivateField "private Map< String ,b.Count >\n  counts;".toList type
        "counts".toList ∧
      ¬ Text.ShowsPrivateField "private Map<String,Count> countsAll;".toList type
        "counts".toList := by
  intro type
  have compiled : (within 1000).compiles (type.fieldPattern "counts".toList) = true := by
    decide +kernel
  have last : "counts".toList.getLast?.any isWord = true := by decide
  have inFirst : (within 1000).findsField type "counts".toList
      "private Map< String ,b.Count >\n  counts;".toList = true := by decide +kernel
  have notInSecond : ¬ (within 1000).findsField type "counts".toList
      "private Map<String,Count> countsAll;".toList = true := by decide +kernel
  refine ⟨compiled, last, (findsField_iff compiled last).mp inFirst, fun shown => ?_⟩
  exact notInSecond ((findsField_iff compiled last).mpr shown)

/-! ## Limits -/

theorem infix_fieldPattern (type : TypeTree) (field : Text) :
    TypeTree.bracketsPattern type.dimensions <:+: type.fieldPattern field := by
  have inType : TypeTree.bracketsPattern type.dimensions <:+ type.pattern := by
    rcases type with ⟨name, _ | ⟨first, rest⟩, dimensions, token⟩
    · rw [TypeTree.pattern]
      exact List.suffix_append _ _
    · rw [TypeTree.pattern]
      exact List.suffix_append _ _
  refine inType.isInfix.trans ?_
  unfold TypeTree.fieldPattern
  rw [List.append_assoc, List.append_assoc, List.append_assoc]
  exact List.infix_append' _ _ _

/-- Each dimension adds to the pattern. -/
theorem dimensions_le_length (type : TypeTree) (field : Text) :
    type.dimensions ≤ (type.fieldPattern field).length :=
  calc type.dimensions
      ≤ type.dimensions * 10 := Nat.le_mul_of_pos_right _ (by decide)
    _ = (TypeTree.bracketsPattern type.dimensions).length := by simp [TypeTree.bracketsPattern]
    _ ≤ (type.fieldPattern field).length := (infix_fieldPattern type field).length_le

/-- A library with a limit finds no field of more dimensions than that. -/
theorem findsField_within_of_lt {limit : Nat} {type : TypeTree} (large : limit < type.dimensions)
    (field t : Text) : (within limit).findsField type field t = false := by
  have long := dimensions_le_length type field
  have refused : (within limit).compiles (type.fieldPattern field) = false := by
    simp only [within, decide_eq_false_iff_not]
    omega
  rw [findsField, refused, Bool.false_and]

theorem isBracketLayout_brackets (dimensions : Nat) :
    TypeTree.IsBracketLayout dimensions (TypeTree.brackets dimensions) := by
  induction dimensions with
  | zero => exact .none
  | succ dimensions ih => exact .pair Text.blank_nil Text.blank_nil ih

theorem showsPrivateField_brackets (dimensions : Nat) :
    Text.ShowsPrivateField ("private A".toList ++ TypeTree.brackets dimensions ++ " f".toList)
      ((TypeTree.named ['A']).withDimensions dimensions) ['f'] := by
  have inName : TypeTree.IsNameLayout ['A'] ['A'] :=
    ⟨[], ['A'], rfl, .none, .char (by decide) .nil⟩
  have laidOut : ((TypeTree.named ['A']).withDimensions dimensions).IsLayout
      (['A'] ++ TypeTree.brackets dimensions) :=
    .plain inName (isBracketLayout_brackets dimensions)
  exact ⟨[], [' '], _, [], [' '], [], by simp, Text.blank_singleton (by decide), by decide, laidOut,
    Or.inl rfl, Text.blank_singleton (by decide), by decide, by simp⟩

/-- Whatever the limit of a library is, some text shows a field that it does not find. -/
theorem exists_shown_not_found (limit : Nat) :
    ∃ (type : TypeTree) (field t : Text), t.ShowsPrivateField type field ∧
      (within limit).findsField type field t = false :=
  ⟨_, _, _, showsPrivateField_brackets (limit + 1),
    findsField_within_of_lt (Nat.lt_succ_self limit) _ _⟩

end PatternLibrary
end Testwright
