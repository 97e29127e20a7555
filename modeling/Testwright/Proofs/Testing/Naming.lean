import Testwright.Proofs.Declaration.MethodReading
import Testwright.Proofs.Testing.Token
import Testwright.Testing.Plan

namespace Testwright
namespace TestPlan

/-!
# When the names of the tests differ

A method gets its plain name, or the qualified one if the plain one is taken.  The
qualified name is not checked again, and the names of the two fixed tests are not
among those that are taken.  For methods with plain parameter types this settles
when all names of a plan differ (`nodup_names_iff`): no method without parameters
has the name of a fixed test, and an overload behind another one of the same plain
name has a package in some parameter type.
-/

open Character (isAlphanumeric)
open TypeTree (hasPackage isPlain)

/-- What tells two methods of a class apart, type arguments aside. -/
def erasure (method : Method) : Text × List (Text × Nat) :=
  (method.name, method.parameterTypes.map fun type => (type.name, type.dimensions))

/-- The name has no dollar sign, and the parameter types are plain. -/
def isPlainMethod (method : Method) : Bool :=
  !(method.name.any (· == '$')) && method.parameterTypes.all isPlain

/-- The marks that set off parameter types in the preset styles. -/
def HasPresetMarks (style : TestStyle) : Prop :=
  style.parametersMark = "_A".toList ∧ style.tokenMark = ['$']

/-! ## What a name tells -/

theorem splitOn_flatMap {c : Char} {pieces : List Text} (absent : ∀ piece ∈ pieces, c ∉ piece)
    {first : Text} (absentFirst : c ∉ first) :
    Text.splitOn (· == c) (first ++ pieces.flatMap fun piece => c :: piece) = first :: pieces := by
  induction pieces generalizing first with
  | nil => simpa using Text.splitOn_of_not_mem absentFirst
  | cons piece pieces ih =>
      have others := ih (fun p member => absent p (List.mem_cons_of_mem piece member))
        (absent piece List.mem_cons_self)
      have parted : Text.splitOn (· == c)
          (first ++ c :: (piece ++ pieces.flatMap fun piece => c :: piece)) = _ :=
        Text.splitOn_append_cons (by simp) _ _
      rw [List.flatMap_cons, List.cons_append, parted, others, Text.splitOn_of_not_mem absentFirst]
      rfl

section Mark

variable {style : TestStyle} {mark : Char} (single : style.tokenMark = [mark])
  (absent : mark ∉ style.parametersMark) {method other : Method} {token token' : TypeTree → Text}
  (inName : mark ∉ method.name) (inTokens : ∀ type ∈ method.parameterTypes, mark ∉ token type)
  (inName' : mark ∉ other.name) (inTokens' : ∀ type ∈ other.parameterTypes, mark ∉ token' type)

include single absent inName inTokens in
/-- A mark that stands in front of tokens only parts a name into its pieces. -/
theorem splitOn_nameWith :
    Text.splitOn (· == mark) (nameWith style token method) =
      if method.parameterTypes.isEmpty then [method.name]
      else (method.name ++ style.parametersMark) :: method.parameterTypes.map token := by
  rw [nameWith]
  split
  · exact Text.splitOn_of_not_mem inName
  · have tokens : ∀ piece ∈ method.parameterTypes.map token, mark ∉ piece := by
      intro piece member
      rcases List.mem_map.mp member with ⟨type, isOne, rfl⟩
      exact inTokens type isOne
    have lead : mark ∉ method.name ++ style.parametersMark := by
      intro member
      rcases List.mem_append.mp member with here | there
      · exact inName here
      · exact absent there
    have cut := splitOn_flatMap tokens lead
    rw [List.flatMap_map] at cut
    rw [single]
    exact cut

include single absent inName inTokens inName' inTokens' in
/-- A name tells the method and its tokens. -/
theorem nameWith_injective (same : nameWith style token method = nameWith style token' other) :
    method.name = other.name ∧
    method.parameterTypes.map token = other.parameterTypes.map token' := by
  have pieces := congrArg (Text.splitOn (· == mark)) same
  rw [splitOn_nameWith single absent inName inTokens,
    splitOn_nameWith single absent inName' inTokens'] at pieces
  split at pieces <;> split at pieces <;> simp_all

end Mark

section Plain

variable {style : TestStyle} (marks : HasPresetMarks style) {method other : Method}
  (plain : isPlainMethod method = true) (plain' : isPlainMethod other = true)

include plain in
theorem dollar_not_mem_name : '$' ∉ method.name := by
  rw [isPlainMethod, Bool.and_eq_true, Bool.not_eq_true', List.any_eq_false] at plain
  exact fun member => plain.1 '$' member rfl

include plain in
theorem isPlain_of_mem {type : TypeTree} (member : type ∈ method.parameterTypes) :
    type.isPlain = true := by
  rw [isPlainMethod, Bool.and_eq_true, List.all_eq_true] at plain
  exact plain.2 type member

include marks plain plain' in
theorem name_and_tokens_of_plain {token token' : TypeTree → Text}
    (absent : ∀ type : TypeTree, type.isPlain = true → '$' ∉ token type)
    (absent' : ∀ type : TypeTree, type.isPlain = true → '$' ∉ token' type)
    (same : nameWith style token method = nameWith style token' other) :
    method.name = other.name ∧
    method.parameterTypes.map token = other.parameterTypes.map token' := by
  have noMark : '$' ∉ style.parametersMark := by
    rw [marks.1]
    decide
  exact nameWith_injective marks.2 noMark (dollar_not_mem_name plain)
    (fun type member => absent type (isPlain_of_mem plain member)) (dollar_not_mem_name plain')
    (fun type member => absent' type (isPlain_of_mem plain' member)) same

theorem dollar_not_mem_token (type : TypeTree) (plain : type.isPlain = true) : '$' ∉ type.token :=
  TypeTree.not_mem_token plain (by decide)

theorem dollar_not_mem_qualified (type : TypeTree) (plain : type.isPlain = true) :
    '$' ∉ type.qualifiedToken :=
  TypeTree.dollar_not_mem_qualifiedToken plain

/-- Whether some parameter type has a package in front of its name. -/
def namesPackage (method : Method) : Bool :=
  method.parameterTypes.any hasPackage

include marks plain plain' in
/-- A qualified name that is the plain name of some method names no package. -/
theorem not_namesPackage_of_eq (same : plainName style method = qualifiedName style other) :
    namesPackage other = false := by
  have tokens :=
    (name_and_tokens_of_plain marks plain plain' dollar_not_mem_token dollar_not_mem_qualified
    same).2
  rw [namesPackage, List.any_eq_false]
  intro type member package
  have isPlain' := isPlain_of_mem plain' member
  have mark := (TypeTree.underscore_mem_qualifiedToken_iff isPlain').mpr package
  have inTokens : type.qualifiedToken ∈ method.parameterTypes.map TypeTree.token := by
    rw [tokens]
    exact List.mem_map_of_mem member
  rcases List.mem_map.mp inTokens with ⟨type', isOne, token⟩
  rw [← token] at mark
  exact TypeTree.not_mem_token (isPlain_of_mem plain isOne) (by decide) mark

include plain in
theorem qualifiedName_of_not_namesPackage (none : namesPackage method = false) :
    qualifiedName style method = plainName style method := by
  have tokens : ∀ type ∈ method.parameterTypes, type.qualifiedToken = type.token := by
    intro type member
    rw [namesPackage, List.any_eq_false] at none
    exact TypeTree.qualifiedToken_of_not_hasPackage (isPlain_of_mem plain member)
      (by simpa using none type member)
  have joined : (method.parameterTypes.flatMap fun type => style.tokenMark ++ type.qualifiedToken) =
      method.parameterTypes.flatMap fun type => style.tokenMark ++ type.token :=
    List.flatMap_congr fun type member => by rw [tokens type member]
  rw [qualifiedName, plainName, nameWith, nameWith, joined]

include marks plain plain' in
/-- The qualified name tells the method. -/
theorem erasure_eq_of_qualifiedName_eq
    (same : qualifiedName style method = qualifiedName style other) :
    erasure method = erasure other := by
  rcases name_and_tokens_of_plain marks plain plain' dollar_not_mem_qualified
    dollar_not_mem_qualified
    same with ⟨names, tokens⟩
  have types : ∀ types types' : List TypeTree, (∀ type ∈ types, type.isPlain = true) →
      (∀ type ∈ types', type.isPlain = true) →
      types.map TypeTree.qualifiedToken = types'.map TypeTree.qualifiedToken →
      (types.map fun type => (type.name, type.dimensions)) =
        types'.map fun type => (type.name, type.dimensions) := by
    intro types
    induction types with
    | nil =>
        intro types' _ _ equal
        rw [List.map_nil, eq_comm, List.map_eq_nil_iff] at equal
        rw [equal]
    | cons type types ih =>
        intro types' isPlain isPlain' equal
        cases types' with
        | nil => cases equal
        | cons type' types' =>
            rw [List.map_cons, List.map_cons] at equal ⊢
            rcases List.cons.inj equal with ⟨first, others⟩
            rcases TypeTree.qualifiedToken_injective (isPlain type List.mem_cons_self)
              (isPlain' type' List.mem_cons_self) first with ⟨name, dimensions⟩
            rw [name, dimensions,
              ih types' (fun t member => isPlain t (List.mem_cons_of_mem type member))
              (fun t member => isPlain' t (List.mem_cons_of_mem type' member)) others]
  rw [erasure, erasure, names, types _ _ (fun t member => isPlain_of_mem plain member)
    (fun t member => isPlain_of_mem plain' member) tokens]

end Plain

/-! ## The names one after another -/

/-- The name that a method gets where these names are taken. -/
def chosenName (style : TestStyle) (taken : List Text) (method : Method) : Text :=
  if taken.contains (plainName style method) then qualifiedName style method
  else plainName style method

theorem methodNames_cons (style : TestStyle) (taken : List Text) (method : Method)
    (methods : List Method) :
    methodNames style taken (method :: methods) = chosenName style taken method ::
      methodNames style (chosenName style taken method :: taken) methods := rfl

/-- The taken names come from these methods, and each of their plain names is
taken. -/
structure TakenBy (style : TestStyle) (seen : List Method) (taken : List Text) : Prop where
  origin : ∀ name ∈ taken, ∃ method ∈ seen,
    name = plainName style method ∨ name = qualifiedName style method
  plainNames : ∀ method ∈ seen, plainName style method ∈ taken

/-- A later method of the same plain name names a package. -/
def ToldApart (style : TestStyle) (earlier later : Method) : Prop :=
  plainName style earlier = plainName style later → namesPackage later = true

section Names

variable {style : TestStyle} (marks : HasPresetMarks style) {seen : List Method} {taken : List Text}

theorem TakenBy.cons (holds : TakenBy style seen taken) (method : Method) :
    TakenBy style (method :: seen) (chosenName style taken method :: taken) := by
  refine ⟨fun name member => ?_, fun m member => ?_⟩
  · rcases List.mem_cons.mp member with rfl | old
    · refine ⟨method, List.mem_cons_self, ?_⟩
      rw [chosenName]
      split
      · exact Or.inr rfl
      · exact Or.inl rfl
    · rcases holds.origin name old with ⟨m, isSeen, names⟩
      exact ⟨m, List.mem_cons_of_mem method isSeen, names⟩
  · rcases List.mem_cons.mp member with rfl | old
    · by_cases isTaken : plainName style m ∈ taken
      · exact List.mem_cons_of_mem _ isTaken
      · rw [chosenName, if_neg (by simpa using isTaken)]
        exact List.mem_cons_self
    · exact List.mem_cons_of_mem _ (holds.plainNames m old)

include marks in
/-- A name is free exactly if the method is told apart from those before it. -/
theorem chosenName_not_mem_iff (holds : TakenBy style seen taken)
    (plainSeen : ∀ m ∈ seen, isPlainMethod m = true) {method : Method}
    (plain : isPlainMethod method = true) (distinct : ∀ m ∈ seen, erasure m ≠ erasure method) :
    chosenName style taken method ∉ taken ↔ ∀ m ∈ seen, ToldApart style m method := by
  constructor
  · intro free m isSeen same
    have isTaken : plainName style method ∈ taken := same ▸ holds.plainNames m isSeen
    cases package : namesPackage method with
    | true => rfl
    | false =>
        rw [chosenName, if_pos (by simpa using isTaken),
          qualifiedName_of_not_namesPackage plain package] at free
        exact absurd isTaken free
  · intro apart
    by_cases isTaken : plainName style method ∈ taken
    · have package : namesPackage method = true := by
        rcases holds.origin _ isTaken with ⟨m, isSeen, same | same⟩
        · exact apart m isSeen same.symm
        · have none := not_namesPackage_of_eq marks plain (plainSeen m isSeen) same
          rw [qualifiedName_of_not_namesPackage (plainSeen m isSeen) none] at same
          exact apart m isSeen same.symm
      rw [chosenName, if_pos (by simpa using isTaken)]
      intro qualifiedTaken
      rcases holds.origin _ qualifiedTaken with ⟨m, isSeen, same | same⟩
      · rw [not_namesPackage_of_eq marks (plainSeen m isSeen) plain same.symm] at package
        cases package
      · exact distinct m isSeen
          (erasure_eq_of_qualifiedName_eq marks (plainSeen m isSeen) plain same.symm)
    · rw [chosenName, if_neg (by simpa using isTaken)]
      exact isTaken

include marks in
/-- The names of methods differ, from each other and from those that are taken,
exactly if each method is told apart from those before it. -/
theorem nodup_methodNames_iff (holds : TakenBy style seen taken)
    (plainSeen : ∀ m ∈ seen, isPlainMethod m = true) {methods : List Method}
    (plain : ∀ m ∈ methods, isPlainMethod m = true) (distinct : (methods.map erasure).Nodup)
    (distinctSeen : ∀ m ∈ seen, ∀ method ∈ methods, erasure m ≠ erasure method) :
    ((methodNames style taken methods).Nodup ∧ ∀ name ∈ methodNames style taken methods,
      name ∉ taken) ↔
      methods.Pairwise (ToldApart style) ∧ ∀ m ∈ seen, ∀ method ∈ methods,
      ToldApart style m method := by
  induction methods generalizing seen taken with
  | nil => simp [methodNames]
  | cons method methods ih =>
      rw [List.map_cons, List.nodup_cons] at distinct
      have free := chosenName_not_mem_iff marks holds plainSeen (plain method List.mem_cons_self)
        fun m isSeen => distinctSeen m isSeen method List.mem_cons_self
      have others := ih (holds.cons method)
        (List.forall_mem_cons.mpr ⟨plain method List.mem_cons_self, plainSeen⟩)
        (fun m member => plain m (List.mem_cons_of_mem method member)) distinct.2
        (List.forall_mem_cons.mpr ⟨fun m member same =>
          distinct.1 (same ▸ List.mem_map_of_mem member),
          fun m isSeen m' member => distinctSeen m isSeen m' (List.mem_cons_of_mem method member)⟩)
      rw [methodNames_cons, List.nodup_cons, List.pairwise_cons]
      constructor
      · rintro ⟨⟨fresh, differ⟩, apart⟩
        have rest := others.mp ⟨differ, fun name member => by
          rw [List.mem_cons, not_or]
          exact ⟨fun same => fresh (same ▸ member), apart name (List.mem_cons_of_mem _ member)⟩⟩
        refine ⟨⟨fun m member => rest.2 method List.mem_cons_self m member, rest.1⟩,
          fun m isSeen => ?_⟩
        exact List.forall_mem_cons.mpr ⟨free.mp (apart _ List.mem_cons_self) m isSeen,
          fun m' member => rest.2 m (List.mem_cons_of_mem method isSeen) m' member⟩
      · rintro ⟨⟨first, pairs⟩, ofSeen⟩
        have rest := others.mpr ⟨pairs, List.forall_mem_cons.mpr ⟨first, fun m isSeen m' member =>
          ofSeen m isSeen m' (List.mem_cons_of_mem method member)⟩⟩
        refine ⟨⟨fun member => rest.2 _ member List.mem_cons_self, rest.1⟩, List.forall_mem_cons.mpr
          ⟨free.mpr fun m isSeen => ofSeen m isSeen method List.mem_cons_self,
            fun name member => ?_⟩⟩
        exact fun isTaken => rest.2 name member (List.mem_cons_of_mem _ isTaken)

end Names

/-! ## The names of a plan -/

theorem length_methodNames (style : TestStyle) (taken : List Text) (methods : List Method) :
    (methodNames style taken methods).length = methods.length := by
  induction methods generalizing taken with
  | nil => rfl
  | cons method methods ih => rw [methodNames_cons, List.length_cons, List.length_cons, ih]

theorem names_ofSurface (style : TestStyle) (target : ClassSurface) :
    (ofSurface style target).names =
      "type".toList :: "instantiation".toList :: methodNames style [] target.methods := by
  have zipped : (target.methods.zipIdx.zip (methodNames style [] target.methods)).map Prod.snd =
      methodNames style [] target.methods := by
    rw [List.map_snd_zip]
    rw [length_methodNames, List.length_zipIdx]
  rw [names, ofSurface, List.map_cons, List.map_cons, List.map_map]
  exact congrArg (fun names => "type".toList :: "instantiation".toList :: names) zipped

/-- A method without parameters gets its own name, and only such a method gets a
name without a dollar sign. -/
theorem mem_methodNames_iff {style : TestStyle} (marks : HasPresetMarks style) {name : Text}
    (noMark : '$' ∉ name) {methods : List Method} (taken : List Text) :
    name ∈ methodNames style taken methods ↔
      ∃ method ∈ methods, method.parameterTypes = [] ∧ method.name = name := by
  have one : ∀ taken method, chosenName style taken method = name ↔
      method.parameterTypes = [] ∧ method.name = name := by
    intro taken method
    rw [chosenName, plainName, qualifiedName, nameWith, nameWith, marks.1, marks.2]
    cases types : method.parameterTypes with
    | nil => simp
    | cons type types =>
        have marked : ∀ t : Text, method.name ++ "_A".toList ++ (['$'] ++ t) ≠ name := by
          rintro t rfl
          exact noMark (by simp)
        simp only [List.isEmpty_cons, Bool.false_eq_true, if_false, List.flatMap_cons,
          List.append_assoc, reduceCtorEq, false_and, iff_false]
        split
        · simpa using marked _
        · simpa using marked _
  induction methods generalizing taken with
  | nil => simp [methodNames]
  | cons method methods ih =>
      have others := ih (chosenName style taken method :: taken)
      rw [methodNames_cons, List.mem_cons, eq_comm, one]
      simp [others]

/-- For methods with plain parameter types that differ in their erasures, the
names of the tests differ exactly if no method without parameters is called like a
fixed test, and no overload without packages stands behind another one of the same
plain name. -/
theorem nodup_names_iff {style : TestStyle} (marks : HasPresetMarks style) {target : ClassSurface}
    (plain : ∀ method ∈ target.methods, isPlainMethod method = true)
    (distinct : (target.methods.map erasure).Nodup) :
    (ofSurface style target).names.Nodup ↔
      (∀ method ∈ target.methods, method.parameterTypes = [] →
        method.name ≠ "type".toList ∧ method.name ≠ "instantiation".toList) ∧
      target.methods.Pairwise fun earlier later =>
        plainName style earlier = plainName style later → namesPackage later = true := by
  have none : TakenBy style [] [] := ⟨by simp, by simp⟩
  have methods := nodup_methodNames_iff marks none (by simp) plain distinct (by simp)
  have type : "type".toList ∈ methodNames style [] target.methods ↔ _ :=
    mem_methodNames_iff marks (by decide) []
  have instantiation : "instantiation".toList ∈ methodNames style [] target.methods ↔ _ :=
    mem_methodNames_iff marks (by decide) []
  have fixed : "type".toList ≠ "instantiation".toList := by decide
  rw [names_ofSurface, List.nodup_cons, List.nodup_cons, List.mem_cons, type, instantiation]
  constructor
  · rintro ⟨noType, noInstantiation, differ⟩
    refine ⟨fun method member bare => ⟨fun same => ?_, fun same => ?_⟩,
      (methods.mp ⟨differ, by simp⟩).1⟩
    · exact noType (Or.inr ⟨method, member, bare, same⟩)
    · exact noInstantiation ⟨method, member, bare, same⟩
  · rintro ⟨apart, pairs⟩
    refine ⟨?_, ?_, (methods.mpr ⟨pairs, by simp⟩).1⟩
    · rintro (same | ⟨method, member, bare, same⟩)
      · exact fixed same
      · exact (apart method member bare).1 same
    · rintro ⟨method, member, bare, same⟩
      exact (apart method member bare).2 same

/-- The public void method of this name with a parameter of each of these types. -/
def overload (name : Text) (types : List TypeTree) : Method :=
  (Method.named name).withParameters (types.map fun type => ("value".toList, type))

/-- Overloads that differ in packages and dimensions, the one without packages
first. -/
theorem nodup_names_dates :
    let dates := [overload "at".toList [TypeTree.named "Date".toList],
      overload "at".toList [TypeTree.named "java.util.Date".toList],
      overload "at".toList [(TypeTree.named "java.util.Date".toList).withDimensions 1],
      overload "size".toList []]
    let target := { ClassSurface.named "S".toList with methods := dates }
    HasPresetMarks TestStyle.modern ∧ (∀ method ∈ dates, isPlainMethod method = true) ∧
      (dates.map erasure).Nodup ∧ (ofSurface TestStyle.modern target).names.Nodup := by
  intro dates target
  have marks : HasPresetMarks TestStyle.modern := ⟨rfl, by decide⟩
  have plain : ∀ method ∈ dates, isPlainMethod method = true := by decide +kernel
  have distinct : (dates.map erasure).Nodup := by decide +kernel
  have apart : dates.Pairwise fun earlier later =>
      plainName TestStyle.modern earlier = plainName TestStyle.modern later →
        namesPackage later = true := by decide +kernel
  have differ : (ofSurface TestStyle.modern target).names.Nodup :=
    (nodup_names_iff marks plain distinct).mpr ⟨by decide +kernel, apart⟩
  exact ⟨marks, plain, distinct, differ⟩

/-- The qualified name of an overload without packages is taken, and so is the name
of a fixed test. -/
theorem not_nodup_names :
    let dates := [overload "f".toList [TypeTree.named "java.util.Date".toList],
      overload "f".toList [TypeTree.named "Date".toList]]
    (dates.map erasure).Nodup ∧
      ¬ (ofSurface TestStyle.modern
        { ClassSurface.named "S".toList with methods := dates }).names.Nodup ∧
      ¬ (ofSurface TestStyle.modern
        { ClassSurface.named "S".toList with methods := [overload "type".toList []]
          }).names.Nodup := by
  decide +kernel

end TestPlan
end Testwright
