import Testwright.Proofs.Declaration.ParameterSpelling

namespace Testwright

/-!
# Types and parameters in any layout

A type is read the same in whatever layout it is written: as the same tree, each name
resolved and each token computed from the resolved name (`TypeTree.renamed`).  With
nothing to resolve, reading undoes rendering.  A list of parameters gives their names
and types in order, where the three ways to write an array count together.
-/

open Lexeme (Covers Spelled behindFinals near)
open Text (Blank)

namespace NameScope

variable {policy : ExtractionPolicy} (scope : NameScope) (kept : policy.eraseVariables = false)
  (short : policy.qualifyImported = false) (bare : policy.qualifyPackage = false)
include kept short bare

theorem resolveName_of_off (name : Text) : resolveName policy scope name = name := by
  unfold resolveName
  simp only [kept, short, bare, Bool.false_and, Bool.false_eq_true, if_false]
  split
  · rfl
  · split
    · rfl
    · split
      · rfl
      · split
        · rfl
        · split <;> rfl

/-- With nothing to resolve, the words of a name stay and have single spaces. -/
theorem resolve_of_off {name : Text} (h : Declaration.isTypeName name = true) :
    scope.resolve policy name = Text.singleSpaced name := by
  have form := Declaration.typeName_iff.mp h
  have dotted : ∀ {word : Text}, Header.isDottedPath word = true →
      resolveWords policy scope [word] = word := by
    intro word isPath
    have noMark : word.head? ≠ some '?' := fun head =>
      absurd (Header.isDottedPart_of_isDottedPath isPath '?' (List.mem_of_mem_head? head))
        (by decide)
    rw [resolveWords, if_neg noMark, scope.resolveName_of_off kept short bare]
  rw [resolve, Text.singleSpaced]
  generalize Text.words name = words at form ⊢
  cases form with
  | dotted isPath => rw [dotted isPath, List.intercalate_singleton]
  | wildcard => rfl
  | bounded isBound isPath =>
      have noBound : [] ∉ boundWords := by decide
      have last := dotted isPath
      rw [resolveWords] at last
      simp [resolveWords, isBound, noBound, last, List.intercalate]

end NameScope

namespace TypeTree

/-! ## Names replaced -/

mutual

/-- The type with other names, and at each node the token that goes with the new name
and the dimensions. -/
def renamed (rename : Text → Text) : TypeTree → TypeTree
  | ⟨name, arguments, dimensions, _⟩ =>
      ⟨rename name, renamedAll rename arguments, dimensions,
        Token.simple (rename name) ++ Token.arrayMarks dimensions⟩

def renamedAll (rename : Text → Text) : List TypeTree → List TypeTree
  | [] => []
  | type :: types => renamed rename type :: renamedAll rename types

end

mutual

theorem resolved_eq_renamed (policy : ExtractionPolicy) (scope : NameScope) :
    (type : TypeTree) → type.resolved policy scope = type.renamed (scope.resolve policy)
  | ⟨name, arguments, dimensions, _⟩ => by
      rw [resolved, renamed, resolvedAll_eq_renamedAll policy scope arguments]
      rfl

theorem resolvedAll_eq_renamedAll (policy : ExtractionPolicy) (scope : NameScope) :
    (types : List TypeTree) →
    resolvedAll policy scope types = renamedAll (scope.resolve policy) types
  | [] => rfl
  | type :: types => by
      rw [resolvedAll, renamedAll, resolved_eq_renamed policy scope type,
        resolvedAll_eq_renamedAll policy scope types]

end

mutual

theorem leafNames_renamed (rename : Text → Text) :
    (type : TypeTree) → (type.renamed rename).leafNames = type.leafNames.map rename
  | ⟨name, [], _, _⟩ => rfl
  | ⟨_, first :: rest, _, _⟩ => by
      rw [renamed, renamedAll, leafNames, leafNames, List.map_append,
        leafNames_renamed rename first, leafNamesAll_renamedAll rename rest]

theorem leafNamesAll_renamedAll (rename : Text → Text) :
    (types : List TypeTree) →
    leafNamesAll (renamedAll rename types) = (leafNamesAll types).map rename
  | [] => rfl
  | type :: types => by
      rw [renamedAll, leafNamesAll, leafNamesAll, List.map_append, leafNames_renamed rename type,
        leafNamesAll_renamedAll rename types]

end

/-! ## Layouts -/

/-- The text is the type in some layout: any number of words `final` in front of it, blanks
wherever they may stand, and the last dimension as a bracket pair or as three dots. -/
def IsLaidOut (type : TypeTree) (t : Text) : Prop :=
  ∃ finals, Covers (behindFinals type.lexemes finals) t ∨
    ∃ dimensions, type.dimensions = dimensions + 1 ∧
      Covers (behindFinals ({ type with dimensions := dimensions }.lexemes ++ [near "...".toList])
        finals) t

/-- A type is read the same in every layout. -/
theorem IsLaidOut.read?_eq {type : TypeTree} (readable : type.isReadable = true) {t : Text}
    (h : type.IsLaidOut t) (policy : ExtractionPolicy) (scope : NameScope) :
    read? policy scope t = some (type.renamed (scope.resolve policy)) := by
  obtain ⟨finals, covers | ⟨dimensions, more, covers⟩⟩ := h
  · rw [read?_of_covers readable covers, resolved_eq_renamed]
  · obtain ⟨name, arguments, _, token⟩ := type
    subst more
    have readable' : isReadable ⟨name, arguments, dimensions, token⟩ = true := readable
    rw [read?_of_dots readable' covers, resolved_eq_renamed]
    rfl

/-! ## Rendered types -/

mutual

/-- Whether the tokens are the computed ones, and the names have single spaces as
`? extends N` has. -/
def isBuilt : TypeTree → Bool
  | ⟨name, arguments, dimensions, token⟩ =>
      Text.singleSpaced name == name && token == Token.simple name ++ Token.arrayMarks dimensions &&
        areBuilt arguments

def areBuilt : List TypeTree → Bool
  | [] => true
  | type :: types => isBuilt type && areBuilt types

end

theorem spelled_brackets (dimensions : Nat) :
    Spelled (bracketLexemes dimensions) (brackets dimensions) := by
  induction dimensions with
  | zero => rfl
  | succ dimensions ih =>
      exact ⟨[], ']' :: brackets dimensions, rfl, Text.blank_nil, by simp, [], brackets dimensions,
        rfl, Text.blank_nil, by simp, ih⟩

theorem spelled_name {name : Text} (h : Declaration.isTypeName name = true)
    (spaced : Text.singleSpaced name = name) :
    Spelled (Declaration.nameLexemes name) name := by
  have form := Declaration.typeName_iff.mp h
  rw [Text.singleSpaced] at spaced
  unfold Declaration.nameLexemes
  generalize Text.words name = words at form spaced ⊢
  cases form with
  | dotted =>
      rw [List.intercalate_singleton] at spaced
      exact Lexeme.spelled_singleton.mpr ⟨[], spaced.symm, Text.blank_nil, by simp⟩
  | wildcard => exact Lexeme.spelled_singleton.mpr ⟨[], spaced.symm, Text.blank_nil, by simp⟩
  | @bounded bound base =>
      rw [← spaced]
      exact ⟨[], ' ' :: (bound ++ ' ' :: base), by simp [List.intercalate], Text.blank_nil, by simp,
        [' '], ' ' :: base, by simp, by decide, by simp, [' '], [], by simp, by decide,
        by simp, rfl⟩

mutual

/-- A rendered type is one of its layouts. -/
theorem spelled_render : (type : TypeTree) → type.isWritable = true → type.isBuilt = true →
    Spelled type.lexemes type.render
  | ⟨name, [], dimensions, _⟩, h, built => by
      simp only [isWritable, isBuilt, Bool.and_eq_true, beq_iff_eq] at h built
      rw [lexemes, render]
      exact Lexeme.spelled_append.mpr ⟨_, _, rfl, spelled_name h.1 built.1.1,
        spelled_brackets dimensions⟩
  | ⟨name, first :: rest, dimensions, _⟩, h, built => by
      simp only [isWritable, areWritable, isBuilt, areBuilt, Bool.and_eq_true,
        beq_iff_eq] at h built
      have inFirst := spelled_render first h.2.1 built.2.1
      have inRest := spelled_renderRest rest h.2.2 built.2.2
      have inArguments : Spelled (lexemes first ++ lexemesRest rest ++ [near ['>']])
          (render first ++ renderRest rest ++ ['>']) :=
        Lexeme.spelled_append.mpr ⟨_, _, rfl,
          Lexeme.spelled_append.mpr ⟨_, _, rfl, inFirst, inRest⟩,
          Lexeme.spelled_singleton.mpr ⟨[], rfl, Text.blank_nil, by simp⟩⟩
      have opened : Spelled (near ['<'] :: (lexemes first ++ lexemesRest rest ++ [near ['>']]))
          ('<' :: (render first ++ renderRest rest ++ ['>'])) :=
        ⟨[], _, rfl, Text.blank_nil, by simp, inArguments⟩
      rw [lexemes, render]
      refine Lexeme.spelled_append.mpr ⟨name, _, ?_, spelled_name h.1 built.1.1,
        Lexeme.spelled_append.mpr ⟨_, _, rfl, opened, spelled_brackets dimensions⟩⟩
      simp

theorem spelled_renderRest :
    (types : List TypeTree) → areWritable types = true → areBuilt types = true →
    Spelled (lexemesRest types) (renderRest types)
  | [], _, _ => rfl
  | type :: types, h, built => by
      simp only [areWritable, areBuilt, Bool.and_eq_true] at h built
      have space : Text.Blank [' '] := by decide
      have spaced := (spelled_render type h.1 built.1).blank_append (lexemes_ne_nil h.1) space
      rw [lexemesRest, renderRest]
      exact ⟨[], _, rfl, Text.blank_nil, by simp, Lexeme.spelled_append.mpr
        ⟨_, _, rfl, spaced, spelled_renderRest types h.2 built.2⟩⟩

end

mutual

/-- Replacing each name by itself leaves a type as it is, if its tokens are computed. -/
theorem renamed_of_built {rename : Text → Text}
    (same : ∀ name, Declaration.isTypeName name = true → rename name = Text.singleSpaced name) :
    (type : TypeTree) → type.isWritable = true → type.isBuilt = true → type.renamed rename = type
  | ⟨name, arguments, dimensions, _⟩, h, built => by
      simp only [isWritable, isBuilt, Bool.and_eq_true, beq_iff_eq] at h built
      obtain ⟨⟨spaced, rfl⟩, areBuilt⟩ := built
      rw [renamed, same name h.1, spaced, renamedAll_of_built same arguments h.2 areBuilt]

theorem renamedAll_of_built {rename : Text → Text}
    (same : ∀ name, Declaration.isTypeName name = true → rename name = Text.singleSpaced name) :
    (types : List TypeTree) → areWritable types = true → areBuilt types = true →
    renamedAll rename types = types
  | [], _, _ => rfl
  | type :: types, h, built => by
      simp only [areWritable, areBuilt, Bool.and_eq_true] at h built
      rw [renamedAll, renamed_of_built same type h.1 built.1,
        renamedAll_of_built same types h.2 built.2]

end

/-- **Reading recovers every type.**  In every layout a type is read as the same tree with
its names resolved, the tokens following the names and the dimensions; so its leaves are
the resolved leaves, in their order.  With nothing to resolve, a rendered type is read as
itself. -/
theorem read?_recovers (policy : ExtractionPolicy) (scope : NameScope) {type : TypeTree}
    (readable : type.isReadable = true) :
    (∀ t, type.IsLaidOut t → read? policy scope t = some (type.renamed (scope.resolve policy))) ∧
      (type.renamed (scope.resolve policy)).leafNames = type.leafNames.map (scope.resolve policy) ∧
      (policy.eraseVariables = false → policy.qualifyImported = false →
        policy.qualifyPackage = false →
        type.isBuilt = true → read? policy scope type.render = some type) := by
  refine ⟨fun t laidOut => laidOut.read?_eq readable policy scope, leafNames_renamed _ type, ?_⟩
  intro kept short bare built
  have writable := isWritable_of_isReadable readable
  have laidOut : type.IsLaidOut type.render :=
    ⟨0, Or.inl ⟨_, [], by simp, spelled_render type writable built, Text.blank_nil⟩⟩
  rw [laidOut.read?_eq readable policy scope,
    renamed_of_built (fun name => scope.resolve_of_off kept short bare) type writable built]

/-- A table of lists in two layouts, in a scope with an import and a package, and
rendered. -/
theorem read?_recovers_table :
    let list := (named "List".toList).withArguments
      [(named "? super b.1".toList).withDimensions 1, named "?".toList]
    let table := ((named "Map".toList).withArguments [named "T".toList, list]).withDimensions 2
    let scope : NameScope := ⟨some "shop".toList, ["java.util.Map".toList]⟩
    let keeping : ExtractionPolicy := { ExtractionPolicy.standard with eraseVariables := false }
    table.isReadable = true ∧
      read? .qualifying scope "final final Map<T,List<?super b.1[],?>>[]... ".toList =
        some (table.renamed (scope.resolve .qualifying)) ∧
      (table.renamed (scope.resolve .qualifying)).leafNames =
        ["Object".toList, "? super b.1".toList, "?".toList] ∧
      read? keeping scope table.render = some table := by
  intro list table scope keeping
  have readable : table.isReadable = true := by decide +kernel
  have laidOut : table.IsLaidOut "final final Map<T,List<?super b.1[],?>>[]... ".toList :=
    ⟨2, Or.inr ⟨1, rfl, _, [' '], by decide +kernel, Lexeme.spelled_print _, by decide⟩⟩
  obtain ⟨inLayouts, leaves, _⟩ := read?_recovers .qualifying scope readable
  obtain ⟨_, _, rendered⟩ := read?_recovers keeping scope readable
  exact ⟨readable, inLayouts _ laidOut, leaves.trans (by decide +kernel),
    rendered rfl rfl rfl (by decide +kernel)⟩

end TypeTree

namespace ParameterForm

/-- **Reading recovers every list of parameters.**  In every layout a list of parameters is
read as their names, in order, and at the same places their types, resolved, with the
dimensions of the type, one for three dots, and one for each bracket pair behind the name.
A blank text is the list without parameters. -/
theorem readAll_recovers (policy : ExtractionPolicy) (scope : NameScope) :
    (∀ (forms : List ParameterForm) (t : Text), (∀ form ∈ forms, form.isReadable = true) →
      ListWrites forms t →
      (Parameter.readAll policy scope t).map Parameter.name = forms.map name ∧
      (Parameter.readAll policy scope t).map Parameter.type = forms.map fun form =>
        { form.type with
          dimensions :=
            form.type.dimensions + (if form.isVariadic then 1 else 0) + form.marks }.renamed
            (scope.resolve policy)) ∧
    ∀ t, Blank t → Parameter.readAll policy scope t = [] := by
  refine ⟨fun forms t readable writes => ?_, fun t => readAll_of_blank policy scope⟩
  rw [readAll_of_listWrites policy scope readable writes, List.map_map, List.map_map]
  refine ⟨rfl, List.map_congr_left fun form _ => ?_⟩
  obtain ⟨-, ⟨name, arguments, dimensions, token⟩, variadic, -, marks⟩ := form
  simp only [Function.comp_apply, declared, TypeTree.resolved_eq_renamed]
  rfl

/-- Three ways to write an array, beside a type with a comma and a word `final`. -/
theorem readAll_recovers_arrays :
    let map := (TypeTree.named "Map".toList).withArguments
      [TypeTree.named "a.B".toList, TypeTree.named "?".toList]
    let long := (TypeTree.named "long".toList).withDimensions 1
    let forms : List ParameterForm := [⟨true, map, false, "m".toList, 0⟩,
      ⟨false, long, false, "grid".toList, 1⟩, ⟨false, long, true, "rest$".toList, 0⟩]
    let text := "final final Map<a.B,?> m ,long[] grid[],long[]...rest$".toList
    let scope : NameScope := ⟨none, []⟩
    (∀ form ∈ forms, form.isReadable = true) ∧ ListWrites forms text ∧
      (Parameter.readAll .standard scope text).map Parameter.name =
        ["m".toList, "grid".toList, "rest$".toList] ∧
      (Parameter.readAll .standard scope text).map
        (fun parameter => (parameter.type.dimensions, parameter.type.token)) =
        [(0, "Map".toList), (2, "longArrayArray".toList), (2, "longArrayArray".toList)] ∧
      Parameter.readAll .standard scope [' ', '\n'] = [] := by
  intro map long forms text scope
  have readable : ∀ form ∈ forms, form.isReadable = true := by decide +kernel
  have writes : ListWrites forms text := by
    refine Or.inr
      ⟨["final final Map<a.B,?> m ".toList, "long[] grid[]".toList, "long[]...rest$".toList],
      by simp, by decide +kernel, ?_⟩
    exact .cons ⟨2, _, [' '], by decide +kernel, Lexeme.spelled_print _, by decide⟩
      (.cons ⟨0, _, [], by decide +kernel, Lexeme.spelled_print _, by decide⟩
        (.cons ⟨0, _, [], by decide +kernel, Lexeme.spelled_print _, by decide⟩ .nil))
  obtain ⟨inLayouts, blank⟩ := readAll_recovers .standard scope
  obtain ⟨names, types⟩ := inLayouts forms text readable writes
  refine ⟨readable, writes, names, ?_, blank _ (by decide)⟩
  have both := congrArg (List.map fun type => (TypeTree.dimensions type, type.token)) types
  rw [List.map_map] at both
  exact both.trans (by decide +kernel)

end ParameterForm
end Testwright
