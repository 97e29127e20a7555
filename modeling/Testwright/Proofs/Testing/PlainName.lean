import Testwright.Proofs.Testing.Naming

namespace Testwright
namespace TestPlan

/-!
# Plain names that tell the overloads apart

The plain name of a method puts a mark in front of each token.  If the mark is a single
character that stands nowhere else, the name tells where its pieces begin, so it tells
the method and its tokens, whatever stands in front of the first mark.  In a class of
such methods, no two of them with the same name and tokens, each gets its plain name
(`plainName_injective`).
-/

/-- The name of a method and the tokens of its parameter types. -/
def nameAndTokens (method : Method) : Text × List Text :=
  (method.name, method.parameterTypes.map TypeTree.token)

/-- The mark stands neither in the name of the method nor in a token. -/
structure IsUnmarked (mark : Char) (method : Method) : Prop where
  name : mark ∉ method.name
  tokens : ∀ type ∈ method.parameterTypes, mark ∉ type.token

/-- Where no plain name is taken and they all differ, each method gets its own. -/
theorem methodNames_eq_map {style : TestStyle} {taken : List Text} {methods : List Method}
    (differ : (methods.map (plainName style)).Nodup)
    (free : ∀ method ∈ methods, plainName style method ∉ taken) :
    methodNames style taken methods = methods.map (plainName style) := by
  induction methods generalizing taken with
  | nil => rfl
  | cons method methods ih =>
      rcases List.forall_mem_cons.mp free with ⟨here, others⟩
      rcases List.nodup_cons.mp differ with ⟨fresh, differ⟩
      have chosen : chosenName style taken method = plainName style method := by
        rw [chosenName, if_neg (by simpa using here)]
      have free' : ∀ other ∈ methods, plainName style other ∉ plainName style method :: taken := by
        intro other member isTaken
        rcases List.mem_cons.mp isTaken with same | old
        · exact fresh (same ▸ List.mem_map_of_mem member)
        · exact others other member old
      rw [methodNames_cons, chosen, ih differ free', List.map_cons]

section Marked

variable {style : TestStyle} {mark : Char} (single : style.tokenMark = [mark])
  (absent : mark ∉ style.parametersMark)
include single absent

theorem nameAndTokens_eq_of_plainName_eq {method other : Method} (unmarked : IsUnmarked mark method)
    (unmarked' : IsUnmarked mark other) (same : plainName style method = plainName style other) :
    nameAndTokens method = nameAndTokens other := by
  rcases nameWith_injective single absent unmarked.name unmarked.tokens unmarked'.name
    unmarked'.tokens same with
    ⟨names, tokens⟩
  rw [nameAndTokens, nameAndTokens, names, tokens]

theorem nodup_plainNames {methods : List Method}
    (unmarked : ∀ method ∈ methods, IsUnmarked mark method)
    (distinct : (methods.map nameAndTokens).Nodup) : (methods.map (plainName style)).Nodup := by
  rw [List.Nodup, List.pairwise_map] at distinct ⊢
  refine distinct.imp_of_mem fun {method other} member member' apart same => apart ?_
  exact nameAndTokens_eq_of_plainName_eq single absent (unmarked method member)
    (unmarked other member') same

/-- Plain names tell methods and tokens without the mark.  So in a class of such
methods, no two with the same name and tokens, no plain name is taken when its method
comes, and the names of the plan are the plain ones. -/
theorem plainName_injective :
    (∀ method other : Method, IsUnmarked mark method → IsUnmarked mark other →
      plainName style method = plainName style other → nameAndTokens method = nameAndTokens other) ∧
    ∀ target : ClassSurface, (∀ method ∈ target.methods, IsUnmarked mark method) →
      (target.methods.map nameAndTokens).Nodup →
      (∀ earlier method later, target.methods = earlier ++ method :: later →
        plainName style method ∉ methodNames style [] earlier) ∧
      (ofSurface style target).names =
        "type".toList :: "instantiation".toList :: target.methods.map (plainName style) := by
  refine ⟨fun method other => nameAndTokens_eq_of_plainName_eq single absent,
    fun target unmarked distinct => ?_⟩
  have differ := nodup_plainNames single absent unmarked distinct
  constructor
  · intro earlier method later cut
    rw [cut, List.map_append, List.map_cons] at differ
    rcases List.nodup_append.mp differ with ⟨first, -, apart⟩
    rw [methodNames_eq_map first fun _ _ => List.not_mem_nil]
    exact fun isTaken => apart _ isTaken _ List.mem_cons_self rfl
  · rw [names_ofSurface, methodNames_eq_map differ fun _ _ => List.not_mem_nil]

end Marked

/-- A method without parameters, one whose name ends like the mark of parameters, and
one with an empty token. -/
theorem plainName_injective_cells :
    let cells := [overload "at_A".toList [], overload "at".toList [TypeTree.named "".toList],
      overload "at".toList [TypeTree.named "int".toList, TypeTree.named "a.Row".toList]]
    let target := { ClassSurface.named "Cells".toList with methods := cells }
    TestStyle.modern.tokenMark = ['$'] ∧ '$' ∉ TestStyle.modern.parametersMark ∧
      (∀ method ∈ cells, IsUnmarked '$' method) ∧ (cells.map nameAndTokens).Nodup ∧
      (ofSurface TestStyle.modern target).names =
        ["type".toList, "instantiation".toList, "at_A".toList, "at_A$".toList,
          "at_A$int$Row".toList] := by
  intro cells target
  have single : TestStyle.modern.tokenMark = ['$'] := by decide
  have absent : '$' ∉ TestStyle.modern.parametersMark := by decide
  have unmarked : ∀ method ∈ cells, IsUnmarked '$' method := by
    have each : ∀ method ∈ cells, '$' ∉ method.name ∧ ∀ type ∈ method.parameterTypes,
        '$' ∉ type.token := by
      decide +kernel
    exact fun method member => ⟨(each method member).1, (each method member).2⟩
  have distinct : (cells.map nameAndTokens).Nodup := by decide +kernel
  have names := ((plainName_injective single absent).2 target unmarked distinct).2
  have plain : cells.map (plainName TestStyle.modern) =
      ["at_A".toList, "at_A$".toList, "at_A$int$Row".toList] := by
    decide +kernel
  refine ⟨single, absent, unmarked, distinct, ?_⟩
  rw [names]
  exact congrArg (fun names => "type".toList :: "instantiation".toList :: names) plain

end TestPlan
end Testwright
