import Testwright.Proofs.Text.Areas
import Testwright.Source.Signature

namespace Testwright
namespace Signature

/-!
# Signatures, member by member

Signatures are read from pieces that end with their terminators, and whether a
piece shows one depends on nothing outside it.  So the signatures of a source are
those of its parts wherever a part ends with a terminator: they come in source
order, each from one piece, and a member shows the same signature whatever stands
beside it.
-/

open Text (IsPiece Terminated Unterminated)

theorem findAll_terminated_append {s : Text} (h : Terminated s) (t className : Text) :
    findAll (s ++ t) className = findAll s className ++ findAll t className := by
  simp only [findAll, Text.areas_terminated_append h, List.filter_append, List.filterMap_append]

theorem findAll_eq_nil {t : Text} (unterminated : Unterminated t) (className : Text) :
    findAll t className = [] := by
  rw [findAll, Text.areas_eq_nil unterminated]
  rfl

/-- A row of members shows what each of them shows, in its order. -/
theorem findAll_flatten_append {members : List Text}
    (terminated : ∀ member ∈ members, Terminated member) (t className : Text) :
    findAll (members.flatten ++ t) className =
      members.flatMap (findAll · className) ++ findAll t className := by
  induction members with
  | nil => rfl
  | cons member members ih =>
      obtain ⟨first, others⟩ := List.forall_mem_cons.mp terminated
      rw [List.flatten_cons, List.append_assoc, findAll_terminated_append first, ih others,
        List.flatMap_cons, List.append_assoc]

theorem findAll_flatten {members : List Text} (terminated : ∀ member ∈ members, Terminated member)
    (className : Text) :
    findAll members.flatten className = members.flatMap (findAll · className) := by
  simpa [findAll_eq_nil (List.forall_mem_nil _)] using
    findAll_flatten_append terminated [] className

/-- A piece shows one signature, or none. -/
theorem length_findAll_piece {t : Text} (h : IsPiece t) (className : Text) :
    (findAll t className).length ≤ 1 := by
  have one : (Text.areas t).length ≤ 1 := by
    rw [Text.areas_piece h]
    split <;> simp
  calc (findAll t className).length
      ≤ ((Text.areas t).filter fun area => !isConstructorArea className area).length :=
        List.length_filterMap_le _ _
    _ ≤ (Text.areas t).length := List.length_filter_le _ _
    _ ≤ 1 := one

/-- The signatures of a text are those of its pieces. -/
theorem findAll_eq_flatMap_segments (t className : Text) :
    findAll t className = (Text.segments t).flatMap (findAll · className) := by
  obtain ⟨rest, cut, arePieces, unterminated⟩ := Text.segments_spec t
  have row := findAll_flatten_append (fun piece member => (arePieces piece member).terminated)
    rest className
  rw [← cut, findAll_eq_nil unterminated, List.append_nil] at row
  exact row

/-- **Scanning for signatures is local and keeps the order.**  Behind a part that
is empty or ends with a terminator the scan starts anew.  So a row of members,
with anything behind it, shows what each member shows alone, in the order of the
members; another order of the members is another order of the same signatures.
Every text is such a row, its pieces, and each piece shows one signature at most. -/
theorem findAll_local (className : Text) :
    (∀ a b : Text, Terminated a →
      findAll (a ++ b) className = findAll a className ++ findAll b className) ∧
    (∀ (members : List Text) (rest : Text), (∀ member ∈ members, Terminated member) →
      findAll (members.flatten ++ rest) className =
        members.flatMap (findAll · className) ++ findAll rest className) ∧
    (∀ members others : List Text, (∀ member ∈ members, Terminated member) → members.Perm others →
      (findAll members.flatten className).Perm (findAll others.flatten className)) ∧
    ∀ t : Text, (∃ rest, t = (Text.segments t).flatten ++ rest ∧ Unterminated rest) ∧
      (∀ piece ∈ Text.segments t, IsPiece piece ∧ (findAll piece className).length ≤ 1) ∧
      findAll t className = (Text.segments t).flatMap (findAll · className) := by
  refine ⟨fun a b terminated => findAll_terminated_append terminated b className,
    fun members rest terminated => findAll_flatten_append terminated rest className, ?_, ?_⟩
  · intro members others terminated moved
    have alsoTerminated : ∀ member ∈ others, Terminated member :=
      fun member isOther => terminated member (moved.mem_iff.mpr isOther)
    rw [findAll_flatten terminated, findAll_flatten alsoTerminated]
    exact moved.flatMap_right _
  · intro t
    obtain ⟨rest, cut, arePieces, unterminated⟩ := Text.segments_spec t
    exact ⟨⟨rest, cut, unterminated⟩,
      fun piece member =>
        ⟨arePieces piece member, length_findAll_piece (arePieces piece member) className⟩,
      findAll_eq_flatMap_segments t className⟩

theorem findAll_local_account :
    let deposit : Text := "public void deposit(long amount) { add(amount); }".toList
    let balance : Text := "long balance();".toList
    findAll (deposit ++ balance) "Account".toList =
        findAll deposit "Account".toList ++ findAll balance "Account".toList ∧
      (findAll (deposit ++ balance) "Account".toList).map Signature.name =
        ["deposit".toList, "balance".toList] ∧
      findAll ([deposit, balance].flatten ++ "int open".toList) "Account".toList =
        [deposit, balance].flatMap (findAll · "Account".toList) ++ findAll "int open".toList
          "Account".toList ∧
      (findAll [deposit, balance].flatten "Account".toList).Perm
        (findAll [balance, deposit].flatten "Account".toList) ∧
      (Text.segments deposit).length = 3 ∧
      findAll deposit "Account".toList =
        (Text.segments deposit).flatMap (findAll · "Account".toList) := by
  intro deposit balance
  have depositEnds : Terminated deposit := Or.inr ⟨deposit.dropLast, '}', by decide, by decide⟩
  have balanceEnds : Terminated balance := Or.inr ⟨balance.dropLast, ';', by decide, by decide⟩
  have ends : ∀ member ∈ [deposit, balance], Terminated member := by
    simp [depositEnds, balanceEnds]
  obtain ⟨append, row, moved, pieces⟩ := findAll_local "Account".toList
  exact ⟨append deposit balance depositEnds, by decide +kernel, row [deposit, balance] _ ends,
    moved _ _ ends (List.Perm.swap balance deposit []), by decide, (pieces deposit).2.2⟩

end Signature
end Testwright
