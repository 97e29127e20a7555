import Testwright.Proofs.Header.ImportLine
import Testwright.Surface.TypeTree

namespace Testwright

/-!
# Tokens of plain types

The name of a plain type is a dotted path of letters and numbers that does not
end in `Array`.  Its token is the last name of the path and its qualified token
the path with underscores for the dots, each with one `Array` for each dimension.
So an underscore stands in the qualified token exactly if there is a package, and
the qualified token gives the type back (`qualifiedToken_injective`).
-/

open Character (isAlphanumeric)
open Text (Visible)

/-- Without angle brackets there is nothing to erase. -/
theorem Text.eraseAngles_of_not_mem {t : Text} (noOpening : '<' ∉ t) (noClosing : '>' ∉ t) :
    Text.eraseAngles 0 t = t := by
  induction t with
  | nil => rfl
  | cons c t ih =>
      rw [List.mem_cons, not_or] at noOpening noClosing
      rw [Text.eraseAngles, if_pos ⟨rfl, Ne.symm noOpening.1, Ne.symm noClosing.1⟩,
        ih noOpening.2 noClosing.2]

namespace Token

/-- A dotted path of letters and numbers that does not end in `Array`. -/
def isPlainName (name : Text) : Bool :=
  Header.isDottedPath name && (name.all fun c => c == '.' || isAlphanumeric c) &&
    !"Array".toList.isSuffixOf name

theorem mem_arrayMarks {c : Char} {dimensions : Nat} (member : c ∈ arrayMarks dimensions) :
    c ∈ "Array".toList := by
  rcases List.mem_flatten.mp member with ⟨marks, isMark, inside⟩
  exact List.eq_of_mem_replicate isMark ▸ inside

/-- Texts that do not end in a mark are told from their marks. -/
theorem append_arrayMarks_inj {s t : Text} (noMark : ¬ "Array".toList <:+ s)
    (noMark' : ¬ "Array".toList <:+ t) {m n : Nat} (same : s ++ arrayMarks m = t ++ arrayMarks n) :
    s = t ∧ m = n := by
  have succ : ∀ k, arrayMarks (k + 1) = arrayMarks k ++ "Array".toList := by
    intro k
    simp only [arrayMarks, List.replicate_succ', List.flatten_append, List.flatten_singleton]
  induction m generalizing n with
  | zero =>
      cases n with
      | zero => exact ⟨by simpa [arrayMarks] using same, rfl⟩
      | succ n =>
          rw [succ, ← List.append_assoc] at same
          exact absurd ⟨t ++ arrayMarks n, by rw [← same]; simp [arrayMarks]⟩ noMark
  | succ m ih =>
      cases n with
      | zero =>
          rw [succ, ← List.append_assoc] at same
          exact absurd ⟨s ++ arrayMarks m, by rw [same]; simp [arrayMarks]⟩ noMark'
      | succ n =>
          rw [succ, succ, ← List.append_assoc, ← List.append_assoc] at same
          rcases ih (List.append_cancel_right same) with ⟨texts, marks⟩
          exact ⟨texts, by rw [marks]⟩

variable {name : Text} (plain : isPlainName name = true)
include plain

theorem isDottedPath_of_isPlainName : Header.isDottedPath name = true := by
  rw [isPlainName, Bool.and_eq_true, Bool.and_eq_true] at plain
  exact plain.1.1

theorem dot_or_alphanumeric_of_isPlainName {c : Char} (member : c ∈ name) :
    c = '.' ∨ isAlphanumeric c = true := by
  rw [isPlainName, Bool.and_eq_true, Bool.and_eq_true, List.all_eq_true] at plain
  simpa using plain.1.2 c member

theorem not_array_suffix_of_isPlainName : ¬ "Array".toList <:+ name := by
  rw [isPlainName, Bool.and_eq_true] at plain
  intro suffix
  have found : "Array".toList.isSuffixOf name = true := List.isSuffixOf_iff_suffix.mpr suffix
  rw [found] at plain
  cases plain.2

/-- A plain name has no character but a dot, a letter or a number. -/
theorem not_mem_of_isPlainName {c : Char} (noDot : c ≠ '.') (other : isAlphanumeric c = false) :
    c ∉ name := by
  intro member
  rcases dot_or_alphanumeric_of_isPlainName plain member with dot | alphanumeric
  · exact noDot dot
  · rw [other] at alphanumeric
    cases alphanumeric

theorem visible_of_isPlainName : Visible name :=
  Header.visible_of_isDottedPath (isDottedPath_of_isPlainName plain)

theorem eraseAngles_of_isPlainName : Text.eraseAngles 0 name = name :=
  Text.eraseAngles_of_not_mem (not_mem_of_isPlainName plain (by decide) (by decide))
    (not_mem_of_isPlainName plain (by decide) (by decide))

theorem dotsToBrackets_of_isPlainName : dotsToBrackets name = name := by
  apply Text.replaceAll_of_absent
  rintro x y cut - ⟨z, dots⟩
  have whole : name = x ++ '.' :: ([] ++ '.' :: ('.' :: z)) := by
    rw [cut, ← dots]
    rfl
  have dotted := isDottedPath_of_isPlainName plain
  rw [Header.isDottedPath, whole, Text.splitOn_append_cons (by decide),
    Text.splitOn_append_cons (by decide), List.all_append, List.all_append] at dotted
  simp [Text.splitOn] at dotted

omit plain in
theorem sanitize_of_alphanumeric {t : Text} (h : ∀ c ∈ t, isAlphanumeric c = true) :
    sanitize t = t := by
  have kept : ∀ c ∈ t, (if isTokenChar c then c else '_') = c := by
    intro c member
    simp [isTokenChar, h c member]
  exact (List.map_congr_left kept).trans (List.map_id t)

theorem render_of_isPlainName {keep : Text → Text} (kept : Visible (keep name)) :
    render keep name = sanitize (keep name) := by
  have noBracket : ∀ c ∈ name, (!(c == '[')) = true := by
    intro c member
    have other : c ≠ '[' := fun same =>
      not_mem_of_isPlainName plain (c := '[') (by decide) (by decide) (same ▸ member)
    simpa using other
  have whole : name.takeWhile (fun c => !(c == '[')) = name :=
    List.takeWhile_eq_self_iff.mpr noBracket
  have none : name.dropWhile (fun c => !(c == '[')) = [] := List.dropWhile_eq_nil_iff.mpr noBracket
  rw [render, eraseAngles_of_isPlainName plain,
    (Text.isTrimmed_of_visible (visible_of_isPlainName plain)).trim_eq,
    dotsToBrackets_of_isPlainName plain]
  simp only [whole, none]
  rw [ (Text.isTrimmed_of_visible kept).trim_eq]
  simp [arrayMarks]

theorem qualified_of_isPlainName : qualified name = sanitize name :=
  render_of_isPlainName plain (visible_of_isPlainName plain)

theorem alphanumeric_of_mem_afterLast {c : Char} (member : c ∈ Text.afterLast '.' name) :
    c ∈ name ∧ isAlphanumeric c = true := by
  by_cases dot : '.' ∈ name
  · rcases Text.exists_last_cut dot with ⟨a, b, cut, last⟩
    have shown : Text.afterLast '.' name = b := by
      rw [cut, Text.afterLast_append last]
    rw [shown] at member
    have inside : c ∈ name := by
      rw [cut]
      exact List.mem_append_right a (List.mem_cons_of_mem _ member)
    refine ⟨inside, (dot_or_alphanumeric_of_isPlainName plain inside).resolve_left ?_⟩
    rintro rfl
    exact last member
  · rw [Text.afterLast_of_not_mem dot] at member
    refine ⟨member, (dot_or_alphanumeric_of_isPlainName plain member).resolve_left ?_⟩
    rintro rfl
    exact dot member

theorem simple_of_isPlainName : simple name = Text.afterLast '.' name := by
  have visible : Visible (Text.afterLast '.' name) := fun c member =>
    visible_of_isPlainName plain c (alphanumeric_of_mem_afterLast plain member).1
  rw [simple, render_of_isPlainName plain visible]
  exact sanitize_of_alphanumeric fun c member => (alphanumeric_of_mem_afterLast plain member).2

/-- The dots of a plain name can be told from its underscores again. -/
theorem map_sanitize : (sanitize name).map (fun c => if c = '_' then '.' else c) = name := by
  have back : ∀ c ∈ name, ((fun c => if c = '_' then '.' else c) ∘
      fun c => if isTokenChar c then c else '_') c = c := by
    intro c member
    rcases dot_or_alphanumeric_of_isPlainName plain member with rfl | alphanumeric
    · have dot : isTokenChar '.' = false := by decide
      simp [dot]
    · have noMark : c ≠ '_' := by
        rintro rfl
        exact absurd alphanumeric (by decide)
      simp [isTokenChar, alphanumeric, noMark]
  rw [sanitize, List.map_map]
  exact (List.map_congr_left back).trans (List.map_id name)

theorem mem_sanitize_iff : '_' ∈ sanitize name ↔ '.' ∈ name := by
  have absent : '_' ∉ name := not_mem_of_isPlainName plain (by decide) (by decide)
  constructor
  · intro member
    have dot := List.mem_map_of_mem (f := fun c => if c = '_' then '.' else c) member
    rw [map_sanitize plain] at dot
    exact dot
  · intro member
    have dot : isTokenChar '.' = false := by decide
    exact List.mem_map.mpr ⟨'.', member, by simp [dot]⟩

theorem not_array_suffix_sanitize : ¬ "Array".toList <:+ sanitize name := by
  intro suffix
  apply not_array_suffix_of_isPlainName plain
  have back := suffix.map fun c => if c = '_' then '.' else c
  rw [map_sanitize plain] at back
  exact back

end Token

namespace TypeTree

open Token (arrayMarks isPlainName sanitize)

/-- A type with a plain name and the token that goes with it. -/
def isPlain (type : TypeTree) : Bool :=
  isPlainName type.name && type.token == Token.simple type.name ++ arrayMarks type.dimensions

/-- Whether the name has a package in front. -/
def hasPackage (type : TypeTree) : Bool :=
  type.name.any (· == '.')

variable {type : TypeTree} (plain : type.isPlain = true)
include plain

theorem isPlainName_of_isPlain : isPlainName type.name = true := by
  rw [isPlain, Bool.and_eq_true] at plain
  exact plain.1

theorem token_of_isPlain :
    type.token = Text.afterLast '.' type.name ++ arrayMarks type.dimensions := by
  have name := isPlainName_of_isPlain plain
  rw [isPlain, Bool.and_eq_true, beq_iff_eq, Token.simple_of_isPlainName name] at plain
  exact plain.2

theorem qualifiedToken_of_isPlain :
    type.qualifiedToken = sanitize type.name ++ arrayMarks type.dimensions := by
  rw [qualifiedToken, Token.qualified_of_isPlainName (isPlainName_of_isPlain plain)]

theorem not_mem_token {c : Char} (other : isAlphanumeric c = false) : c ∉ type.token := by
  rw [token_of_isPlain plain]
  intro member
  rcases List.mem_append.mp member with inName | inMarks
  · rw [(Token.alphanumeric_of_mem_afterLast (isPlainName_of_isPlain plain) inName).2] at other
    cases other
  · have marks : ∀ d ∈ "Array".toList, isAlphanumeric d = true := by decide
    rw [marks c (Token.mem_arrayMarks inMarks)] at other
    cases other

theorem dollar_not_mem_qualifiedToken : '$' ∉ type.qualifiedToken := by
  rw [qualifiedToken_of_isPlain plain]
  intro member
  rcases List.mem_append.mp member with inName | inMarks
  · have absent : '$' ∉ type.name :=
      Token.not_mem_of_isPlainName (isPlainName_of_isPlain plain) (by decide) (by decide)
    rcases List.mem_map.mp inName with ⟨c, inside, same⟩
    split at same
    · exact absent (same ▸ inside)
    · exact absurd same (by decide)
  · exact absurd (Token.mem_arrayMarks inMarks) (by decide)

theorem underscore_mem_qualifiedToken_iff : '_' ∈ type.qualifiedToken ↔ type.hasPackage = true := by
  have noMark : '_' ∉ arrayMarks type.dimensions := fun member =>
    absurd (Token.mem_arrayMarks member) (by decide)
  rw [qualifiedToken_of_isPlain plain, List.mem_append,
    Token.mem_sanitize_iff (isPlainName_of_isPlain plain), hasPackage]
  simp [noMark]

theorem qualifiedToken_of_not_hasPackage (none : type.hasPackage = false) :
    type.qualifiedToken = type.token := by
  have absent : '.' ∉ type.name := by
    rw [hasPackage, List.any_eq_false] at none
    exact fun member => none '.' member rfl
  have name := isPlainName_of_isPlain plain
  have kept : sanitize type.name = type.name := Token.sanitize_of_alphanumeric fun c member =>
    (Token.dot_or_alphanumeric_of_isPlainName name member).resolve_left fun same =>
      absent (same ▸ member)
  rw [qualifiedToken_of_isPlain plain, token_of_isPlain plain, kept,
    Text.afterLast_of_not_mem absent]

theorem qualifiedToken_injective {type' : TypeTree} (plain' : type'.isPlain = true)
    (same : type.qualifiedToken = type'.qualifiedToken) :
    type.name = type'.name ∧ type.dimensions = type'.dimensions := by
  have name := isPlainName_of_isPlain plain
  have name' := isPlainName_of_isPlain plain'
  rw [qualifiedToken_of_isPlain plain, qualifiedToken_of_isPlain plain'] at same
  rcases Token.append_arrayMarks_inj (Token.not_array_suffix_sanitize name)
    (Token.not_array_suffix_sanitize name') same with ⟨names, dimensions⟩
  refine ⟨?_, dimensions⟩
  rw [← Token.map_sanitize name, names, Token.map_sanitize name']

end TypeTree
end Testwright
