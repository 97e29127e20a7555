import Testwright.Proofs.Testing.Token

namespace Testwright

/-!
# The token of a type and the token of its text

A token is computed in two ways: from the name of a type and the number of its
dimensions, and from a text, out of which the angle brackets are taken first.  They
agree on every type that is put together from names without angle brackets
(`TypeTree.tokens_of_text`).  Of the text of such a type the name and the bracket
pairs are left (`TypeTree.eraseAngles_render`), and bracket pairs behind a name only add
their marks, whatever brackets, dots and blanks the name has itself
(`Token.render_append_brackets`).
-/

open Character (isAlphanumeric isBlank)
open Text (Blank eraseAngles)

namespace Text

/-! ## Blanks behind a text -/

/-- Without the blanks in front, a text is its trimmed form and blanks. -/
theorem exists_trimStart (t : Text) : ∃ gap, Blank gap ∧ trimStart t = trim t ++ gap := by
  refine ⟨((trimStart t).reverse.takeWhile isBlank).reverse,
    fun c member => List.mem_takeWhile_imp (List.mem_reverse.mp member), ?_⟩
  rw [trim, trimEnd, ← List.reverse_append, List.takeWhile_append_dropWhile, List.reverse_reverse]

theorem trim_append_blank {gap : Text} (blank : Blank gap) (t : Text) :
    trim (t ++ gap) = trim t := by
  rcases exists_surround t with ⟨front, back, blankFront, blankBack, trimmed, whole⟩
  have longer : t ++ gap = front ++ (trim t ++ (back ++ gap)) := by
    conv_lhs => rw [whole]
    simp
  rw [longer, trim_surround blankFront (blankBack.append blank) trimmed]

/-! ## What stands in angle brackets -/

theorem eraseAngles_append {s : Text} (noOpening : '<' ∉ s) (noClosing : '>' ∉ s) (t : Text) :
    eraseAngles 0 (s ++ t) = s ++ eraseAngles 0 t := by
  induction s with
  | nil => rfl
  | cons c s ih =>
      rw [List.mem_cons, not_or] at noOpening noClosing
      rw [List.cons_append, eraseAngles, if_pos ⟨rfl, Ne.symm noOpening.1, Ne.symm noClosing.1⟩,
        ih noOpening.2 noClosing.2, List.cons_append]

/-- Inside of angle brackets nothing of the text is left, and it leaves the brackets as they
are. -/
def IsErased (t : Text) : Prop :=
  ∀ depth u, eraseAngles (depth + 1) (t ++ u) = eraseAngles (depth + 1) u

theorem isErased_nil : IsErased [] :=
  fun _ _ => rfl

theorem IsErased.append {s t : Text} (first : IsErased s) (second : IsErased t) :
    IsErased (s ++ t) := by
  intro depth u
  rw [List.append_assoc, first, second]

theorem isErased_of_not_mem {t : Text} (noOpening : '<' ∉ t) (noClosing : '>' ∉ t) :
    IsErased t := by
  intro depth u
  induction t with
  | nil => rfl
  | cons c t ih =>
      rw [List.mem_cons, not_or] at noOpening noClosing
      have same : nest (depth + 1) c = depth + 1 := by
        simp [nest, Ne.symm noOpening.1, Ne.symm noClosing.1]
      rw [List.cons_append, eraseAngles, if_neg (by simp), same, ih noOpening.2 noClosing.2]

theorem eraseAngles_angled {s : Text} (erased : IsErased s) (depth : Nat) (t : Text) :
    eraseAngles depth ('<' :: (s ++ '>' :: t)) = eraseAngles depth t := by
  have opened : nest depth '<' = depth + 1 := rfl
  have closed : nest (depth + 1) '>' = depth := rfl
  rw [eraseAngles, if_neg (by simp), opened, erased, eraseAngles, if_neg (by simp), closed]

theorem IsErased.angled {s t : Text} (erased : IsErased s) (rest : IsErased t) :
    IsErased ('<' :: (s ++ '>' :: t)) := by
  intro depth u
  have whole : '<' :: (s ++ '>' :: t) ++ u = '<' :: (s ++ '>' :: (t ++ u)) := by simp
  rw [whole, eraseAngles_angled erased, rest]

end Text

namespace Token

/-! ## The characters of a token -/

theorem isTokenChar_of_mem_sanitize {t : Text} {c : Char} (member : c ∈ sanitize t) :
    isTokenChar c = true := by
  rcases List.mem_map.mp member with ⟨d, -, rfl⟩
  split
  · assumption
  · decide

theorem isTokenChar_of_mem_render {keep : Text → Text} {typeText : Text} {c : Char}
    (member : c ∈ render keep typeText) : isTokenChar c = true := by
  rcases List.mem_append.mp member with inName | inMarks
  · exact isTokenChar_of_mem_sanitize inName
  · exact (by decide : ∀ c ∈ "Array".toList, isTokenChar c = true) c (mem_arrayMarks inMarks)

theorem isTokenChar_iff {c : Char} :
    isTokenChar c = true ↔ isAlphanumeric c = true ∨ c = '_' ∨ c = '$' := by
  simp [isTokenChar, or_assoc]

/-! ## Three dots -/

theorem dotsToBrackets_cons (c : Char) (t : Text) :
    dotsToBrackets (c :: t) =
      if "...".toList <+: c :: t then "[]".toList ++ dotsToBrackets (t.drop 2)
        else c :: dotsToBrackets t := by
  by_cases dots : "...".toList <+: c :: t
  · rcases dots with ⟨rest, whole⟩
    rcases List.cons.inj whole with ⟨rfl, rfl⟩
    rw [if_pos ⟨rest, rfl⟩]
    rfl
  · have other : "...".toList.isPrefixOf (c :: t) = false :=
      Bool.eq_false_iff.mpr fun found => dots (List.isPrefixOf_iff_prefix.mp found)
    rw [if_neg dots, dotsToBrackets, Text.replaceAll, Text.replaceFrom, other]
    rfl

/-- Three dots do not reach into a text that begins with something else. -/
theorem dotsToBrackets_append {t : Text} (front : t.head? ≠ some '.') (s : Text) :
    dotsToBrackets (s ++ t) = dotsToBrackets s ++ dotsToBrackets t := by
  induction size : s.length using Nat.strongRecOn generalizing s with
  | ind n ih =>
      cases s with
      | nil => rfl
      | cons c s =>
          have same : "...".toList <+: c :: (s ++ t) ↔ "...".toList <+: c :: s := by
            cases t with
            | nil => rw [List.append_nil]
            | cons d t =>
                have other : '.' ≠ d := fun dot => front (by rw [dot]; rfl)
                rcases s with _ | ⟨e, _ | ⟨f, s⟩⟩ <;> simp [other]
          rw [List.cons_append, dotsToBrackets_cons, dotsToBrackets_cons]
          by_cases dots : "...".toList <+: c :: s
          · rw [if_pos (same.mpr dots), if_pos dots]
            rcases dots with ⟨rest, whole⟩
            obtain rfl : s = '.' :: '.' :: rest := (List.cons.inj whole).2.symm
            have shorter : rest.length < n := by
              rw [← size, List.length_cons, List.length_cons, List.length_cons]
              omega
            simpa using ih rest.length shorter rest rfl
          · rw [if_neg (fun found => dots (same.mp found)), if_neg dots,
              ih s.length (by simp [← size]) s rfl, List.cons_append]

theorem dotsToBrackets_of_not_mem {t : Text} (absent : '.' ∉ t) : dotsToBrackets t = t := by
  apply Text.replaceAll_of_absent
  rintro x y rfl - ⟨rest, rfl⟩
  exact absent (by simp)

/-! ## Bracket pairs -/

theorem brackets_succ (dimensions : Nat) :
    TypeTree.brackets (dimensions + 1) = '[' :: ']' :: TypeTree.brackets dimensions := by
  simp [TypeTree.brackets, List.replicate_succ]

theorem arrayMarks_add (m n : Nat) : arrayMarks (m + n) = arrayMarks m ++ arrayMarks n := by
  rw [arrayMarks, List.replicate_add, List.flatten_append]
  rfl

theorem count_brackets (dimensions : Nat) :
    (TypeTree.brackets dimensions).count '[' = dimensions := by
  induction dimensions with
  | zero => rfl
  | succ dimensions ih => rw [brackets_succ]; simp [ih]

theorem mem_brackets {c : Char} {dimensions : Nat} (member : c ∈ TypeTree.brackets dimensions) :
    c = '[' ∨ c = ']' := by
  rcases List.mem_flatten.mp member with ⟨pair, isPair, inside⟩
  rw [List.eq_of_mem_replicate isPair] at inside
  simpa using inside

/-- Bracket pairs keep blanks behind a name from being trimmed. -/
theorem trim_append_brackets (name : Text) (dimensions : Nat) :
    Text.trim (name ++ TypeTree.brackets (dimensions + 1)) =
      Text.trimStart name ++ TypeTree.brackets (dimensions + 1) := by
  have some : TypeTree.brackets (dimensions + 1) ≠ [] := by
    rw [brackets_succ]
    exact List.cons_ne_nil _ _
  have visible : ∀ c ∈ TypeTree.brackets (dimensions + 1), isBlank c = false := by
    intro c member
    rcases mem_brackets member with rfl | rfl <;> decide
  have start : Text.trimStart (name ++ TypeTree.brackets (dimensions + 1)) =
      Text.trimStart name ++ TypeTree.brackets (dimensions + 1) := by
    rw [Text.trimStart, Text.trimStart, List.dropWhile_append]
    split
    · rename_i empty
      have noBlank : isBlank '[' = false := by decide
      rw [List.isEmpty_iff.mp empty, brackets_succ, List.dropWhile_cons, noBlank]
      rfl
    · rfl
  rw [Text.trim, start]
  refine Text.trimEnd_of_back fun c last => visible c ?_
  rw [List.getLast?_append_of_ne_nil _ some] at last
  exact List.mem_of_getLast? last

/-- What is kept of a name does not hang on blanks behind the name. -/
def KeepsTrimmed (keep : Text → Text) : Prop :=
  ∀ t gap, Blank gap → Text.trim (keep (t ++ gap)) = Text.trim (keep t)

theorem keepsTrimmed_id : KeepsTrimmed id :=
  fun t _ blank => Text.trim_append_blank blank t

theorem keepsTrimmed_afterLast : KeepsTrimmed (Text.afterLast '.') := by
  intro t gap blank
  have noDot : '.' ∉ gap := fun member => absurd (blank '.' member) (by decide)
  by_cases dot : '.' ∈ t
  · rcases Text.exists_last_cut dot with ⟨a, b, rfl, last⟩
    have both : '.' ∉ b ++ gap := by simp [last, noDot]
    rw [List.append_assoc, List.cons_append, Text.afterLast_append both, Text.afterLast_append last,
      Text.trim_append_blank blank]
  · have both : '.' ∉ t ++ gap := by simp [dot, noDot]
    rw [Text.afterLast_of_not_mem both, Text.afterLast_of_not_mem dot, Text.trim_append_blank blank]

/-- The token of what is left of a type text without its angle brackets. -/
def ofErased (keep : Text → Text) (erased : Text) : Text :=
  sanitize (Text.trim (keep (erased.takeWhile fun c => !(c == '[')))) ++
    arrayMarks ((erased.dropWhile fun c => !(c == '[')).count '[')

theorem render_eq (keep : Text → Text) (typeText : Text) :
    render keep typeText = ofErased keep (dotsToBrackets (Text.trim (eraseAngles 0 typeText))) :=
      rfl

theorem ofErased_of_not_mem (keep : Text → Text) {name : Text} (absent : '[' ∉ name) :
    ofErased keep name = sanitize (Text.trim (keep name)) := by
  have noBracket : ∀ c ∈ name, (!(c == '[')) = true := fun c member => by
    simpa using fun same : c = '[' => absent (same ▸ member)
  rw [ofErased, List.takeWhile_eq_self_iff.mpr noBracket, List.dropWhile_eq_nil_iff.mpr noBracket]
  exact List.append_nil _

theorem ofErased_append_cons (keep : Text → Text) {name : Text} (absent : '[' ∉ name) (t : Text) :
    ofErased keep (name ++ '[' :: t) =
      sanitize (Text.trim (keep name)) ++ arrayMarks (t.count '[' + 1) := by
  have noBracket : ∀ c ∈ name, (!(c == '[')) = true := fun c member => by
    simpa using fun same : c = '[' => absent (same ▸ member)
  rw [ofErased, List.takeWhile_append_of_pos noBracket, List.dropWhile_append_of_pos noBracket]
  simp

/-- Bracket pairs behind a name add their marks, blanks in front of them or not. -/
theorem ofErased_append_brackets {keep : Text → Text} (keeps : KeepsTrimmed keep) {gap : Text}
    (blank : Blank gap) (name : Text) (dimensions : Nat) :
    ofErased keep (name ++ (gap ++ TypeTree.brackets (dimensions + 1))) =
      ofErased keep name ++ arrayMarks (dimensions + 1) := by
  have inGap : '[' ∉ gap := fun member => absurd (blank _ member) (by decide)
  by_cases bracket : '[' ∈ name
  · -- the name ends at a bracket of its own, and the pairs behind it only count
    rcases List.eq_append_cons_of_mem bracket with ⟨front, back, rfl, absent⟩
    have count : (back ++ (gap ++ TypeTree.brackets (dimensions + 1))).count '[' + 1 =
        (back.count '[' + 1) + (dimensions + 1) := by
      rw [List.count_append, List.count_append, List.count_eq_zero.mpr inGap, count_brackets]
      omega
    rw [List.append_assoc, List.cons_append, ofErased_append_cons keep absent,
      ofErased_append_cons keep absent, count, arrayMarks_add, List.append_assoc]
  · have absent : '[' ∉ name ++ gap := by simp [bracket, inGap]
    have count : (']' :: TypeTree.brackets dimensions).count '[' + 1 = dimensions + 1 := by
      rw [List.count_cons_of_ne (by decide), count_brackets]
    rw [brackets_succ, ← List.append_assoc, ofErased_append_cons keep absent,
      ofErased_of_not_mem keep bracket, keeps name gap blank, count]

/-- The token of a name with bracket pairs behind it is that of the name, and one mark for
each pair. -/
theorem render_append_brackets {keep : Text → Text} (keeps : KeepsTrimmed keep)
    {typeText name : Text} {dimensions : Nat} (noOpening : '<' ∉ name) (noClosing : '>' ∉ name)
    (left : eraseAngles 0 typeText = name ++ TypeTree.brackets dimensions) :
    render keep typeText = render keep name ++ arrayMarks dimensions := by
  rw [render_eq, render_eq, left, Text.eraseAngles_of_not_mem noOpening noClosing]
  cases dimensions with
  | zero =>
      have none : TypeTree.brackets 0 = [] := rfl
      rw [none, List.append_nil]
      exact (List.append_nil _).symm
  | succ dimensions =>
      rcases Text.exists_trimStart name with ⟨gap, blank, start⟩
      have noDot : '.' ∉ gap ++ TypeTree.brackets (dimensions + 1) := by
        rw [List.mem_append, not_or]
        exact ⟨fun member => absurd (blank '.' member) (by decide), fun member => by
          rcases mem_brackets member with same | same <;> exact absurd same (by decide)⟩
      rw [trim_append_brackets, start, List.append_assoc, dotsToBrackets_append
        (fun head => noDot (List.mem_of_head? head)), dotsToBrackets_of_not_mem noDot,
        ofErased_append_brackets keeps blank]

end Token

namespace TypeTree

open Token (arrayMarks)

/-! ## Types that are put together -/

/-- A type that is put together from names without angle brackets, by giving it arguments of
this kind and dimensions, in any order and any number of times. -/
inductive IsAssembled : TypeTree → Prop
  | named {name : Text} (noOpening : '<' ∉ name) (noClosing : '>' ∉ name) : IsAssembled (named name)
  | withArguments {type : TypeTree} {arguments : List TypeTree} (base : IsAssembled type)
      (each : ∀ argument ∈ arguments, IsAssembled argument) :
        IsAssembled (type.withArguments arguments)
  | withDimensions {type : TypeTree} (base : IsAssembled type) (dimensions : Nat) :
      IsAssembled (type.withDimensions dimensions)

/-- What the steps keep: the name has no angle brackets, the arguments are put together, and
the token is that of the name and the dimensions. -/
structure IsConsistent (type : TypeTree) : Prop where
  noOpening : '<' ∉ type.name
  noClosing : '>' ∉ type.name
  arguments : ∀ argument ∈ type.arguments, IsAssembled argument
  token : type.token = Token.simple type.name ++ arrayMarks type.dimensions

theorem IsAssembled.isConsistent {type : TypeTree} (h : IsAssembled type) : IsConsistent type := by
  induction h with
  | named noOpening noClosing =>
      exact ⟨noOpening, noClosing, fun argument member => (nomatch member),
        (List.append_nil _).symm⟩
  | withArguments _ each ih => exact ⟨ih.noOpening, ih.noClosing, each, ih.token⟩
  | withDimensions _ dimensions ih => exact ⟨ih.noOpening, ih.noClosing, ih.arguments, rfl⟩

theorem not_mem_brackets {c : Char} (notOpen : c ≠ '[') (notClose : c ≠ ']') (dimensions : Nat) :
    c ∉ brackets dimensions := fun member => (Token.mem_brackets member).elim notOpen notClose

theorem render_of_arguments (name : Text) (first : TypeTree) (rest : List TypeTree)
    (dimensions : Nat) (token : Text) :
    render ⟨name, first :: rest, dimensions, token⟩ =
      name ++ '<' :: ((render first ++ renderRest rest) ++ '>' :: brackets dimensions) := by
  rw [render]
  simp

theorem isErased_brackets (dimensions : Nat) : Text.IsErased (brackets dimensions) :=
  Text.isErased_of_not_mem (not_mem_brackets (by decide) (by decide) dimensions)
    (not_mem_brackets (by decide) (by decide) dimensions)

mutual

/-- Inside of angle brackets nothing of a type is left. -/
theorem isErased_render : (type : TypeTree) → IsAssembled type → Text.IsErased type.render
  | ⟨name, [], dimensions, token⟩, h => by
      have named := Text.isErased_of_not_mem h.isConsistent.noOpening h.isConsistent.noClosing
      exact named.append (isErased_brackets dimensions)
  | ⟨name, first :: rest, dimensions, token⟩, h => by
      rcases List.forall_mem_cons.mp h.isConsistent.arguments with ⟨isFirst, others⟩
      have inner := (isErased_render first isFirst).append (isErased_renderRest rest others)
      have named := Text.isErased_of_not_mem h.isConsistent.noOpening h.isConsistent.noClosing
      rw [render_of_arguments]
      exact named.append (inner.angled (isErased_brackets dimensions))

theorem isErased_renderRest : (types : List TypeTree) → (∀ type ∈ types, IsAssembled type) →
    Text.IsErased (renderRest types)
  | [], _ => Text.isErased_nil
  | type :: types, each => by
      rcases List.forall_mem_cons.mp each with ⟨isFirst, others⟩
      have comma : Text.IsErased ", ".toList := Text.isErased_of_not_mem (by decide) (by decide)
      exact comma.append ((isErased_render type isFirst).append (isErased_renderRest types others))

end

/-- Of the text of a type its name and its bracket pairs are left. -/
theorem eraseAngles_render {type : TypeTree} (h : IsAssembled type) :
    eraseAngles 0 type.render = type.name ++ brackets type.dimensions := by
  have consistent := h.isConsistent
  have bare : eraseAngles 0 (brackets type.dimensions) = brackets type.dimensions :=
    Text.eraseAngles_of_not_mem (not_mem_brackets (by decide) (by decide) _)
      (not_mem_brackets (by decide) (by decide) _)
  rcases type with ⟨name, _ | ⟨first, rest⟩, dimensions, token⟩
  · rw [render, Text.eraseAngles_append consistent.noOpening consistent.noClosing, bare]
  · rcases List.forall_mem_cons.mp consistent.arguments with ⟨isFirst, others⟩
    have inner := (isErased_render first isFirst).append (isErased_renderRest rest others)
    rw [render_of_arguments, Text.eraseAngles_append consistent.noOpening consistent.noClosing,
      Text.eraseAngles_angled inner, bare]

/-- A token holds letters, numbers, underscores and dollar signs only, and the tokens that
go with a type that was put together are those of its text. -/
theorem tokens_of_text :
    (∀ typeText : Text, ∀ c, c ∈ Token.simple typeText ∨ c ∈ Token.qualified typeText →
      isAlphanumeric c = true ∨ c = '_' ∨ c = '$') ∧
    ∀ type : TypeTree, IsAssembled type →
      type.token = Token.simple type.render ∧
      type.qualifiedToken = Token.qualified type.render := by
  constructor
  · rintro typeText c (member | member)
    · exact Token.isTokenChar_iff.mp (Token.isTokenChar_of_mem_render member)
    · exact Token.isTokenChar_iff.mp (Token.isTokenChar_of_mem_render member)
  · intro type h
    have consistent := h.isConsistent
    have left := eraseAngles_render h
    constructor
    · rw [consistent.token, Token.simple, Token.simple,
        Token.render_append_brackets Token.keepsTrimmed_afterLast
        consistent.noOpening consistent.noClosing left]
    · rw [qualifiedToken, Token.qualified, Token.qualified,
        Token.render_append_brackets Token.keepsTrimmed_id
        consistent.noOpening consistent.noClosing left]

theorem tokens_of_text_nested :
    let bound := (named "? extends c.D...".toList).withDimensions 1
    let inner := (named "x[ ,.y".toList).withArguments [bound]
    let type := (((named " a.b$....  ".toList).withDimensions 3).withArguments
      [inner, bound]).withDimensions 2
    IsAssembled type ∧ type.token = Token.simple type.render ∧
    type.qualifiedToken = Token.qualified type.render := by
  intro bound inner type
  have isBound : IsAssembled bound := .withDimensions (.named (by decide) (by decide)) 1
  have isInner : IsAssembled inner :=
    .withArguments (.named (by decide) (by decide)) (List.forall_mem_singleton.mpr isBound)
  have isType : IsAssembled type :=
    .withDimensions (.withArguments (.withDimensions (.named (by decide) (by decide)) 3)
      (List.forall_mem_cons.mpr ⟨isInner, List.forall_mem_singleton.mpr isBound⟩)) 2
  exact ⟨isType, tokens_of_text.2 type isType⟩

end TypeTree
end Testwright
