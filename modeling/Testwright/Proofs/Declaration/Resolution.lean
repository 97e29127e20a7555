import Testwright.Proofs.Header.ImportPath

namespace Testwright

/-!
# Resolution of names

Resolving a resolved text changes nothing (`resolve_settles`).  What leads the bound of
a wildcard stays in front of the resolved bound (`resolve_boundLead`), so only the
innermost name matters.  There each rule keeps the name, or gives `Object`, or gives a
name that a later pass keeps (`Resolution`).  `Object` itself is kept unless an import
takes it over.  Under the qualifying policy no name is left that only the imports and
the package could explain.
-/

open Text (Visible singleSpaced words)

namespace Text

open Character (isBlank)

/-! ## Names in single spaces -/

theorem words_intercalate {ws : List Text} (each : ∀ w ∈ ws, Visible w ∧ w ≠ []) :
    words ([' '].intercalate ws) = ws := by
  induction ws with
  | nil => rfl
  | cons w ws ih =>
      have here := each w List.mem_cons_self
      by_cases last : ws = []
      · simpa [last] using words_of_visible here.1 here.2
      · rw [intercalate_cons_of_ne_nil _ _ last, words_append (by decide) (by decide),
          words_of_visible here.1 here.2,
          ih fun w' member => each w' (List.mem_cons_of_mem w member)]
        rfl

theorem head?_intercalate {between w : Text} (some : w ≠ []) (ws : List Text) :
    (between.intercalate (w :: ws)).head? = w.head? := by
  cases ws with
  | nil => simp
  | cons w' ws =>
      rw [intercalate_cons_of_ne_nil _ _ (List.cons_ne_nil w' ws),
        List.head?_append_of_ne_nil _ some]

theorem singleSpaced_of_visible {w : Text} (visible : Visible w) (some : w ≠ []) :
    singleSpaced w = w := by
  rw [singleSpaced, words_of_visible visible some, List.intercalate_singleton]

/-- What stands without a blank in front of a visible character belongs to the first
word. -/
theorem singleSpaced_append {v : Text} (visible : Visible v) {c : Char} (shown : isBlank c = false)
    (t : Text) :
    singleSpaced (v ++ c :: t) = v ++ singleSpaced (c :: t) := by
  obtain ⟨u, ws, cut⟩ := exists_words shown t
  have alone : words (c :: t) = (c :: u) :: ws := cut [] fun d member => nomatch member
  rw [singleSpaced, singleSpaced, cut v visible, alone]
  by_cases last : ws = []
  · simp [last]
  · rw [intercalate_cons_of_ne_nil _ _ last, intercalate_cons_of_ne_nil _ _ last, List.append_assoc]

/-- A text in single spaces begins with a visible character. -/
theorem not_isBlank_head {c : Char} {t : Text} (spaced : singleSpaced (c :: t) = c :: t) :
    isBlank c = false := by
  rw [singleSpaced] at spaced
  cases found : words (c :: t) with
  | nil => simp [found] at spaced
  | cons w ws =>
      have here := visible_of_mem_words (t := c :: t) (w := w) (by simp [found])
      have head : w.head? = some c := by
        rw [← head?_intercalate here.2 ws, ← found, spaced]
        rfl
      exact here.1 c (List.mem_of_mem_head? head)

end Text

namespace ImportPath

variable (path : ImportPath)

def segments : List Text :=
  path.first :: path.others

def lastSegment : Text :=
  path.segments.getLast (List.cons_ne_nil path.first path.others)

theorem afterLast_dotted : Text.afterLast '.' path.dotted = path.lastSegment := by
  obtain ⟨isStatic, first, others, isName, isSegment⟩ := path
  cases others using List.reverseRecOn with
  | nil =>
      have whole : first ++ ([] : List Text).flatMap (fun w => '.' :: w) = first := by simp
      rw [dotted, whole, Text.afterLast_of_not_mem (dot_not_mem_of_isSegment (Or.inl isName))]
      rfl
  | append_singleton others w =>
      have absent : '.' ∉ w := dot_not_mem_of_isSegment (isSegment w (by simp))
      have whole : first ++ (others ++ [w]).flatMap (fun w => '.' :: w) =
          first ++ others.flatMap (fun w => '.' :: w) ++ '.' :: w := by simp
      rw [dotted, whole, Text.afterLast_append absent]
      simp [lastSegment, segments]

theorem dot_mem_dotted (several : 2 ≤ path.segments.length) : '.' ∈ path.dotted := by
  obtain ⟨isStatic, first, others, isName, isSegment⟩ := path
  cases others with
  | nil => simp [segments] at several
  | cons w others => simp [dotted]

/-- An import covers the name that its path ends with, unless it is static. -/
theorem covers_declared (name : Text) :
    NameScope.covers path.declared name = true ↔
    path.isStatic = false ∧ path.lastSegment = name := by
  cases isStatic : path.isStatic with
  | true =>
      have led : Text.dropStart? "static ".toList path.declared = some path.dotted :=
        Text.dropStart?_eq_some_iff.mpr (by rw [declared, isStatic, if_pos rfl])
      rw [NameScope.covers, led]
      simp
  | false =>
      have bare : path.declared = path.dotted := by simp [declared, isStatic]
      have unled : Text.dropStart? "static ".toList path.dotted = none := by
        rw [Option.eq_none_iff_forall_ne_some]
        intro rest led
        exact path.space_not_mem_dotted (by rw [Text.dropStart?_eq_some_iff.mp led]; simp)
      rw [NameScope.covers, bare, unled, path.afterLast_dotted]
      simp

end ImportPath

/-- The scope of a class whose header says where names come from: the package is a
dotted path, if there is one, and the imports are paths. -/
structure HeaderScope where
  package : Option Text
  imports : List ImportPath
  isDottedPath_package : ∀ name ∈ package, Header.isDottedPath name = true

namespace HeaderScope

open NameScope (boundWords isVariable resolveName resolveWords)

def scope (header : HeaderScope) : NameScope where
  package := header.package
  imports := header.imports.map ImportPath.declared

/-- No import takes the name `Object` over. -/
def LeavesObject (header : HeaderScope) : Prop :=
  ∀ path ∈ header.imports, path.isStatic = false → path.lastSegment ≠ "Object".toList

/-! ## What the rules make of a name -/

/-- The resolution of a name that is no wildcard, with one constructor for each rule. -/
inductive Resolution (policy : ExtractionPolicy) (header : HeaderScope) (name : Text) : Text → Prop
  | basic (isBasic : name = "void".toList ∨ name ∈ TypeTree.primitives) :
      Resolution policy header name name
  | erased (isErased : isVariable name = true) : Resolution policy header name "Object".toList
  | dotted (member : '.' ∈ name) : Resolution policy header name name
  | covered (short : policy.qualifyImported = false) : Resolution policy header name name
  | imported {path : ImportPath} (member : path ∈ header.imports)
      (notStatic : path.isStatic = false)
      (isLast : path.lastSegment = name) : Resolution policy header name path.dotted
  | wellKnown (member : name ∈ NameScope.wellKnown) : Resolution policy header name name
  | packaged {package : Text} (isPackage : header.package = some package)
      (unlisted : name ∉ NameScope.wellKnown) :
        Resolution policy header name (package ++ '.' :: name)
  | unknown (bare : header.package = none ∨ policy.qualifyPackage = false) :
      Resolution policy header name name

section Rules

variable (policy : ExtractionPolicy) (header : HeaderScope)

theorem resolution_resolveName (name : Text) :
    Resolution policy header name (resolveName policy header.scope name) := by
  unfold resolveName
  split
  · next isBasic => exact .basic (isBasic.imp_right List.contains_iff_mem.mp)
  split
  · next isErased => exact .erased (Bool.and_eq_true_iff.mp isErased).2
  split
  · next isDotted =>
      obtain ⟨c, member, isDot⟩ := List.any_eq_true.mp isDotted
      exact .dotted (beq_iff_eq.mp isDot ▸ member)
  split
  · next imported found =>
      obtain ⟨path, member, rfl⟩ := List.mem_map.mp (List.mem_of_find?_eq_some found)
      have isCovered : NameScope.covers path.declared name = true :=
        List.find?_some (p := fun t => NameScope.covers t name) found
      obtain ⟨notStatic, isLast⟩ := (path.covers_declared name).mp isCovered
      split
      · have bare : path.declared = path.dotted := by simp [ImportPath.declared, notStatic]
        rw [bare]
        exact .imported member notStatic isLast
      · next short => exact .covered (Bool.eq_false_iff.mpr short)
  have unlisted : ¬ NameScope.wellKnown.contains name = true →
      name ∉ NameScope.wellKnown := fun unlisted member =>
    unlisted (List.contains_iff_mem.mpr member)
  split
  · next isKnown => exact .wellKnown (List.contains_iff_mem.mp isKnown)
  next isUnknown =>
  split
  · next package isPackage =>
      split
      · exact .packaged isPackage (unlisted isUnknown)
      · next bare => exact .unknown (Or.inr (Bool.eq_false_iff.mpr bare))
  · next none => exact .unknown (Or.inl none)

theorem resolveName_of_dot (scope : NameScope) {name : Text} (member : '.' ∈ name) :
    resolveName policy scope name = name := by
  have noVariable : isVariable name = false := by
    match name, member with
    | [], member => cases member
    | [c], member =>
        cases List.mem_singleton.mp member
        rfl
    | [c, d], member =>
        rcases List.mem_pair.mp member with rfl | rfl
        · rfl
        · exact Bool.and_false _
    | _ :: _ :: _ :: _, _ => rfl
  have isDotted : name.any (· == '.') = true := List.any_eq_true.mpr ⟨'.', member, rfl⟩
  unfold resolveName
  rw [noVariable, isDotted]
  simp

variable {header}

theorem resolveName_object (leaves : header.LeavesObject) :
    resolveName policy header.scope "Object".toList = "Object".toList := by
  have made := resolution_resolveName policy header "Object".toList
  generalize resolveName policy header.scope "Object".toList = result at made
  cases made with
  | basic | erased | dotted | covered | wellKnown | unknown => rfl
  | imported member notStatic isLast => exact absurd isLast (leaves _ member notStatic)
  | packaged _ unlisted => exact absurd (by decide) unlisted

/-- The rules leave alone what one of them has made. -/
theorem resolveName_resolveName (leaves : header.LeavesObject) (name : Text) :
    resolveName policy header.scope (resolveName policy header.scope name) =
      resolveName policy header.scope name := by
  have made := resolution_resolveName policy header name
  generalize same : resolveName policy header.scope name = result at made ⊢
  cases made with
  | basic | dotted | covered | wellKnown | unknown => exact same
  | erased => exact resolveName_object policy leaves
  | @imported path _ _ isLast =>
      by_cases member : '.' ∈ path.dotted
      · exact resolveName_of_dot policy _ member
      · -- A path of one segment is the name that it covers.
        have whole : path.dotted = name := by
          rw [← Text.afterLast_of_not_mem member, path.afterLast_dotted, isLast]
        rw [whole] at same ⊢
        exact same
  | packaged => exact resolveName_of_dot policy _ (by simp)

end Rules

/-! ## Names that are no wildcards -/

/-- A name in single spaces that is no wildcard. -/
structure IsUnmarked (name : Text) : Prop where
  spaced : singleSpaced name = name
  unmarked : name.head? ≠ some '?'

theorem IsUnmarked.resolve_eq {name : Text} (h : IsUnmarked name) (policy : ExtractionPolicy)
    (scope : NameScope) :
    scope.resolve policy name = resolveName policy scope name := by
  obtain ⟨spaced, unmarked⟩ := h
  have each : ∀ w ∈ words name, Visible w ∧ w ≠ [] := fun w => Text.visible_of_mem_words
  rw [NameScope.resolve]
  rw [singleSpaced] at spaced
  generalize words name = ws at spaced each ⊢
  subst spaced
  cases ws with
  | nil => rfl
  | cons w ws =>
      rw [Text.head?_intercalate (each w List.mem_cons_self).2] at unmarked
      cases ws with
      | nil => rw [resolveWords, if_neg unmarked, List.intercalate_singleton]
      | cons w' ws => rw [resolveWords, if_neg unmarked]

section Made

variable {policy : ExtractionPolicy} {header : HeaderScope} {name result : Text}

theorem Resolution.isUnmarked (h : IsUnmarked name) (made : Resolution policy header name result) :
    IsUnmarked result := by
  cases made with
  | basic | dotted | covered | wellKnown | unknown => exact h
  | erased => exact ⟨by decide, by decide⟩
  | @imported path =>
      have some := path.isName_first
      refine ⟨Text.singleSpaced_of_visible path.visible_dotted
        (by simp [ImportPath.dotted, some.1]), fun mark => ?_⟩
      rw [ImportPath.dotted, List.head?_append_of_ne_nil _ some.1] at mark
      exact absurd (some.2 '?' (List.mem_of_mem_head? mark)) (by decide)
  | @packaged package isPackage =>
      have isPath := header.isDottedPath_package package isPackage
      have visible := Header.visible_of_isDottedPath isPath
      refine ⟨?_, fun mark => ?_⟩
      · rw [Text.singleSpaced_append visible (by decide)]
        cases name with
        | nil => rfl
        | cons c t =>
            have shown := Text.not_isBlank_head h.spaced
            have dot := Text.singleSpaced_append (v := ['.']) (by decide) shown t
            rw [h.spaced] at dot
            exact congrArg (package ++ ·) dot
      · rw [List.head?_append_of_ne_nil _ (Header.isDottedPath_ne_nil isPath)] at mark
        exact absurd (Header.isDottedPart_of_isDottedPath isPath '?' (List.mem_of_mem_head? mark))
          (by decide)

theorem Resolution.ne_nil (some : name ≠ []) (made : Resolution policy header name result) :
    result ≠ [] := by
  cases made with
  | basic | dotted | covered | wellKnown | unknown => exact some
  | erased => decide
  | @imported path => simp [ImportPath.dotted, path.isName_first.1]
  | packaged => simp

/-- A compiler finds the type without the imports and the package of the class. -/
def IsExplained (name : Text) : Prop :=
  name = "void".toList ∨ name ∈ TypeTree.primitives ∨ name = ['?'] ∨
  name ∈ NameScope.wellKnown ∨ '.' ∈ name

theorem Resolution.isExplained (known : header.package ≠ none)
    (several : ∀ path ∈ header.imports, 2 ≤ path.segments.length)
    (made : Resolution .qualifying header name result) : IsExplained result := by
  cases made with
  | basic isBasic => exact isBasic.imp_right Or.inl
  | erased => exact Or.inr (Or.inr (Or.inr (Or.inl (by decide))))
  | dotted member => exact Or.inr (Or.inr (Or.inr (Or.inr member)))
  | covered short => cases short
  | imported member =>
      exact Or.inr (Or.inr (Or.inr (Or.inr (ImportPath.dot_mem_dotted _ (several _ member)))))
  | wellKnown member => exact Or.inr (Or.inr (Or.inr (Or.inl member)))
  | packaged => exact Or.inr (Or.inr (Or.inr (Or.inr (by simp))))
  | unknown bare =>
      rcases bare with none | off
      · exact absurd none known
      · cases off

end Made

/-! ## Wildcards -/

/-- A question mark and a word, as they lead the bound of a wildcard. -/
def boundLead (word : Text) : Text :=
  '?' :: ' ' :: (word ++ [' '])

/-- A text that leads a bound, without the lead. -/
def dropBound? (t : Text) : Option Text :=
  boundWords.findSome? fun word => Text.dropStart? (boundLead word) t

/-- The text behind all that lead bounds in front of it. -/
def innermost (t : Text) : Text :=
  (Text.peel dropBound? t).1

theorem innermost_boundLead {word : Text} (isBound : word ∈ boundWords) (t : Text) :
    innermost (boundLead word ++ t) = innermost t := by
  have layer : dropBound? (boundLead word ++ t) = some t := by
    rcases List.mem_pair.mp isBound with rfl | rfl <;>
      simp [dropBound?, boundWords, boundLead, Text.dropStart?]
  have shorter : t.length < (boundLead word ++ t).length := by
    rw [List.length_append]
    exact Nat.lt_add_of_pos_left (Nat.succ_pos _)
  rw [innermost, Text.peel_of_some layer shorter]
  rfl

theorem IsUnmarked.innermost_eq {name : Text} (h : IsUnmarked name) : innermost name = name := by
  have none : dropBound? name = none := by
    rw [dropBound?, List.findSome?_eq_none_iff]
    intro word _
    rw [Option.eq_none_iff_forall_ne_some]
    intro rest led
    exact h.unmarked (by rw [Text.dropStart?_eq_some_iff.mp led]; rfl)
  rw [innermost, Text.peel_of_none none]

section Bounds

variable (policy : ExtractionPolicy) (scope : NameScope) {word : Text} (isBound : word ∈ boundWords)
include isBound

theorem words_boundLead (t : Text) : words (boundLead word ++ t) = ['?'] :: word :: words t := by
  have shown : Visible word ∧ word ≠ [] := by
    have all : ∀ w ∈ boundWords, Visible w ∧ w ≠ [] := by decide
    exact all word isBound
  have whole : boundLead word ++ t = ['?'] ++ ([' '] ++ (word ++ ([' '] ++ t))) := by
    simp [boundLead]
  rw [whole, Text.words_append (by decide) (by decide), Text.words_append (by decide) (by decide),
    Text.words_of_visible shown.1 shown.2]
  rfl

/-- Resolution passes over what leads a bound. -/
theorem resolve_boundLead {t : Text} (some : words t ≠ []) :
    scope.resolve policy (boundLead word ++ t) = boundLead word ++ scope.resolve policy t := by
  have noBound : ([] : Text) ∉ boundWords := by decide
  rw [NameScope.resolve, NameScope.resolve, words_boundLead isBound]
  simp [resolveWords, noBound, isBound, some, boundLead]

end Bounds

/-- What resolution makes of a text: a wildcard without a bound, what the rules make of
another name, or a wildcard bounded by such a text. -/
inductive IsResolved (policy : ExtractionPolicy) (header : HeaderScope) : Text → Prop
  | unbounded : IsResolved policy header ['?']
  | named {name : Text} (h : IsUnmarked name) :
      IsResolved policy header (resolveName policy header.scope name)
  | bounded {word t : Text} (isBound : word ∈ boundWords) (some : words t ≠ [])
      (inner : IsResolved policy header t) :
      IsResolved policy header (boundLead word ++ t)

section Resolved

variable {policy : ExtractionPolicy} {header : HeaderScope}

theorem isResolved_resolveName {w : Text} {ws : List Text}
    (each : ∀ w' ∈ w :: ws, Visible w' ∧ w' ≠ []) (unmarked : w.head? ≠ some '?') :
    let result := resolveName policy header.scope ([' '].intercalate (w :: ws))
    IsResolved policy header result ∧ words result ≠ [] := by
  intro result
  have cut := Text.words_intercalate each
  have h : IsUnmarked ([' '].intercalate (w :: ws)) := by
    refine ⟨by rw [singleSpaced, cut], ?_⟩
    rwa [Text.head?_intercalate (each w List.mem_cons_self).2]
  have some : [' '].intercalate (w :: ws) ≠ [] := by
    intro none
    rw [none] at cut
    cases cut
  have made := resolution_resolveName policy header ([' '].intercalate (w :: ws))
  refine ⟨.named h, fun none => made.ne_nil some ?_⟩
  rw [← (made.isUnmarked h).spaced, singleSpaced, none]
  rfl

theorem IsResolved.behind {word t : Text} (isBound : word ∈ boundWords) (some : words t ≠ [])
    (inner : IsResolved policy header t) :
    IsResolved policy header ('?' :: ' ' :: (word ++ ' ' :: t)) ∧
    words ('?' :: ' ' :: (word ++ ' ' :: t)) ≠ [] := by
  have whole : '?' :: ' ' :: (word ++ ' ' :: t) = boundLead word ++ t := by simp [boundLead]
  rw [whole, words_boundLead isBound]
  exact ⟨.bounded isBound some inner, by simp⟩

theorem isResolved_resolveWords {ws : List Text} (each : ∀ w ∈ ws, Visible w ∧ w ≠ [])
    (nonempty : ws ≠ []) :
    IsResolved policy header (resolveWords policy header.scope ws) ∧
      words (resolveWords policy header.scope ws) ≠ [] := by
  have mark : IsResolved policy header ['?'] ∧ words ['?'] ≠ [] := ⟨.unbounded, by decide⟩
  fun_induction resolveWords policy header.scope ws with
  | case1 => exact absurd rfl nonempty
  | case2 word isMarked => exact mark
  | case3 word unmarked =>
      have single : [' '].intercalate [word] = word := List.intercalate_singleton
      rw [← single]
      exact isResolved_resolveName each unmarked
  | case4 word next rest isMarked isBound ih =>
      obtain ⟨inner, some⟩ :=
        ih (fun w member => each w (List.mem_cons_of_mem word member)) (List.cons_ne_nil next rest)
      exact inner.behind (List.contains_iff_mem.mp isBound) some
  | case5 word next rest isMarked glued apart ih =>
      simp only [Bool.and_eq_true] at apart
      have more : rest ≠ [] := by
        rintro rfl
        exact absurd apart.2 (by decide)
      obtain ⟨inner, some⟩ :=
        ih (fun w member => each w (List.mem_cons_of_mem word (List.mem_cons_of_mem next member)))
          more
      exact inner.behind (List.contains_iff_mem.mp apart.1.2) some
  | case6 word next rest isMarked glued apart => exact mark
  | case7 word next rest unmarked => exact isResolved_resolveName each unmarked

theorem isResolved_resolve (x : Text) :
    IsResolved policy header (header.scope.resolve policy x) := by
  rw [NameScope.resolve]
  by_cases none : words x = []
  · rw [none]
    exact .named ⟨rfl, by simp⟩
  · exact (isResolved_resolveWords (fun _ => Text.visible_of_mem_words) none).1

theorem IsResolved.resolve_eq {t : Text} (leaves : header.LeavesObject)
    (h : IsResolved policy header t) :
    header.scope.resolve policy t = t := by
  induction h with
  | unbounded => rfl
  | @named name unmarked =>
      have made := resolution_resolveName policy header name
      rw [(made.isUnmarked unmarked).resolve_eq, resolveName_resolveName policy leaves]
  | bounded isBound some _ ih => rw [resolve_boundLead policy _ isBound some, ih]

theorem IsResolved.isExplained {t : Text} (known : header.package ≠ none)
    (several : ∀ path ∈ header.imports, 2 ≤ path.segments.length)
    (h : IsResolved .qualifying header t) :
    IsExplained (innermost t) := by
  induction h with
  | unbounded =>
      have none : dropBound? ['?'] = none := by decide
      rw [innermost, Text.peel_of_none none]
      exact Or.inr (Or.inr (Or.inl rfl))
  | @named name unmarked =>
      have made := resolution_resolveName .qualifying header name
      rw [(made.isUnmarked unmarked).innermost_eq]
      exact made.isExplained known several
  | bounded isBound _ _ ih => rwa [innermost_boundLead isBound]

end Resolved

/-- Resolving a resolved text changes nothing.  What the qualifying policy leaves behind
the bounds can be found without the imports and the package of the class. -/
theorem resolve_settles {header : HeaderScope} (leaves : header.LeavesObject) (x : Text) :
    (∀ policy, header.scope.resolve policy (header.scope.resolve policy x) =
      header.scope.resolve policy x) ∧
      (header.package ≠ none → (∀ path ∈ header.imports, 2 ≤ path.segments.length) →
        IsExplained (innermost (header.scope.resolve .qualifying x))) :=
  ⟨fun _ => (isResolved_resolve x).resolve_eq leaves,
    fun known several => (isResolved_resolve x).isExplained known several⟩

theorem resolve_settles_nested :
    let header : HeaderScope :=
      ⟨some "hoge.foo".toList,
        [⟨true, "org".toList, ["Object".toList], by decide, by decide⟩,
          ⟨false, "java".toList, ["io".toList, ['*']], by decide, by decide⟩,
          ⟨false, "java".toList, ["util".toList, "Map".toList], by decide, by decide⟩],
        fun _ isPackage => Option.some.inj isPackage ▸ by decide⟩
    let x := " ?extends ? super\tMap".toList
    let resolved := "? extends ? super java.util.Map".toList
    header.LeavesObject ∧ header.scope.resolve .qualifying x = resolved ∧
      header.scope.resolve .qualifying resolved = resolved ∧ IsExplained (innermost resolved) := by
  intro header x resolved
  have leaves : header.LeavesObject := by unfold LeavesObject; decide
  have made : header.scope.resolve .qualifying x = resolved := by decide
  obtain ⟨settles, explained⟩ := resolve_settles leaves x
  have again := settles .qualifying
  have found := explained (by decide) (by decide)
  rw [made] at again found
  exact ⟨leaves, made, again, found⟩

end HeaderScope
end Testwright
