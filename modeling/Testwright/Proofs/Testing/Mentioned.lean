import Testwright.Proofs.Testing.Naming
import Testwright.Proofs.Testing.Rewritten
import Testwright.Proofs.Text.Mention

namespace Testwright

/-!
# Words that generated tests mention

Each convention imports a name that the other has no use for (`otherName`).  A class
that does not mention this name between other characters has tests that do not
mention it either: the parts of a line meet where no word goes across, and what a
token or the name of a test puts in front of a part or behind it is no end of the
name.
-/

open Character (isBlank isWord)
open Text (Blank mentions not_mentions_append not_mentions_append_cons not_mentions_append_words
  not_mentions_between not_mentions_of_others not_mentions_words_append)

namespace Convention

/-- The name that a source of the convention does not use and a source of the other
one imports. -/
def otherName : Convention → Text
  | legacy => "Test".toList
  | modern => "TestCase".toList

theorem otherName_ne_nil (convention : Convention) : convention.otherName ≠ [] := by
  cases convention <;> decide

theorem isWord_of_mem_otherName {convention : Convention} :
    ∀ c ∈ convention.otherName, isWord c = true := by
  cases convention <;> decide

end Convention

/-! ## Classes that do not mention a word -/

namespace TypeTree

mutual

/-- Whether the name of some node of the type mentions the word. -/
def mentions (w : Text) : TypeTree → Bool
  | ⟨name, arguments, _, _⟩ => Text.mentions name w || someMentions w arguments

def someMentions (w : Text) : List TypeTree → Bool
  | [] => false
  | type :: types => mentions w type || someMentions w types

end

end TypeTree

/-- The names of the method, its types and their tokens do not mention the word. -/
structure Method.Avoids (method : Method) (w : Text) : Prop where
  name : mentions method.name w = false
  parameterNames : ∀ name ∈ method.parameterNames, mentions name w = false
  parameterTypes : ∀ type ∈ method.parameterTypes,
    type.mentions w = false ∧ mentions type.token w = false
  returnType : ∀ type, method.returnType = some type → type.mentions w = false

def Subject.Avoids (w : Text) : Subject → Prop
  | .method _ exercised => exercised.Avoids w
  | _ => True

/-- The package of the class, its name and its methods do not mention the word. -/
structure ClassSurface.Avoids (target : ClassSurface) (w : Text) : Prop where
  name : mentions target.name w = false
  package : ∀ package, target.package = some package → mentions package w = false
  methods : ∀ method ∈ target.methods, method.Avoids w

/-! ## Types -/

namespace TypeTree

theorem not_isWord_of_mem_brackets {dimensions : Nat} {c : Char}
    (member : c ∈ brackets dimensions) :
    isWord c = false := by
  rcases List.mem_flatten.mp member with ⟨pair, inPairs, inPair⟩
  rw [(List.mem_replicate.mp inPairs).2] at inPair
  exact (by decide : ∀ d ∈ "[]".toList, isWord d = false) c inPair

theorem head?_renderRest (types : List TypeTree) : (renderRest types).head?.any isWord = false := by
  cases types with
  | nil => rfl
  | cons type types => rfl

variable {w : Text} (nonempty : w ≠ [])
include nonempty

theorem not_mentions_brackets (dimensions : Nat) : Text.mentions (brackets dimensions) w = false :=
  not_mentions_of_others nonempty fun _ => not_isWord_of_mem_brackets

mutual

theorem not_mentions_render {type : TypeTree} (absent : type.mentions w = false) :
    Text.mentions type.render w = false := by
  match type with
  | ⟨name, [], dimensions, token⟩ =>
      rw [mentions, Bool.or_eq_false_iff] at absent
      have edge : (brackets dimensions).head?.any isWord = false := by
        cases head : (brackets dimensions).head? with
        | none => rfl
        | some c => exact not_isWord_of_mem_brackets (List.mem_of_head? head)
      exact not_mentions_append nonempty (.inr edge) absent.1
        (not_mentions_brackets nonempty dimensions)
  | ⟨name, first :: rest, dimensions, token⟩ =>
      simp only [mentions, someMentions, Bool.or_eq_false_iff] at absent
      have arguments := not_mentions_append nonempty (.inr (head?_renderRest rest))
        (not_mentions_render absent.2.1) (not_mentions_renderRest absent.2.2)
      exact not_mentions_append_cons (by decide)
        (not_mentions_append_cons (by decide) absent.1 arguments)
        (not_mentions_brackets nonempty dimensions)

theorem not_mentions_renderRest {types : List TypeTree} (absent : someMentions w types = false) :
    Text.mentions (renderRest types) w = false := by
  match types with
  | [] => exact Text.mentions_nil nonempty
  | type :: types =>
      rw [someMentions, Bool.or_eq_false_iff] at absent
      have rest :=
        not_mentions_append nonempty (.inr (head?_renderRest types)) (not_mentions_render absent.1)
        (not_mentions_renderRest absent.2)
      exact (Text.mentions_others_append nonempty ", ".toList (by decide) _).trans rest

end

end TypeTree

/-! ## Tokens -/

namespace Token

/-- A token has an underscore for each character that it cannot keep, so it mentions no
word without one that the text does not mention. -/
theorem not_mentions_sanitize {t w : Text} (noUnderscore : '_' ∉ w)
    (words : ∀ c ∈ w, isWord c = true) (absent : Text.mentions t w = false) :
    Text.mentions (sanitize t) w = false := by
  refine Bool.eq_false_iff.mpr fun mentioned => ?_
  rcases Text.exists_between (List.contains_iff_mem.mp mentioned) with ⟨x', y', cut, before, behind⟩
  rcases List.map_eq_append_iff.mp cut with ⟨x, rest, rfl, rfl, parted⟩
  rcases List.map_eq_append_iff.mp parted with ⟨v, y, rfl, same, rfl⟩
  have kept : ∀ c, (if isTokenChar c then c else '_') ≠ '_' →
      (if isTokenChar c then c else '_') = c := by
    intro c other
    split at other
    · exact if_pos ‹_›
    · exact absurd rfl other
  have apart : ∀ c, isWord (if isTokenChar c then c else '_') = false → isWord c = false := by
    intro c other
    rw [kept c fun equal => by rw [equal] at other; exact absurd other (by decide)] at other
    exact other
  have same' : v = w := by
    rw [← same]
    refine ((List.map_congr_left fun c member => ?_).trans (List.map_id v)).symm
    have inWord : (if isTokenChar c then c else '_') ∈ w := same ▸ List.mem_map_of_mem member
    exact kept c fun equal => noUnderscore (equal ▸ inWord)
  rw [List.getLast?_map, Option.any_map] at before
  rw [List.head?_map, Option.any_map] at behind
  have mentioned' : Text.mentions (x ++ (w ++ y)) w = true := by
    refine Text.mentions_of_between words (fun c last => apart c ?_) (fun c head => apart c ?_)
    · rw [last] at before
      exact before
    · rw [head] at behind
      exact behind
  rw [same', mentioned'] at absent
  cases absent

theorem not_mentions_arrayMarks {t w : Text} (other : ¬ ['y'] <:+ w)
    (absent : Text.mentions t w = false) (dimensions : Nat) :
    Text.mentions (t ++ arrayMarks dimensions) w = false := by
  cases dimensions with
  | zero =>
      rw [arrayMarks, List.replicate_zero, List.flatten_nil, List.append_nil]
      exact absent
  | succ n =>
      have marks : arrayMarks (n + 1) = arrayMarks n ++ "Array".toList := by
        simp [arrayMarks, List.replicate_succ']
      refine not_mentions_append_words (fun c member => ?_) (fun final => other ?_) absent
      · exact (by decide : ∀ d ∈ "Array".toList, isWord d = true) c (mem_arrayMarks member)
      · rw [marks] at final
        exact (show ['y'] <:+
          arrayMarks n ++ "Array".toList from ⟨arrayMarks n ++ "Arra".toList, by simp⟩).trans final

variable {w : Text} (nonempty : w ≠ [])
include nonempty

theorem not_mentions_trim {t : Text} (absent : Text.mentions t w = false) :
    Text.mentions (Text.trim t) w = false := by
  rcases Text.exists_surround t with ⟨gap, gap', blank, blank', -, whole⟩
  rw [whole] at absent
  refine Text.not_mentions_of_infix nonempty ?_ ?_ absent
  · cases last : gap.getLast? with
    | none => rfl
    | some c => exact Character.not_isWord_of_isBlank (blank c (List.mem_of_getLast? last))
  · cases head : gap'.head? with
    | none => rfl
    | some c => exact Character.not_isWord_of_isBlank (blank' c (List.mem_of_head? head))

omit nonempty in
/-- What stands in front of the first bracket stands in front of dots or is all. -/
theorem exists_takeWhile_dotsToBrackets {t : Text} (noBracket : '[' ∉ t) :
    ∃ rest, t = (dotsToBrackets t).takeWhile (fun c => !(c == '[')) ++ rest ∧
      rest.head?.any isWord = false := by
  rw [dotsToBrackets, Text.replaceAll]
  induction t with
  | nil => exact ⟨[], rfl, rfl⟩
  | cons c t ih =>
      have other : c ≠ '[' := fun equal => noBracket (equal ▸ List.mem_cons_self)
      by_cases dots : "...".toList.isPrefixOf (c :: t)
      · refine ⟨c :: t, ?_, ?_⟩
        · rw [Text.replaceFrom, if_pos dots]
          rfl
        · rcases List.isPrefixOf_iff_prefix.mp dots with ⟨rest, same⟩
          rw [← same]
          rfl
      · rcases ih fun member => noBracket (List.mem_cons_of_mem c member) with ⟨rest, whole, edge⟩
        refine ⟨rest, ?_, edge⟩
        rw [Text.replaceFrom, if_neg dots, List.takeWhile_cons_of_pos (by simp [other]),
          List.cons_append, ← whole]

end Token

/-- The qualified token of a type that does not mention the name does not do so
either. -/
theorem TypeTree.not_mentions_qualifiedToken {convention : Convention} {type : TypeTree}
    (named : type.isNamed = true) (absent : type.mentions convention.otherName = false) :
    Text.mentions type.qualifiedToken convention.otherName = false := by
  have nonempty := convention.otherName_ne_nil
  have inName := isTypePart_of_isNamed named
  have noUnderscore : '_' ∉ convention.otherName := by cases convention <;> decide
  have noArray : ¬ ['y'] <:+ convention.otherName := by cases convention <;> decide
  have name : Text.mentions type.name convention.otherName = false := by
    rcases type with ⟨name, arguments, dimensions, token⟩
    rw [mentions, Bool.or_eq_false_iff] at absent
    exact absent.1
  have others : ∀ d, isTypePart d = false → d ∉ type.name := fun d other member => by
    rw [inName d member] at other
    cases other
  have trimmed := Token.not_mentions_trim nonempty name
  have noBracket : '[' ∉ Text.trim type.name := fun member =>
    others '[' (by decide) (Token.mem_of_mem_trim member)
  rcases Token.exists_takeWhile_dotsToBrackets noBracket with ⟨rest, whole, edge⟩
  have front :
      Text.mentions ((Token.dotsToBrackets (Text.trim type.name)).takeWhile fun c => !(c == '['))
      convention.otherName = false := by
    rw [whole] at trimmed
    exact Text.not_mentions_of_infix nonempty (a := []) rfl edge trimmed
  have erased : Text.eraseAngles 0 type.name = type.name :=
    Text.eraseAngles_of_not_mem (others '<' (by decide)) (others '>' (by decide))
  rw [qualifiedToken, Token.qualified, Token.render, erased]
  exact Token.not_mentions_arrayMarks noArray (Token.not_mentions_arrayMarks noArray
    (Token.not_mentions_sanitize noUnderscore Convention.isWord_of_mem_otherName
      (Token.not_mentions_trim nonempty front)) _) _

/-! ## Names and statements -/

namespace TestPlan

variable {convention : Convention}

theorem not_mentions_append_tokens {token : TypeTree → Text} {types : List TypeTree}
    (tokens : ∀ type ∈ types, mentions (token type) convention.otherName = false) {s : Text}
    (absent : mentions s convention.otherName = false) :
    mentions (s ++ types.flatMap fun type => ['$'] ++ token type) convention.otherName = false := by
  induction types generalizing s with
  | nil => simpa using absent
  | cons type types ih =>
      have first :=
        not_mentions_append_cons (by decide : isWord '$' = false) absent
          (tokens type List.mem_cons_self)
      have rest := ih (fun other member => tokens other (List.mem_cons_of_mem type member)) first
      simpa [List.flatMap_cons] using rest

theorem not_mentions_nameWith {style : TestStyle} (marks : HasPresetMarks style)
    {token : TypeTree → Text} {method : Method}
    (name : mentions method.name convention.otherName = false)
    (tokens : ∀ type ∈ method.parameterTypes, mentions (token type) convention.otherName = false) :
    mentions (nameWith style token method) convention.otherName = false := by
  rw [nameWith]
  split
  · exact name
  · rw [marks.1, marks.2]
    exact not_mentions_append_tokens tokens
      (not_mentions_append_words (by decide) (by cases convention <;> decide) name)

theorem not_mentions_of_mem_tests {style : TestStyle} (marks : HasPresetMarks style)
    {target : ClassSurface} (named : target.IsNamed) (avoids : target.Avoids convention.otherName) :
    ∀ test ∈ (ofSurface style target).tests, mentions test.name convention.otherName = false := by
  intro test member
  rcases name_of_mem_tests member with name | name | ⟨method, inside, name | name⟩ <;> rw [name]
  · cases convention <;> decide
  · cases convention <;> decide
  · exact not_mentions_nameWith marks (avoids.methods method inside).name fun type member =>
      ((avoids.methods method inside).parameterTypes type member).2
  · exact not_mentions_nameWith marks (avoids.methods method inside).name fun type member =>
      TypeTree.not_mentions_qualifiedToken
        ((named.methods method inside).parameterTypes type member).1
        ((avoids.methods method inside).parameterTypes type member).1

theorem subject_avoids {style : TestStyle} {target : ClassSurface} {w : Text}
    (avoids : target.Avoids w) :
    ∀ test ∈ (ofSurface style target).tests, test.subject.Avoids w := by
  intro test member
  rcases subject_of_mem_tests member with subject | subject | ⟨place, method, inside, subject⟩ <;>
    rw [subject]
  · trivial
  · trivial
  · exact avoids.methods method inside

theorem not_mentions_placeholder (type : TypeTree) :
    mentions type.placeholder convention.otherName = false :=
  have each : ∀ t ∈ "null".toList :: TypeTree.primitivePlaceholders.map Prod.snd,
      mentions t convention.otherName = false := by
    cases convention <;> decide
  each type.placeholder (placeholder_mem type)

/-- Texts with commas between them. -/
theorem not_mentions_commas {texts : List Text}
    (each : ∀ t ∈ texts, mentions t convention.otherName = false) :
    mentions (", ".toList.intercalate texts) convention.otherName = false := by
  have nonempty := convention.otherName_ne_nil
  induction texts with
  | nil => exact Text.mentions_nil nonempty
  | cons t texts ih =>
      cases texts with
      | nil => simpa using each t List.mem_cons_self
      | cons u texts =>
          rw [Text.intercalate_cons_of_ne_nil ", ".toList t (List.cons_ne_nil u texts),
            ← List.append_assoc]
          exact not_mentions_between nonempty ", ".toList (by decide) (by decide) (by decide)
            (each t List.mem_cons_self)
            (not_mentions_of_others nonempty (by decide))
            (ih fun v member => each v (List.mem_cons_of_mem t member))

theorem not_mentions_joinLines {separator : Text}
    (isBreak : separator = ['\n'] ∨ separator = ['\r', '\n']) {lines : List Text}
    (each : ∀ line ∈ lines, mentions line convention.otherName = false) :
    mentions (joinLines separator lines) convention.otherName = false := by
  have nonempty := convention.otherName_ne_nil
  have others : ∀ c ∈ separator, isWord c = false := by rcases isBreak with rfl | rfl <;> decide
  induction lines with
  | nil => exact Text.mentions_nil nonempty
  | cons line lines ih =>
      have rest := ih fun other member => each other (List.mem_cons_of_mem line member)
      refine not_mentions_between nonempty separator ?_ ?_ ?_ (each line List.mem_cons_self)
        (not_mentions_of_others nonempty others) rest
      all_goals rcases isBreak with rfl | rfl <;> decide

section Body

variable {target : ClassSurface} (avoids : target.Avoids convention.otherName)
include avoids

theorem not_mentions_instantiationLine :
    mentions (instantiationLine target) convention.otherName = false := by
  have nonempty := convention.otherName_ne_nil
  have arguments :
      mentions (placeholders
        ((target.preferredConstructor?.map Constructor.parameterTypes).getD []))
      convention.otherName = false :=
    not_mentions_commas fun t member => by
      rcases List.mem_map.mp member with ⟨type, -, rfl⟩
      exact not_mentions_placeholder type
  have declared := not_mentions_between nonempty " target = new ".toList (by decide) (by decide)
    (by decide) avoids.name (by cases convention <;> decide) avoids.name
  exact not_mentions_append nonempty (.inr (by decide))
    (not_mentions_append_cons (by decide) declared arguments)
      (not_mentions_of_others nonempty (by decide))

omit avoids in
theorem not_mentions_variableLine {type : TypeTree}
    (type_ : type.mentions convention.otherName = false) {name : Text}
    (name_ : mentions name convention.otherName = false) :
    mentions (variableLine type name) convention.otherName = false := by
  have nonempty := convention.otherName_ne_nil
  have declared := not_mentions_append_cons (by decide : isWord ' ' = false)
    (TypeTree.not_mentions_render nonempty type_) name_
  have assigned := not_mentions_between nonempty " = ".toList (by decide) (by decide) (by decide)
    declared (not_mentions_of_others nonempty (by decide)) (not_mentions_placeholder type)
  have whole := not_mentions_append nonempty (.inr (by decide)) assigned
    (not_mentions_of_others nonempty (t := ";".toList) (by decide))
  simpa only [variableLine, List.append_assoc, List.cons_append] using whole

omit avoids in
theorem not_mentions_comparisonLine (type : TypeTree) :
    mentions (comparisonLine type) convention.otherName = false := by
  have either : ∀ inexact : Bool, mentions ("assertEquals(expected, actual".toList ++
      (if inexact then ", 0.0".toList else []) ++ ");".toList) convention.otherName = false := by
    rintro (_ | _) <;> cases convention <;> decide
  exact either _

theorem not_mentions_callOf {method : Method} (method_ : method.Avoids convention.otherName) :
    mentions (callOf target method) convention.otherName = false := by
  have nonempty := convention.otherName_ne_nil
  have receiver : mentions (receiverOf target method) convention.otherName = false := by
    rw [receiverOf]
    split
    · exact avoids.name
    · cases convention <;> decide
  have called := not_mentions_append_cons (by decide : isWord '.' = false) receiver method_.name
  have applied := not_mentions_append_cons (by decide : isWord '(' = false) called
    (not_mentions_commas method_.parameterNames)
  exact not_mentions_append nonempty (.inr (by decide)) applied
    (not_mentions_of_others nonempty (by decide))

/-- No statement of a body mentions the name. -/
theorem not_mentions_of_mem_bodyLines {subject : Subject}
    (subject_ : subject.Avoids convention.otherName) :
    ∀ line ∈ bodyLines target subject, mentions line convention.otherName = false := by
  have nonempty := convention.otherName_ne_nil
  have semicolon : mentions ";".toList convention.otherName = false :=
    not_mentions_of_others nonempty (by decide)
  intro line member
  cases subject with
  | type =>
      rw [bodyLines, List.mem_singleton] at member
      rw [member]
      have named := not_mentions_append nonempty (s := "assertNotNull(".toList) (.inl (by decide))
        (by cases convention <;> decide) avoids.name
      exact not_mentions_append nonempty (.inr (by decide)) named (by cases convention <;> decide)
  | instantiation =>
      rcases List.mem_cons.mp member with rfl | member
      · exact not_mentions_instantiationLine avoids
      · rw [List.mem_singleton.mp member]
        cases convention <;> decide
  | method place method =>
      have call := not_mentions_callOf avoids subject_
      rcases mem_methodLines member with
        rfl | ⟨parameter, inside, rfl⟩ | ⟨-, rfl⟩ | ⟨type, returned, rfl | rfl | rfl⟩
      · exact not_mentions_instantiationLine avoids
      · exact not_mentions_variableLine (subject_.parameterTypes _ (List.of_mem_zip inside).2).1
          (subject_.parameterNames _ (List.of_mem_zip inside).1)
      · exact not_mentions_append nonempty (.inr (by decide)) call semicolon
      · have assigned := not_mentions_between nonempty " actual = ".toList (by decide) (by decide)
          (by decide) (TypeTree.not_mentions_render nonempty (subject_.returnType type returned))
          (by cases convention <;> decide) call
        have whole := not_mentions_append nonempty (.inr (by decide)) assigned semicolon
        exact whole
      · exact not_mentions_variableLine (subject_.returnType type returned)
          (by cases convention <;> decide)
      · exact not_mentions_comparisonLine type

variable {style : TestStyle} (blank : Blank style.indent)
  (legacyPrefix : style.legacyPrefix = "test_".toList)
  (comment : ∀ line, style.todoComment = some line → mentions line convention.otherName = false)
  {test : PlannedTest} (name : mentions test.name convention.otherName = false)
  (subject : test.subject.Avoids convention.otherName)
include blank

omit avoids in
theorem mentions_indent_append (line : Text) :
    mentions (style.indent ++ line) convention.otherName = mentions line convention.otherName :=
  Text.mentions_others_append convention.otherName_ne_nil style.indent
    (fun c member => Character.not_isWord_of_isBlank (blank c member)) line

omit avoids in
theorem not_mentions_headingLine {name : Text}
    (absent : mentions name convention.otherName = false) :
    mentions (headingLine style name) convention.otherName = false := by
  have nonempty := convention.otherName_ne_nil
  have whole : mentions ("public void ".toList ++ name ++ "() throws Exception \x7b".toList)
      convention.otherName = false :=
    not_mentions_append nonempty (.inr (by decide))
      (not_mentions_append nonempty (.inl (by decide)) (by cases convention <;> decide) absent)
      (by cases convention <;> decide)
  have indented := (mentions_indent_append blank _).trans whole
  simpa only [headingLine, List.append_assoc] using indented

include comment subject in
theorem not_mentions_of_mem_innerLines :
    ∀ line ∈ innerLines style target test, mentions line convention.otherName = false := by
  intro line member
  rcases List.mem_append.mp member with inBody | last
  · rcases List.mem_map.mp inBody with ⟨inner, inside, rfl⟩
    rw [List.append_assoc, mentions_indent_append blank, mentions_indent_append blank]
    rcases List.mem_append.mp inside with isComment | statement
    · exact comment inner (Option.mem_toList.mp isComment)
    · exact not_mentions_of_mem_bodyLines avoids subject inner statement
  · rw [List.mem_singleton.mp last, mentions_indent_append blank]
    exact not_mentions_of_others convention.otherName_ne_nil (by decide)

include legacyPrefix comment name subject in
/-- No line of a test mentions the name. -/
theorem not_mentions_of_mem_testLines :
    ∀ line ∈ testLines style target convention test,
      mentions line convention.otherName = false := by
  have inner := not_mentions_of_mem_innerLines avoids blank comment subject
  cases convention with
  | modern =>
      rw [testLines_modern]
      refine List.forall_mem_cons.mpr
        ⟨?_, List.forall_mem_cons.mpr ⟨not_mentions_headingLine blank name, inner⟩⟩
      exact (mentions_indent_append blank _).trans (by decide)
  | legacy =>
      rw [testLines_legacy, legacyPrefix]
      exact List.forall_mem_cons.mpr ⟨not_mentions_headingLine blank
        (not_mentions_words_append (by decide) (by decide) name), inner⟩

end Body

end TestPlan

end Testwright
