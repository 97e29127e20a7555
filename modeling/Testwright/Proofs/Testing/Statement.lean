import Testwright.Proofs.Testing.Wellformed

namespace Testwright
namespace TestPlan

/-!
# Statements of generated bodies

Every line of a generated body is composed of code characters and placeholders
(`composed_of_mem_bodyLines`), and it either assigns something, with no parenthesis in
front of the equals sign, or applies a dotted name (`acts_of_mem_bodyLines`).  Which
readers pass a body over follows from these two facts.
-/

open Character (isBlank isDottedPart isNamePart)

/-! ## Code -/

/-- A character of a generated statement. -/
def isCodePart (c : Char) : Bool :=
  isDottedPart c || " ?<>,[]()=;\x7b\x7d".toList.any (· == c)

theorem ne_of_isCodePart {c d : Char} (code : isCodePart c = true) (other : isCodePart d = false) :
    c ≠ d := by
  rintro rfl
  rw [code] at other
  cases other

theorem isCodePart_of_isNamePart {c : Char} (name : isNamePart c = true) : isCodePart c = true := by
  simp [isCodePart, Character.isDottedPart_of_isNamePart name]

theorem isCodePart_of_isWritten {c : Char} (written : TypeTree.isWritten c = true) :
    isCodePart c = true := by
  simp only [TypeTree.isWritten, TypeTree.isTypePart, Bool.or_eq_true, beq_iff_eq] at written
  rcases written with ((((((dotted | rfl) | rfl) | rfl) | rfl) | rfl) | rfl) | rfl
  · simp [isCodePart, dotted]
  all_goals decide

/-- Code and placeholders in a row. -/
inductive Composed : Text → Prop
  | code {t : Text} (code : ∀ c ∈ t, isCodePart c = true) : Composed t
  | placeholder (type : TypeTree) : Composed type.placeholder
  | append {s t : Text} (first : Composed s) (second : Composed t) : Composed (s ++ t)

theorem Composed.intercalate {between : Text} (h : Composed between) {texts : List Text}
    (each : ∀ t ∈ texts, Composed t) : Composed (between.intercalate texts) := by
  induction texts with
  | nil => exact .code (by simp)
  | cons t texts ih =>
      have rest := ih fun u member => each u (List.mem_cons_of_mem t member)
      have first := each t List.mem_cons_self
      cases texts with
      | nil => simpa using first
      | cons u texts =>
          rw [Text.intercalate_cons_of_ne_nil between t (List.cons_ne_nil u texts)]
          exact first.append (h.append rest)

/-- The placeholders are `null` and those of the primitive types. -/
theorem placeholder_mem (type : TypeTree) :
    type.placeholder ∈ "null".toList :: TypeTree.primitivePlaceholders.map Prod.snd := by
  rw [TypeTree.placeholder]
  split
  · exact List.mem_cons_self
  · cases found : TypeTree.primitivePlaceholders.lookup type.name with
    | none => exact List.mem_cons_self
    | some placeholder =>
        rcases List.lookup_eq_some_iff.mp found with ⟨before, after, whole, -⟩
        refine List.mem_cons_of_mem _ (List.mem_map.mpr ⟨(type.name, placeholder), ?_, rfl⟩)
        rw [whole]
        simp

/-- The placeholder of a type is code or the literal of a character. -/
theorem placeholder_cases (type : TypeTree) :
    type.placeholder = "'\\u0000'".toList ∨ ∀ c ∈ type.placeholder, isCodePart c = true :=
  have each : ∀ t ∈ "null".toList :: TypeTree.primitivePlaceholders.map Prod.snd,
      t = "'\\u0000'".toList ∨ ∀ c ∈ t, isCodePart c = true := by decide
  each type.placeholder (placeholder_mem type)

/-- Nothing in composed text breaks a line or is a sign of an annotation. -/
theorem Composed.plain {t : Text} (h : Composed t) : ∀ c ∈ t, c ≠ '@' ∧ c ≠ '\n' ∧ c ≠ '\r' := by
  have ofCode : ∀ {t : Text}, (∀ c ∈ t, isCodePart c = true) → ∀ c ∈ t, c ≠ '@' ∧
      c ≠ '\n' ∧ c ≠ '\r' :=
    fun code c member =>
      ⟨ne_of_isCodePart (code c member) (by decide), ne_of_isCodePart (code c member) (by decide),
      ne_of_isCodePart (code c member) (by decide)⟩
  induction h with
  | code code => exact ofCode code
  | placeholder type =>
      rcases placeholder_cases type with literal | code
      · rw [literal]
        decide
      · exact ofCode code
  | append _ _ first second => exact List.forall_mem_append.mpr ⟨first, second⟩

/-! ## The lines of a body -/

theorem composed_placeholders (types : List TypeTree) : Composed (placeholders types) := by
  apply Composed.intercalate (.code (by decide))
  intro t member
  rcases List.mem_map.mp member with ⟨type, -, rfl⟩
  exact .placeholder type

theorem composed_of_isNamePart {t : Text} (inName : ∀ c ∈ t, isNamePart c = true) : Composed t :=
  .code fun c member => isCodePart_of_isNamePart (inName c member)

theorem composed_render {type : TypeTree} (isNamed : type.isNamed = true) : Composed type.render :=
  .code fun c member => isCodePart_of_isWritten (TypeTree.isWritten_of_mem_render isNamed c member)

/-- In front of its first parenthesis the statement has an equals sign, or it has a
dotted name there and nothing else. -/
def Acts (line : Text) : Prop :=
  (∃ a b, line = a ++ '=' :: b ∧ '(' ∉ a) ∨ ∃ w b, line = w ++ '(' :: b ∧
  ∀ c ∈ w, isDottedPart c = true

section Body

variable {target : ClassSurface} (named : target.IsNamed)
include named

theorem composed_instantiationLine : Composed (instantiationLine target) := by
  have opened : Composed ['('] := .code (by decide)
  have calls := (composed_of_isNamePart named.name).append (opened.append ((composed_placeholders
    ((target.preferredConstructor?.map Constructor.parameterTypes).getD [])).append
      (.code (t := ");".toList) (by decide))))
  have whole := (composed_of_isNamePart named.name).append
    ((Composed.code (t := " target = new ".toList) (by decide)).append calls)
  simpa only [instantiationLine, List.append_assoc, List.cons_append, List.nil_append] using whole

theorem acts_instantiationLine : Acts (instantiationLine target) :=
  have parted : " target = new ".toList = " target ".toList ++ '=' :: " new ".toList := rfl
  .inl ⟨target.name ++ " target ".toList, " new ".toList ++ (target.name ++ '(' :: (placeholders
      ((target.preferredConstructor?.map Constructor.parameterTypes).getD []) ++ ");".toList)),
    by simp only [instantiationLine, parted, List.append_assoc, List.cons_append], by
      simp only [List.mem_append, not_or]
      exact ⟨fun member => absurd (named.name _ member) (by decide), by decide⟩⟩

omit named in
theorem composed_variableLine {type : TypeTree} (isNamed : type.isNamed = true) {name : Text}
    (inName : ∀ c ∈ name, isNamePart c = true) : Composed (variableLine type name) := by
  have space : Composed [' '] := .code (by decide)
  have whole :=
    (composed_render isNamed).append (space.append ((composed_of_isNamePart inName).append
    ((Composed.code (t := " = ".toList) (by decide)).append
      ((Composed.placeholder type).append (.code (t := ";".toList) (by decide))))))
  simpa only [variableLine, List.append_assoc, List.cons_append, List.nil_append] using whole

omit named in
theorem acts_variableLine {type : TypeTree} (isNamed : type.isNamed = true) {name : Text}
    (inName : ∀ c ∈ name, isNamePart c = true) : Acts (variableLine type name) := by
  refine .inl ⟨type.render ++ (' ' :: name ++ [' ']), ' ' :: (type.placeholder ++ [';']), ?_, ?_⟩
  · have parted : " = ".toList = [' '] ++ '=' :: [' '] := rfl
    simp only [variableLine, parted, List.append_assoc, List.cons_append, List.nil_append]
    rfl
  simp only [List.mem_append, not_or]
  exact ⟨fun member => absurd (TypeTree.isWritten_of_mem_render isNamed _ member) (by decide),
    by simpa using fun member => absurd (inName _ member) (by decide)⟩

omit named in
theorem composed_comparisonLine (type : TypeTree) : Composed (comparisonLine type) := by
  have either : ∀ inexact : Bool, Composed ("assertEquals(expected, actual".toList ++
      (if inexact then ", 0.0".toList else []) ++ ");".toList) := by
    rintro (_ | _)
    · exact .code (by decide)
    · exact .code (by decide)
  exact either _

omit named in
theorem acts_comparisonLine (type : TypeTree) : Acts (comparisonLine type) := by
  have either : ∀ inexact : Bool, Acts ("assertEquals(expected, actual".toList ++
      (if inexact then ", 0.0".toList else []) ++ ");".toList) := by
    rintro (_ | _)
    · exact .inr ⟨"assertEquals".toList, "expected, actual);".toList, rfl, by decide⟩
    · exact .inr ⟨"assertEquals".toList, "expected, actual, 0.0);".toList, rfl, by decide⟩
  exact either _

/-- What the call of a method is made on. -/
def receiverOf (target : ClassSurface) (method : Method) : Text :=
  if method.isStatic then target.name else "target".toList

/-- The call of a method. -/
def callOf (target : ClassSurface) (method : Method) : Text :=
  receiverOf target method ++ '.' :: method.name ++
    '(' :: ", ".toList.intercalate method.parameterNames ++ ")".toList

omit named in
theorem mem_methodLines {method : Method} {line : Text}
    (member : line ∈ methodLines target method) :
    line = instantiationLine target ∨
    (∃ parameter ∈ method.parameters, line = variableLine parameter.2 parameter.1) ∨
    (method.returnType = none ∧ line = callOf target method ++ ";".toList) ∨
    ∃ type, method.returnType = some type ∧
      (line = type.render ++ " actual = ".toList ++ callOf target method ++ ";".toList ∨
        line = variableLine type "expected".toList ∨ line = comparisonLine type) := by
  simp only [methodLines, List.mem_append] at member
  rcases member with (first | variable_) | last
  · split at first
    · cases first
    · exact .inl (List.mem_singleton.mp first)
  · rcases List.mem_map.mp variable_ with ⟨parameter, inside, rfl⟩
    exact .inr (.inl ⟨parameter, inside, rfl⟩)
  · split at last
    · rename_i returned
      exact .inr (.inr (.inl ⟨returned, List.mem_singleton.mp last⟩))
    · rename_i type returned
      simp only [List.mem_cons, List.not_mem_nil, or_false] at last
      exact .inr (.inr (.inr ⟨type, returned, last⟩))

theorem isNamePart_of_mem_receiverOf (method : Method) :
    ∀ c ∈ receiverOf target method, isNamePart c = true := by
  rw [receiverOf]
  split
  · exact named.name
  · decide

section Method

variable {method : Method} (isNamed : method.IsNamed)
include isNamed

omit named in
theorem isNamed_of_mem_parameters {parameter : Text × TypeTree}
    (member : parameter ∈ method.parameters) :
    parameter.2.isNamed = true ∧ ∀ c ∈ parameter.1, isNamePart c = true :=
  ⟨(isNamed.parameterTypes parameter.2 (List.of_mem_zip member).2).1,
    isNamed.parameterNames parameter.1 (List.of_mem_zip member).1⟩

theorem composed_callOf : Composed (callOf target method) := by
  have arguments : Composed (", ".toList.intercalate method.parameterNames) :=
    Composed.intercalate (.code (by decide)) fun name member =>
      composed_of_isNamePart (isNamed.parameterNames name member)
  have dot : Composed ['.'] := .code (by decide)
  have opened : Composed ['('] := .code (by decide)
  have whole :=
    (composed_of_isNamePart (isNamePart_of_mem_receiverOf named method)).append (dot.append
    ((composed_of_isNamePart isNamed.name).append (opened.append (arguments.append
      (.code (t := ")".toList) (by decide))))))
  simpa only [callOf, List.append_assoc, List.cons_append, List.nil_append] using whole

theorem composed_of_mem_methodLines : ∀ line ∈ methodLines target method, Composed line := by
  have ends : Composed ";".toList := .code (by decide)
  intro line member
  rcases mem_methodLines member with
    rfl | ⟨parameter, inside, rfl⟩ | ⟨-, rfl⟩ | ⟨type, returned, rfl | rfl | rfl⟩
  · exact composed_instantiationLine named
  · have parts := isNamed_of_mem_parameters isNamed inside
    exact composed_variableLine parts.1 parts.2
  · exact (composed_callOf named isNamed).append ends
  · exact (((composed_render (isNamed.returnType type returned)).append
      (.code (t := " actual = ".toList) (by decide))).append (composed_callOf named isNamed)).append
        ends
  · exact composed_variableLine (isNamed.returnType type returned) (by decide)
  · exact composed_comparisonLine type

theorem acts_of_mem_methodLines : ∀ line ∈ methodLines target method, Acts line := by
  intro line member
  rcases mem_methodLines member with
    rfl | ⟨parameter, inside, rfl⟩ | ⟨-, rfl⟩ | ⟨type, returned, rfl | rfl | rfl⟩
  · exact acts_instantiationLine named
  · have parts := isNamed_of_mem_parameters isNamed inside
    exact acts_variableLine parts.1 parts.2
  · refine .inr ⟨receiverOf target method ++ '.' :: method.name,
      ", ".toList.intercalate method.parameterNames ++ (")".toList ++ ";".toList), by
        simp only [callOf, List.append_assoc, List.cons_append], ?_⟩
    simp only [List.forall_mem_append, List.forall_mem_cons]
    exact ⟨fun c inside =>
      Character.isDottedPart_of_isNamePart (isNamePart_of_mem_receiverOf named method c inside),
      by decide, fun c inside => Character.isDottedPart_of_isNamePart (isNamed.name c inside)⟩
  · have parted : " actual = ".toList = " actual ".toList ++ '=' :: [' '] := rfl
    refine .inl ⟨type.render ++ " actual ".toList, ' ' :: (callOf target method ++ ";".toList), by
      simp only [parted, List.append_assoc, List.cons_append, List.nil_append], ?_⟩
    simp only [List.mem_append, not_or]
    exact ⟨fun inside =>
      absurd (TypeTree.isWritten_of_mem_render (isNamed.returnType type returned) _ inside)
      (by decide), by decide⟩
  · exact acts_variableLine (isNamed.returnType type returned) (by decide)
  · exact acts_comparisonLine type

end Method

variable {subject : Subject} (isNamed : subject.IsNamed)
include isNamed

theorem composed_of_mem_bodyLines : ∀ line ∈ bodyLines target subject, Composed line := by
  intro line member
  cases subject with
  | type =>
      rw [bodyLines, List.mem_singleton] at member
      rw [member]
      exact ((Composed.code (t := "assertNotNull(".toList) (by decide)).append
        (composed_of_isNamePart named.name)).append (.code (by decide))
  | instantiation =>
      rw [bodyLines, List.mem_cons, List.mem_singleton] at member
      rcases member with rfl | rfl
      · exact composed_instantiationLine named
      · exact .code (by decide)
  | method place method => exact composed_of_mem_methodLines named isNamed line member

theorem acts_of_mem_bodyLines : ∀ line ∈ bodyLines target subject, Acts line := by
  intro line member
  cases subject with
  | type =>
      rw [bodyLines, List.mem_singleton] at member
      exact .inr ⟨"assertNotNull".toList, target.name ++ ".class);".toList, member, by decide⟩
  | instantiation =>
      rw [bodyLines, List.mem_cons, List.mem_singleton] at member
      rcases member with rfl | rfl
      · exact acts_instantiationLine named
      · exact .inr ⟨"assertNotNull".toList, "target);".toList, rfl, by decide⟩
  | method place method => exact acts_of_mem_methodLines named isNamed line member

end Body

end TestPlan
end Testwright
