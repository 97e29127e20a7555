import Testwright.Testing.Render
import Testwright.Proofs.Header.Addition
import Testwright.Proofs.Testing.Token

namespace Testwright

/-!
# Classes with names and styles with marks

What a generated test is made of: the names of a class are made of name characters,
types are trees of dotted names and wildcards, and a style indents with blanks, marks
with name characters and begins a body with a line comment at most.  The names of the
tests are made of name characters then (`isNamePart_of_mem_tests`).
-/

open Character (isBlank isDottedPart isNamePart)
open Text (Blank)

/-! ## Types -/

namespace TypeTree

/-- A character of a dotted name or a wildcard. -/
def isTypePart (c : Char) : Bool :=
  isDottedPart c || c == '?' || c == ' '

mutual

/-- Whether every node of the type has the name of a type or wildcard. -/
def isNamed : TypeTree → Bool
  | ⟨name, arguments, _, _⟩ => name.all isTypePart && areNamed arguments

def areNamed : List TypeTree → Bool
  | [] => true
  | type :: types => isNamed type && areNamed types

end

/-- A character of a written type. -/
def isWritten (c : Char) : Bool :=
  isTypePart c || c == '<' || c == '>' || c == ',' || c == '[' || c == ']'

theorem isWritten_of_isTypePart {c : Char} (h : isTypePart c = true) : isWritten c = true := by
  simp [isWritten, h]

theorem isWritten_of_mem_brackets {dimensions : Nat} {c : Char} (member : c ∈ brackets dimensions) :
    isWritten c = true := by
  simp only [brackets, List.mem_flatten] at member
  rcases member with ⟨pair, isPair, member⟩
  rw [List.eq_of_mem_replicate isPair] at member
  exact (by decide : ∀ c ∈ "[]".toList, isWritten c = true) c member

mutual

theorem isWritten_of_mem_render {type : TypeTree} (named : type.isNamed = true) :
    ∀ c ∈ type.render, isWritten c = true := by
  rcases type with ⟨name, arguments, dimensions, token⟩
  rw [isNamed, Bool.and_eq_true, List.all_eq_true] at named
  have inName : ∀ c ∈ name, isWritten c = true :=
    fun c member => isWritten_of_isTypePart (named.1 c member)
  cases arguments with
  | nil =>
      rw [render]
      exact List.forall_mem_append.mpr ⟨inName, fun _ member => isWritten_of_mem_brackets member⟩
  | cons first rest =>
      rw [areNamed, Bool.and_eq_true] at named
      simp only [render, List.forall_mem_append, List.forall_mem_cons]
      exact ⟨⟨inName, by decide, isWritten_of_mem_render named.2.1,
        isWritten_of_mem_renderRest named.2.2⟩,
        by decide, fun c member => isWritten_of_mem_brackets member⟩

theorem isWritten_of_mem_renderRest {types : List TypeTree} (named : areNamed types = true) :
    ∀ c ∈ renderRest types, isWritten c = true := by
  cases types with
  | nil => simp [renderRest]
  | cons type types =>
      rw [areNamed, Bool.and_eq_true] at named
      simp only [renderRest, List.forall_mem_append, List.forall_mem_cons]
      exact ⟨by decide, by decide, isWritten_of_mem_render named.1,
        isWritten_of_mem_renderRest named.2⟩

end

end TypeTree

/-! ## Tokens -/

namespace Token

/-- What a token keeps of a type text is a name part there, if it is one. -/
def KeepsNames (t : Text) : Prop :=
  ∀ c ∈ t, isTokenChar c = true → isNamePart c = true

theorem mem_of_mem_trim {t : Text} {c : Char} (member : c ∈ Text.trim t) : c ∈ t := by
  rcases Text.exists_surround t with ⟨gap, gap', -, -, -, whole⟩
  rw [whole]
  simp [member]

theorem mem_of_mem_eraseAngles {depth : Nat} {t : Text} {c : Char}
    (member : c ∈ Text.eraseAngles depth t) : c ∈ t := by
  induction t generalizing depth with
  | nil => cases member
  | cons d t ih =>
      rw [Text.eraseAngles] at member
      split at member
      · rcases List.mem_cons.mp member with rfl | inside
        · exact List.mem_cons_self
        · exact List.mem_cons_of_mem d (ih inside)
      · exact List.mem_cons_of_mem d (ih member)

theorem mem_of_mem_replaceFrom {old new t : Text} {pending : Nat} {c : Char}
    (member : c ∈ Text.replaceFrom old new pending t) : c ∈ new ∨ c ∈ t := by
  fun_induction Text.replaceFrom old new pending t with
  | case1 => cases member
  | case2 pending d t ih => exact (ih member).imp_right (List.mem_cons_of_mem d)
  | case3 d t _ ih =>
      rcases List.mem_append.mp member with inNew | inside
      · exact Or.inl inNew
      · exact (ih inside).imp_right (List.mem_cons_of_mem d)
  | case4 d t _ ih =>
      rcases List.mem_cons.mp member with rfl | inside
      · exact Or.inr List.mem_cons_self
      · exact (ih inside).imp_right (List.mem_cons_of_mem d)

theorem isNamePart_of_mem_arrayMarks {dimensions : Nat} {c : Char}
    (member : c ∈ arrayMarks dimensions) :
    isNamePart c = true :=
  (by decide : ∀ c ∈ "Array".toList, isNamePart c = true) c (mem_arrayMarks member)

/-- The token of a type text that keeps name parts only is made of name parts. -/
theorem isNamePart_of_mem_render {keep : Text → Text} (part : ∀ t, ∀ c ∈ keep t, c ∈ t)
    {typeText : Text} (names : KeepsNames typeText) :
    ∀ c ∈ render keep typeText, isNamePart c = true := by
  intro c member
  rcases List.mem_append.mp member with inName | inMarks
  · rcases List.mem_map.mp inName with ⟨d, inText, rfl⟩
    split
    · rename_i kept
      apply names d ?_ kept
      have inKept := List.takeWhile_prefix (fun c => !(c == '[')) |>.subset
        (part _ d (mem_of_mem_trim inText))
      rcases mem_of_mem_replaceFrom inKept with bracket | inErased
      · exact absurd ((by decide : ∀ c ∈ "[]".toList, isTokenChar c = false) d bracket)
          (by simp [kept])
      · exact mem_of_mem_eraseAngles (mem_of_mem_trim inErased)
    · decide
  · exact isNamePart_of_mem_arrayMarks inMarks

theorem keepsNames_of_isTypePart {name : Text} (named : ∀ c ∈ name, TypeTree.isTypePart c = true) :
    KeepsNames name := by
  intro c member kept
  have isPart := named c member
  have other : ∀ d, isTokenChar d = false → c ≠ d := by
    rintro d dropped rfl
    rw [dropped] at kept
    cases kept
  simpa [TypeTree.isTypePart, isDottedPart, other '.' (by decide), other '?' (by decide),
    other ' ' (by decide)] using isPart

end Token

namespace TypeTree

theorem isTypePart_of_isNamed {type : TypeTree} (named : type.isNamed = true) :
    ∀ c ∈ type.name, isTypePart c = true := by
  rcases type with ⟨name, arguments, dimensions, token⟩
  rw [isNamed, Bool.and_eq_true, List.all_eq_true] at named
  exact named.1

theorem isNamePart_of_mem_qualifiedToken {type : TypeTree} (named : type.isNamed = true) :
    ∀ c ∈ type.qualifiedToken, isNamePart c = true :=
  List.forall_mem_append.mpr
    ⟨Token.isNamePart_of_mem_render (fun _ _ member => member)
      (Token.keepsNames_of_isTypePart (isTypePart_of_isNamed named)),
    fun _ member => Token.isNamePart_of_mem_arrayMarks member⟩

end TypeTree

/-! ## Classes and styles -/

/-- The names of the method are made of name characters, its types are trees of
names, and their tokens hold what an identifier may hold. -/
structure Method.IsNamed (method : Method) : Prop where
  name : ∀ c ∈ method.name, isNamePart c = true
  parameterNames : ∀ name ∈ method.parameterNames, ∀ c ∈ name, isNamePart c = true
  parameterTypes : ∀ type ∈ method.parameterTypes,
    type.isNamed = true ∧ ∀ c ∈ type.token, isNamePart c = true
  returnType : ∀ type, method.returnType = some type → type.isNamed = true

/-- A method that is the subject of a test is one with names. -/
def Subject.IsNamed : Subject → Prop
  | .method _ exercised => exercised.IsNamed
  | _ => True

/-- The names of the class are made of name characters, its types are trees of names,
and its imports are dotted. -/
structure ClassSurface.IsNamed (target : ClassSurface) : Prop where
  name : ∀ c ∈ target.name, isNamePart c = true
  imports : Header.HasDottedImports target
  constructors : ∀ constructor ∈ target.constructors, ∀ type ∈ constructor.parameterTypes,
    type.isNamed = true
  methods : ∀ method ∈ target.methods, method.IsNamed

theorem ClassSurface.isNamed_named {name : Text} (inName : ∀ c ∈ name, isNamePart c = true) :
    (ClassSurface.named name).IsNamed where
  name := inName
  imports := by simp [Header.HasDottedImports, ClassSurface.named]
  constructors := by simp [ClassSurface.named]
  methods := by simp [ClassSurface.named]

/-- The class is in no package or in one with a dotted name. -/
def ClassSurface.HasDottedPackage (target : ClassSurface) : Prop :=
  ∀ package, target.package = some package → Header.isDottedPath package = true

/-- A line comment without a line break. -/
def Text.IsLineComment (line : Text) : Prop :=
  ∃ rest, line = '/' :: '/' :: rest ∧ '\n' ∉ rest ∧ '\r' ∉ rest

/-- The style breaks lines in one of the two ways, indents with blanks, marks with
name characters, and begins a body with a line comment at most. -/
structure TestStyle.IsUsual (style : TestStyle) : Prop where
  lineSeparator : style.lineSeparator = ['\n'] ∨ style.lineSeparator = ['\r', '\n']
  indent : Blank style.indent
  legacyPrefix : ∀ c ∈ style.legacyPrefix, isNamePart c = true
  parametersMark : ∀ c ∈ style.parametersMark, isNamePart c = true
  tokenMark : ∀ c ∈ style.tokenMark, isNamePart c = true
  todoComment : ∀ line, style.todoComment = some line → Text.IsLineComment line

theorem TestStyle.isUsual_modern : TestStyle.modern.IsUsual where
  lineSeparator := Or.inl rfl
  indent := by decide
  legacyPrefix := by decide
  parametersMark := by decide
  tokenMark := by decide
  todoComment := by
    rintro line same
    rcases Option.some.inj same with rfl
    exact ⟨" TODO auto-generated by testscribe.".toList, by decide, by decide, by decide⟩

namespace TestPlan

theorem isNamePart_of_mem_nameWith {style : TestStyle} (usual : style.IsUsual)
    {token : TypeTree → Text} {method : Method} (named : method.IsNamed)
    (tokens : ∀ type ∈ method.parameterTypes, ∀ c ∈ token type, isNamePart c = true) :
    ∀ c ∈ nameWith style token method, isNamePart c = true := by
  rw [nameWith]
  split
  · exact named.name
  · simp only [List.forall_mem_append, List.mem_flatMap]
    refine ⟨⟨named.name, usual.parametersMark⟩, ?_⟩
    rintro c ⟨type, inTypes, member⟩
    rcases List.mem_append.mp member with inMark | inToken
    · exact usual.tokenMark c inMark
    · exact tokens type inTypes c inToken

/-- A name of a method is its plain or its qualified one. -/
theorem exists_of_mem_methodNames {style : TestStyle} {methods : List Method} {taken : List Text}
    {name : Text} (member : name ∈ methodNames style taken methods) :
    ∃ method ∈ methods, name = plainName style method ∨ name = qualifiedName style method := by
  induction methods generalizing taken with
  | nil => cases member
  | cons method methods ih =>
      rw [methodNames] at member
      rcases List.mem_cons.mp member with rfl | later
      · refine ⟨method, List.mem_cons_self, ?_⟩
        split
        · exact .inr rfl
        · exact .inl rfl
      · rcases ih later with ⟨other, inside, whether⟩
        exact ⟨other, List.mem_cons_of_mem method inside, whether⟩

/-- The names of the tests are those of the fixed ones and of the methods. -/
theorem name_of_mem_tests {style : TestStyle} {target : ClassSurface} {test : PlannedTest}
    (member : test ∈ (ofSurface style target).tests) :
    test.name = "type".toList ∨ test.name = "instantiation".toList ∨
      ∃ method ∈ target.methods, test.name = plainName style method ∨
        test.name = qualifiedName style method := by
  rcases List.mem_cons.mp member with rfl | member
  · exact .inl rfl
  rcases List.mem_cons.mp member with rfl | member
  · exact .inr (.inl rfl)
  rcases List.mem_map.mp member with ⟨⟨entry, name⟩, inside, rfl⟩
  exact .inr (.inr (exists_of_mem_methodNames (List.of_mem_zip inside).2))

theorem isNamePart_of_mem_tests {style : TestStyle} (usual : style.IsUsual) {target : ClassSurface}
    (named : target.IsNamed) :
    ∀ test ∈ (ofSurface style target).tests, ∀ c ∈ test.name, isNamePart c = true := by
  intro test member
  rcases name_of_mem_tests member with name | name | ⟨method, inside, name | name⟩ <;> rw [name]
  · decide
  · decide
  · exact isNamePart_of_mem_nameWith usual (named.methods method inside) fun type member =>
      ((named.methods method inside).parameterTypes type member).2
  · exact isNamePart_of_mem_nameWith usual (named.methods method inside) fun type member =>
      TypeTree.isNamePart_of_mem_qualifiedToken
        ((named.methods method inside).parameterTypes type member).1

/-- The subjects of the tests are the fixed ones and the methods. -/
theorem subject_of_mem_tests {style : TestStyle} {target : ClassSurface} {test : PlannedTest}
    (member : test ∈ (ofSurface style target).tests) :
    test.subject = .type ∨ test.subject = .instantiation ∨
      ∃ place, ∃ method ∈ target.methods, test.subject = .method place method := by
  rcases List.mem_cons.mp member with rfl | member
  · exact .inl rfl
  rcases List.mem_cons.mp member with rfl | member
  · exact .inr (.inl rfl)
  rcases List.mem_map.mp member with ⟨⟨⟨method, place⟩, name⟩, inside, rfl⟩
  exact .inr (.inr ⟨place, method, List.fst_mem_of_mem_zipIdx (List.of_mem_zip inside).1, rfl⟩)

theorem subject_isNamed {style : TestStyle} {target : ClassSurface} (named : target.IsNamed) :
    ∀ test ∈ (ofSurface style target).tests, test.subject.IsNamed := by
  intro test member
  rcases subject_of_mem_tests member with subject | subject | ⟨place, method, inside, subject⟩ <;>
    rw [subject]
  · trivial
  · trivial
  · exact named.methods method inside

end TestPlan
end Testwright
