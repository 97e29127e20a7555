import Testwright.Proofs.Declaration.MemberReading
import Testwright.Proofs.Declaration.TypeLayout
import Testwright.Proofs.Matcher.Yielded
import Testwright.Proofs.Text.Renormalization
import Testwright.Source.ClassReader

namespace Testwright

/-!
# Accessors and the fields behind them

A getter, a question and a setter of a field carry the name of the field, and
its type stands in their declaration.  Where a source declares both the field
and such a method, the method is read as an accessor, if the type is traceable
and its pattern not too large for the library that compiles it
(`ClassSurface.read_accessor`).  The rest of the source makes no difference.

The class, its package and its imports are read from the normalized source,
and the members from that text normalized once more.
-/

open Character (isNamePart isWord)
open Lexeme (IsKeyword Spelled)
open Matcher (Stops Yields)

/-! ## The name of the field in the name of the method -/

namespace Character

/-- Lower case undoes upper case on the small letters of ASCII. -/
theorem lowercase_toUpper {c : Char} (lower : c.isLower = true) : lowercase c.toUpper = [c] := by
  have letters : ∀ n < 26, lowercase (Char.ofNat (97 + n)).toUpper = [Char.ofNat (97 + n)] := by
    decide
  delta Char.isLower at lower
  simp only [Bool.and_eq_true, decide_eq_true_eq, ge_iff_le, UInt32.le_iff_toNat_le] at lower
  have bounds : 97 ≤ c.toNat ∧ c.toNat ≤ 122 := lower
  have letter := letters (c.toNat - 97) (by omega)
  rwa [show 97 + (c.toNat - 97) = c.toNat by omega, Char.ofNat_toNat] at letter

end Character

namespace Text

/-- The text with its first character in upper case, for small letters of
ASCII. -/
def upperFirst : Text → Text
  | [] => []
  | c :: rest => c.toUpper :: rest

theorem lowerFirst_upperFirst {t : Text} (lower : t.head?.any Char.isLower = true) :
    lowerFirst (upperFirst t) = t := by
  cases t with
  | nil => rfl
  | cons c rest =>
      rw [upperFirst, lowerFirst, Character.lowercase_toUpper lower, List.singleton_append]

end Text

namespace MethodForm

/-- The methods that stand for a field of the type. -/
inductive IsAccessorOf (type : TypeTree) (field : Text) (form : MethodForm) : Prop
  | getter (name : form.name = "get".toList ++ Text.upperFirst field)
      (result : form.result = some type)
  | question (name : form.name = "is".toList ++ Text.upperFirst field)
      (result : form.result = some type)
  | setter {parameter : ParameterForm} (name : form.name = "set".toList ++ Text.upperFirst field)
      (first : form.parameters.head? = some parameter) (ofType : parameter.type = type)
      (isSingle : parameter.isVariadic = false) (isUnmarked : parameter.marks = 0)

variable {type : TypeTree} {field : Text} {form : MethodForm}

theorem IsAccessorOf.isDeclared (accessor : form.IsAccessorOf type field)
    (h : form.isWellFormed = true) :
    type.isDeclared = true := by
  cases accessor with
  | getter _ result => exact (parts h).result type result
  | question _ result => exact (parts h).result type result
  | setter _ first ofType _ _ =>
      rw [← ofType]
      exact ParameterForm.isDeclared_type ((parts h).parameters _ (List.mem_of_mem_head? first))

/-- The declaration of an accessor implies the field, with the type as it is
resolved. -/
theorem impliedField?_declared (accessor : form.IsAccessorOf type field)
    (lower : field.head?.any Char.isLower = true) (library : PatternLibrary)
    (policy : ExtractionPolicy) (scope : NameScope) (source : Text) :
    (form.declared library policy scope source).impliedField? =
      some (field, type.resolved policy scope) := by
  have back := Text.lowerFirst_upperFirst lower
  obtain ⟨c, rest, upper⟩ : ∃ c rest, Text.upperFirst field = c :: rest := by
    cases field with
    | nil => cases lower
    | cons c rest => exact ⟨_, _, rfl⟩
  rw [upper] at back
  have named : (form.declared library policy scope source).name = form.name := rfl
  unfold Method.impliedField?
  cases accessor with
  | getter name result =>
      have noSet : Text.dropStart? "set".toList ("get".toList ++ c :: rest) = none := rfl
      have get : Text.dropStart? "get".toList ("get".toList ++ c :: rest) = some (c :: rest) := rfl
      have returns : (form.declared library policy scope source).returnType =
          some (type.resolved policy scope) := by
        simp [declared, result]
      rw [named, name, upper, noSet, get, returns]
      simp [back]
  | question name result =>
      have noSet : Text.dropStart? "set".toList ("is".toList ++ c :: rest) = none := rfl
      have noGet : Text.dropStart? "get".toList ("is".toList ++ c :: rest) = none := rfl
      have is : Text.dropStart? "is".toList ("is".toList ++ c :: rest) = some (c :: rest) := rfl
      have returns : (form.declared library policy scope source).returnType =
          some (type.resolved policy scope) := by
        simp [declared, result]
      rw [named, name, upper, noSet, noGet, is, returns]
      simp [back]
  | setter name first ofType isSingle isUnmarked =>
      have set : Text.dropStart? "set".toList ("set".toList ++ c :: rest) = some (c :: rest) := rfl
      have takes : (form.declared library policy scope source).parameterTypes.head? =
          some (type.resolved policy scope) := by
        simp [declared, first, ParameterForm.declared, ofType, isSingle, isUnmarked,
          TypeTree.resolved_withDimensions]
      rw [named, name, upper, set, takes]
      simp [back]

theorem isAccessor_declared (library : PatternLibrary) (policy : ExtractionPolicy)
    (scope : NameScope) (source : Text) (form : MethodForm) :
    (form.declared library policy scope source).isAccessor =
      (form.declared library policy scope source).isBacked library source := rfl

end MethodForm

/-! ## The field in the source -/

namespace Matcher

/-- Behind a word that ends with a word character there is an edge. -/
theorem mem_word_edge {w rest : Text} (last : w.getLast?.any isWord = true)
    (stops : Stops isWord rest) (behind : Text) :
    ((), ⟨w.reverse ++ behind, rest⟩) ∈ (do word w; wordEdge) ⟨behind, w ++ rest⟩ := by
  have edge : Place.atWordEdge ⟨w.reverse ++ behind, rest⟩ = true := by
    cases atEnd : w.getLast? with
    | none =>
        rw [atEnd] at last
        cases last
    | some c =>
        rw [atEnd] at last
        have isWord : isWord c = true := last
        have noWord : rest.head?.any Character.isWord = false := stops
        simp [Place.atWordEdge, List.head?_append, List.head?_reverse, atEnd, isWord, noWord]
  rw [bind_of_single (word_append w behind rest)]
  unfold wordEdge
  rw [require_of_true edge]
  exact List.mem_singleton.mpr rfl

/-- A field that a text declares is found by the resolved type. -/
theorem occursIn_privateField {policy : ExtractionPolicy} {scope : NameScope} {type : TypeTree}
    (h : type.isSpellable = true) (traceable : type.isTraceable policy scope = true)
    {field className s t : Text} (last : field.getLast?.any isWord = true)
    (spelled : Spelled ((Member.field type field).lexemes className) s) (alone : Text.MarksAlone s)
    (inside : s <:+: t) : (privateField (type.resolved policy scope) field).occursIn t = true := by
  obtain ⟨x, y, rfl⟩ := inside
  obtain ⟨gap, _, rfl, -, -, others⟩ := spelled
  obtain ⟨_, _, rfl, inType, gap₃, _, rfl, blank₃, apart, gap₄, _, rfl, blank₄, -, rfl⟩ :=
    Lexeme.spelled_append.mp others
  have writable := TypeTree.isWritable_of_isSpellable type h
  obtain ⟨gap₁, _, rfl, blank₁, some₁, inType⟩ :=
    inType.exists_blank (TypeTree.lexemes_ne_nil writable) (TypeTree.head_lexemes writable)
  obtain ⟨gap₂, w, rfl, blank₂, accepts⟩ :=
    TypeTree.exists_accepted policy scope type h traceable inType
    alone.right.right.left.right
  have stops : Stops isWord (gap₄ ++ ';' :: y) := by
    cases gap₄ with
    | nil => exact Matcher.stops_cons.mpr (by decide)
    | cons c gap₄ => exact Character.not_isWord_of_isBlank (blank₄ c List.mem_cons_self)
  have read : ((), ⟨field.reverse ++ (gap₃.reverse ++ (w.reverse ++ ((gap₁ ++ gap₂).reverse ++
      ("private".toList.reverse ++ (x ++ gap).reverse)))), gap₄ ++ ';' :: y⟩) ∈
      privateField (type.resolved policy scope) field ⟨(x ++ gap).reverse,
        "private".toList ++
          ((gap₁ ++ gap₂) ++ (w ++ ([] ++ (gap₃ ++ (field ++ (gap₄ ++ ';' :: y))))))⟩ := by
    unfold privateField
    exact (accepts_word _).mem_bind
      ((accepts_runs1 (blank₁.append blank₂) (by simp [some₁])).mem_bind
      (accepts.mem_bind (accepts_maybe_nil.mem_bind ((accepts_runs1 blank₃ (apart rfl)).mem_bind
        (mem_word_edge last stops _)))))
  exact occursIn_iff.mpr ⟨x ++ gap, _, by simp, List.ne_nil_of_mem read⟩

end Matcher

/-! ## Reading the class -/

/-- The scope that the members of the class in a source are read in. -/
def NameScope.ofSource (source : Text) : NameScope where
  package := (Matcher.packageName.find? (Text.normalize source)).map Stretch.text
  imports := ClassSurface.importsOf (Text.normalize source)

theorem Matcher.isKeyword_of_className {t name : Text}
    (found : (className.find? t).map Stretch.text = some name) : IsKeyword name := by
  have yields : Yields className fun stretch _ => IsKeyword stretch.text := by
    refine ((takes_require _).yields.bind fun _ => (takes_anyOf _).yields.bind fun _ =>
      (takes_run1 _).yields.bind fun _ => (takes_run1 isNamePart).yields_stretch).mono ?_
    rintro stretch _ ⟨-, -, _, -, -, -, -, _, -, -, -, -, _, -, -, same, isName⟩
    rw [same]
    exact isName
  obtain ⟨stretch, first, rfl⟩ := Option.map_eq_some_iff.mp found
  obtain ⟨x, y, later, -, -, reads⟩ := exists_of_findFrom first
  obtain ⟨s, isKeyword, -⟩ := yields _ _ (List.mem_of_mem_head? reads)
  exact isKeyword

/-- Whether the text declares a private field of the type, its question marks
alone. -/
def Text.HasField (t className : Text) (type : TypeTree) (field : Text) : Prop :=
  ∃ s, s <:+: t ∧ Spelled ((Member.field type field).lexemes className) s ∧ MarksAlone s

/-- Whether the text declares the method, at the start or behind a terminator. -/
def Text.HasMethod (t : Text) (form : MethodForm) : Prop :=
  ∃ behind s ahead, t = behind ++ (s ++ ahead) ∧ Terminated behind ∧ Spelled form.lexemes s

/-- A declared method is among the methods that are read. -/
theorem Method.mem_readAll {library : PatternLibrary} {policy : ExtractionPolicy}
    {surface : ClassSurface} {source : Text} {form : MethodForm} (h : form.isWellFormed = true)
    (isClass : IsKeyword surface.name) (other : form.name ≠ surface.name)
    (hasMethod : (Text.normalize source).HasMethod form) :
    form.declared library policy (NameScope.ofSurface surface) (Text.normalize source) ∈
      Method.readAll library policy surface source := by
  obtain ⟨behind, s, ahead, cut, terminated, spelled⟩ := hasMethod
  have noReturn : '\r' ∉ s := fun member =>
    (Text.normalize_laidOut source).1 (by rw [cut]; simp [member])
  have shown := MethodForm.findAll_of_spelled h noReturn spelled isClass other library policy
    (NameScope.ofSurface surface) (Text.normalize source)
  have terminated' := Member.terminated_of_listed form.last_eq spelled
  have parts : Signature.findAll (Text.normalize source) surface.name =
      Signature.findAll behind surface.name ++
        (Signature.findAll s surface.name ++ Signature.findAll ahead surface.name) := by
    rw [cut, Signature.findAll_terminated_append terminated,
      Signature.findAll_terminated_append terminated']
  obtain ⟨signature, inFound, isMethod⟩ := List.mem_map.mp (shown ▸ List.mem_singleton.mpr rfl)
  rw [← isMethod]
  refine List.mem_map.mpr ⟨signature, ?_, rfl⟩
  rw [parts]
  exact List.mem_append_right _ (List.mem_append_left _ inFound)

namespace ClassSurface

variable {library : PatternLibrary} {policy : ExtractionPolicy} {source className field : Text}
  {type : TypeTree} {form : MethodForm}

/-- A source with a class is read, its members in the scope of the source, unless
it is too large. -/
theorem exists_read (library : PatternLibrary) (policy : ExtractionPolicy)
    (isClass : (Matcher.className.find? (Text.normalize source)).map Stretch.text =
      some className) :
    ∃ surface header : ClassSurface,
      read library policy source =
        (if policy.maxSourceSize < Text.utf8Size source then
          .error (.sourceTooLarge (Text.utf8Size source) policy.maxSourceSize)
        else
          .ok surface) ∧
      header.name = className ∧ NameScope.ofSurface header = NameScope.ofSource source ∧
      surface.methods = Method.readAll library policy header (Text.normalize source) := by
  obtain ⟨name, found, rfl⟩ := Option.map_eq_some_iff.mp isClass
  let header : ClassSurface :=
    ⟨name.text, (NameScope.ofSource source).package, (NameScope.ofSource source).imports, [], []⟩
  refine ⟨{ header with
    constructors := Constructor.readAll policy header (Text.normalize source)
    methods := Method.readAll library policy header (Text.normalize source) }, header, ?_, rfl,
    rfl, by dsimp only⟩
  rw [read]
  simp only [found]
  rfl

/-- A method that is named for a private field of its type is read as an
accessor, if the library compiles the pattern for the field. -/
theorem read_accessor
    (isClass : (Matcher.className.find? (Text.normalize source)).map Stretch.text = some className)
    (hasField : (Text.normalize (Text.normalize source)).HasField className type field)
    (lower : field.head?.any Char.isLower = true) (last : field.getLast?.any isWord = true)
    (traceable : type.isTraceable policy (NameScope.ofSource source) = true)
    (compiled : library.compiles
      ((type.resolved policy (NameScope.ofSource source)).fieldPattern field) = true)
    (hasMethod : (Text.normalize (Text.normalize source)).HasMethod form)
    (wellFormed : form.isWellFormed = true) (other : form.name ≠ className)
    (accessor : form.IsAccessorOf type field) :
    ∃ surface,
      read library policy source =
        (if policy.maxSourceSize < Text.utf8Size source then
          .error (.sourceTooLarge (Text.utf8Size source) policy.maxSourceSize)
        else
          .ok surface) ∧
      ∃ method ∈ surface.methods, method.isAccessor = true ∧
        method = form.declared library policy (NameScope.ofSource source)
          (Text.normalize (Text.normalize source)) := by
  obtain ⟨surface, header, isRead, named, inScope, methods⟩ := exists_read library policy isClass
  have keyword := Matcher.isKeyword_of_className isClass
  have member : form.declared library policy (NameScope.ofSurface header) _ ∈
      Method.readAll library policy header _ :=
    Method.mem_readAll wellFormed (named ▸ keyword) (named ▸ other) hasMethod
  rw [← methods, inScope] at member
  refine ⟨surface, isRead, _, member, ?_, rfl⟩
  obtain ⟨s, inside, spelled, alone⟩ := hasField
  have spellable := TypeTree.isSpellable_of_isDeclared (accessor.isDeclared wellFormed)
  have backed := Matcher.occursIn_privateField spellable traceable last spelled alone inside
  rw [MethodForm.isAccessor_declared, Method.isBacked,
    MethodForm.impliedField?_declared accessor lower]
  dsimp only
  rw [PatternLibrary.findsField, compiled, Bool.true_and]
  exact backed

/-- A class with a setter, in which the names of a type come from an import and
from the package. -/
def order : Text :=
  ("package shop; import java.util.Map; class Order \x7b private Map<Item[],Set<?>> items; " ++
    "void setItems(Map<Item[],Set<?>> items)\x7b\x7d \x7d").toList

def itemsType : TypeTree :=
  (TypeTree.named "Map".toList).withArguments
    [(TypeTree.named "Item".toList).withDimensions 1,
      (TypeTree.named "Set".toList).withArguments [TypeTree.named "?".toList]]

def setItems : MethodForm where
  modifiers := []
  typeVariables := []
  result := none
  name := "setItems".toList
  parameters := [⟨false, itemsType, false, "items".toList, 0⟩]
  thrown := []
  body := some []

theorem read_accessor_order :
    ∃ surface,
      read (.within 1000) .qualifying order =
        (if ExtractionPolicy.qualifying.maxSourceSize < Text.utf8Size order then
          .error (.sourceTooLarge (Text.utf8Size order) ExtractionPolicy.qualifying.maxSourceSize)
        else
          .ok surface) ∧
      ∃ method ∈ surface.methods, method.isAccessor = true ∧
        method = setItems.declared (.within 1000) .qualifying (NameScope.ofSource order)
          (Text.normalize (Text.normalize order)) := by
  have same : Text.normalize order = order := by decide +kernel
  have isClass : (Matcher.className.find? (Text.normalize order)).map Stretch.text =
      some "Order".toList := by
    rw [same]
    decide +kernel
  have traceable : itemsType.isTraceable ExtractionPolicy.qualifying (NameScope.ofSource order) =
      true := by
    unfold NameScope.ofSource
    rw [same]
    decide +kernel
  have compiled : (PatternLibrary.within 1000).compiles
      ((itemsType.resolved ExtractionPolicy.qualifying (NameScope.ofSource order)).fieldPattern
        "items".toList) = true := by
    unfold NameScope.ofSource
    rw [same]
    decide +kernel
  have hasField :
      (Text.normalize (Text.normalize order)).HasField "Order".toList itemsType "items".toList := by
    rw [same, same]
    exact ⟨_, by decide +kernel, Lexeme.spelled_print _, by decide +kernel⟩
  have hasMethod : (Text.normalize (Text.normalize order)).HasMethod setItems := by
    rw [same, same]
    have terminated : Text.Terminated
        ("package shop; import java.util.Map; class Order \x7b private Map<Item[],Set<?>> items".toList ++ [';']) :=
      Or.inr ⟨_, ';', rfl, rfl⟩
    exact ⟨_, [' '] ++ Lexeme.print setItems.lexemes, "\x7d \x7d".toList, by decide +kernel,
      terminated, (Lexeme.spelled_print _).blank_append (by decide +kernel) (by decide)⟩
  have wellFormed : setItems.isWellFormed = true := by decide +kernel
  have other : setItems.name ≠ "Order".toList := by decide
  have accessor : setItems.IsAccessorOf itemsType "items".toList := .setter rfl rfl rfl rfl rfl
  exact read_accessor isClass hasField (by decide) (by decide) traceable compiled
    hasMethod wellFormed
    other accessor

/-- An erased type variable, a bound with a dot and a bound word right behind its
question mark are each read in the method and not found in the field. -/
theorem read_no_accessor :
    let accessors (source : Text) :=
      (read (.within 1000) .standard source).toOption.map fun surface =>
      surface.methods.map fun method => (method.name, method.isAccessor)
    accessors "class Box<T> \x7b private T t; T getT() \x7b\x7d \x7d".toList =
        some [("getT".toList, false)] ∧
      accessors
          "class A \x7b private B<? extends c.D> e; B<? extends c.D> getE() \x7b\x7d \x7d".toList =
        some [("getE".toList, false)] ∧
      accessors "class A \x7b private B<?extends C> d; B<?extends C> getD() \x7b\x7d \x7d".toList =
        some [("getD".toList, false)] := by
  decide +kernel

end ClassSurface
end Testwright
