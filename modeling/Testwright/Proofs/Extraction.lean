import Testwright.Proofs.Declaration.ClassReading
import Testwright.Proofs.Declaration.ClassTidying

namespace Testwright

/-!
# Reading undoes writing

A class that is written in any layout, with plain bodies, reads as the surface
that was written.  The surface lists what its members declare in order, and
behind each member what the pieces of its body declare; the source is refused
only for its size.
-/

namespace ClassForm

/-- A text that normalizing leaves as it is gives the surface of the class that
it writes. -/
theorem read_of_stable {form : ClassForm} (h : form.isWellFormed = true) {source t : Text}
    (same : Text.normalize source = t) (stable : Text.normalize t = t) (written : form.Written t)
    (noReturn : '\r' ∉ t) (library : PatternLibrary) (policy : ExtractionPolicy) :
    ClassSurface.read library policy source =
      if policy.maxSourceSize < Text.utf8Size source then
        .error (.sourceTooLarge (Text.utf8Size source) policy.maxSourceSize)
      else
        .ok (form.declared library policy t) := by
  obtain ⟨name, found, text⟩ := Option.map_eq_some_iff.mp (find?_className_of_written h written)
  obtain ⟨constructors, methods⟩ :=
    reads_of_written h written noReturn policy (NameScope.ofSurface form.header)
  have readConstructors : Constructor.readAll policy form.header t = _ := constructors
  have readMethods : Method.readAll library policy form.header t =
      form.members.flatMap
        (Member.methods library policy (NameScope.ofSurface form.header) form.name t) := by
    rw [Method.readAll, Method.readWith]
    simp only [stable]
    exact methods library t
  have surface : form.declared library policy t = { form.header with
      constructors := Constructor.readAll policy form.header t
      methods := Method.readAll library policy form.header t } := by
    rw [readConstructors, readMethods]
    rfl
  simp only [ClassSurface.read, same, found, text, find?_packageName_of_written h written,
    importsOf_of_written h written, surface]
  rfl

/-- Reading undoes writing, whatever the layout. -/
theorem read_of_written {form : ClassForm} (h : form.isWellFormed = true)
    (plain : form.hasPlainBodies = true) {source : Text} (written : form.Written source)
    (library : PatternLibrary) (policy : ExtractionPolicy) :
    ClassSurface.read library policy source =
      if policy.maxSourceSize < Text.utf8Size source then
        .error (.sourceTooLarge (Text.utf8Size source) policy.maxSourceSize)
      else
        .ok ((form.mapBodies Text.shown).declared library policy (Text.normalize source)) := by
  obtain ⟨tidied, isPlain⟩ := written_tidy h plain written
  have same := Text.normalize_of_isPlain isPlain
  rw [same]
  exact read_of_stable (isWellFormed_mapBodies h plain) same (Text.normalize_tidy isPlain) tidied
    (Text.not_mem_return_tidy source) library policy

/-- A class with a member of each kind. -/
def account : ClassForm where
  package := some "bank.core".toList
  imports := [⟨false, "java.util.List".toList, false⟩, ⟨true, "bank.Limits".toList, true⟩]
  modifiers := ["public".toList, "abstract".toList]
  keyword := "class".toList
  name := "Account".toList
  parent := none
  members := [
    .field (TypeTree.named "long".toList) "balance".toList,
    .constructor {
      access := ["public".toList]
      parameters := []
      thrown := []
      body := " this.balance = 0; ".toList },
    .method {
      modifiers := ["final".toList, "public".toList]
      typeVariables := [⟨"T".toList, [TypeTree.named "Number".toList]⟩]
      result := some ((TypeTree.named "List".toList).withArguments [TypeTree.named "T".toList])
      name := "draw".toList
      parameters := []
      thrown := ["java.io.IOException".toList]
      body := none }]

theorem read_of_written_account :
    account.isWellFormed = true ∧ account.hasPlainBodies = true ∧ account.Written account.print ∧
      ClassSurface.read (.within 1000) .standard account.print =
        if ExtractionPolicy.standard.maxSourceSize < Text.utf8Size account.print then
          .error (.sourceTooLarge (Text.utf8Size account.print)
            ExtractionPolicy.standard.maxSourceSize)
        else
          .ok ((account.mapBodies Text.shown).declared (.within 1000) .standard
            (Text.normalize account.print)) := by
  have wellFormed : account.isWellFormed = true := by decide +kernel
  have plain : account.hasPlainBodies = true := by decide +kernel
  exact ⟨wellFormed, plain, account.written_print,
    read_of_written wellFormed plain account.written_print (.within 1000) .standard⟩

/-- A class whose one member is a field of a type that ends in a keyword. -/
def keywordField : ClassForm where
  package := none
  imports := []
  modifiers := []
  keyword := "class".toList
  name := "A".toList
  parent := none
  members := [.field (TypeTree.named "a$import".toList) "b".toList]

/-- A class whose one method has a class with a method in its body. -/
def localClass : ClassForm where
  package := none
  imports := []
  modifiers := []
  keyword := "class".toList
  name := "A".toList
  parent := none
  members := [.method {
    modifiers := []
    typeVariables := []
    result := none
    name := "f".toList
    parameters := []
    thrown := []
    body := some " class B { int g(); } ".toList }]

/-- The end of a type reads as the beginning of an import statement, and the
methods of a local class read as methods of the class. -/
theorem read_beside_members :
    keywordField.Written keywordField.print ∧ keywordField.imports = [] ∧
      (ClassSurface.read (.within 1000) .standard keywordField.print).toOption.map
        ClassSurface.imports =
        some ["b".toList] ∧
      localClass.Written localClass.print ∧ localClass.members.length = 1 ∧
      (ClassSurface.read (.within 1000) .standard localClass.print).toOption.map
          (fun surface => surface.methods.map Method.name) = some ["f".toList, "g".toList] :=
  ⟨keywordField.written_print, rfl, by decide +kernel, localClass.written_print,
    rfl, by decide +kernel⟩

end ClassForm
end Testwright
