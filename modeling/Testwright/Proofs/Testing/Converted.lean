import Testwright.Proofs.Header.Reference
import Testwright.Proofs.Testing.Mentioned
import Testwright.Proofs.Testing.Sheet

namespace Testwright

/-!
# Generated tests in the other convention

Conversion leaves the rows of a generated source, gives the class the header of the
other convention and rewrites the tests into those of the other convention.  An import
that is not used goes with its row, and those that are missing go in front of the
class (`TestPlan.exists_convert_layout`).  So what begins with the class is what would
have been generated (`TestSource.unify_newIn`).
-/

open Character (isBlank isNamePart)
open Header (IsImportLine Row entries rowsText)
open HeaderStatement (header)

namespace TestPlan

/-! ## Names that a source does not use -/

section Unused

variable {style : TestStyle} (preset : style.IsPreset) {target : ClassSurface}
  (named : target.IsNamed) {convention : Convention}
  (ends : target.name.getLast?.any Character.isWord = true)
  (avoids : target.Avoids convention.otherName)
include ends avoids

theorem not_mentions_classLine :
    Text.mentions (classLine convention (ofSurface style target)) convention.otherName = false := by
  have nonempty := convention.otherName_ne_nil
  have name : Text.mentions (target.name ++ "Test".toList) convention.otherName = false := by
    cases convention with
    | legacy => exact Text.not_mentions_longer (by decide) ends (by decide) avoids.name
    | modern => exact Text.not_mentions_append_words (by decide) (by decide) avoids.name
  have heading : Text.mentions (classParts convention (ofSurface style target)).heading
      convention.otherName = false :=
    Text.not_mentions_append nonempty (s := "public class ".toList) (.inl (by decide))
      (by cases convention <;> decide) name
  have clauses : Text.mentions (extendsClause convention ++ [' ']) convention.otherName =
      false := by
    cases convention <;> decide
  have edge : (extendsClause convention ++ [' ']).head?.any Character.isWord = false := by
    cases convention <;> decide
  rw [classLine, classParts_text]
  exact Text.not_mentions_append nonempty (.inr (by decide))
    (Text.not_mentions_append nonempty (.inr edge) heading clauses)
    (Text.not_mentions_of_others nonempty (by decide))

include preset named

/-- A source of a convention does not use the name that it does not import, if its
package and its class avoid it. -/
theorem not_isReferenced_layout {separator : Text}
    (isBreak : separator = ['\n'] ∨ separator = ['\r', '\n']) {rows : List Row}
    (dotted : ∀ row ∈ rows, row.IsDotted)
    (packages : ∀ name, Row.package name ∈ rows → Text.mentions name convention.otherName = false) :
    Header.isReferenced (layout style convention separator rows (ofSurface style target))
      convention.otherName =
      false := by
  have nonempty := convention.otherName_ne_nil
  have noSemicolon :
      ';' ∉ header ((classParts convention (ofSurface style target)).text ++ '\x7b' ::
      classBody style convention separator (ofSurface style target)) := by
    rw [header_class named.name]
    exact semicolon_not_mem_classParts named.name
  have row_ : ∀ row ∈ rows, Text.mentions row.withoutImport.text convention.otherName = false := by
    intro row member
    cases row with
    | package name =>
        exact Text.not_mentions_append nonempty (.inr (by decide))
          (Text.not_mentions_append nonempty (.inl (by decide))
          (by cases convention <;> decide) (packages name member))
            (Text.not_mentions_of_others nonempty (by decide))
    | blank => exact Text.mentions_nil nonempty
    | imported line => exact Text.mentions_nil nonempty
  refine Bool.eq_false_iff.mpr fun referenced => ?_
  rw [Header.isReferenced_iff Convention.isWord_of_mem_otherName nonempty, layout,
    Header.withoutImports_rowsText isBreak dotted noSemicolon, ← sheet,
    sheet_eq_joinLines] at referenced
  refine Bool.eq_false_iff.mp (not_mentions_joinLines isBreak fun line member => ?_) referenced
  rcases List.mem_append.mp member with front | behind
  · rcases List.mem_append.mp front with inRows | inClass
    · rcases List.mem_map.mp inRows with ⟨_, inside, rfl⟩
      rcases List.mem_map.mp inside with ⟨row, inRow, rfl⟩
      exact row_ row inRow
    · rcases List.mem_cons.mp inClass with rfl | empty
      · exact not_mentions_classLine ends avoids
      · rw [List.mem_singleton.mp empty]
        exact Text.mentions_nil nonempty
  · rcases List.mem_append.mp behind with inTests | closing
    · rcases List.mem_flatMap.mp inTests with ⟨test, member, inside⟩
      rcases List.mem_append.mp inside with inTest | empty
      · exact not_mentions_of_mem_testLines avoids preset.isUsual.indent preset.legacyPrefix
          (preset.forall_todoComment (by cases convention <;> decide))
          (not_mentions_of_mem_tests ⟨preset.parametersMark, preset.tokenMark⟩ named avoids
            test member)
          (subject_avoids avoids test member) line inTest
      · rw [List.mem_singleton.mp empty]
        exact Text.mentions_nil nonempty
    · rw [List.mem_singleton.mp closing]
      exact Text.not_mentions_of_others nonempty (by decide)

end Unused

/-! ## Conversion of the rows -/

theorem not_removed_iff (line : Text) (entry : Bool × Text) :
    (entry != (true, line)) = !(entry.1 && entry.2 == line) := by
  rcases entry with ⟨_ | _, text⟩
  · simp
  · simp [bne]

section Rows

variable {style : TestStyle} (preset : style.IsPreset) {target : ClassSurface}
  (named : target.IsNamed) {separator : Text}
  (isBreak : separator = ['\n'] ∨ separator = ['\r', '\n']) {rows : List Row}
  (dotted : ∀ row ∈ rows, row.IsDotted)
include preset named isBreak dotted

variable (methods : ∀ method ∈ target.methods, method.name ≠ []) {shown wanted : Convention}
  (other : shown ≠ wanted)
  (imported : ∀ line ∈ shown.imports, (true, line) ∈ rows.filterMap Row.entry?)
  (others : wanted = .legacy → ∀ test ∈ (ofSurface style target).tests,
    ¬ style.legacyPrefix <+: test.name)
  (ends : target.name.getLast?.any Character.isWord = true)
  (avoids : target.Avoids wanted.otherName)
  (packages : ∀ name, Row.package name ∈ rows → Text.mentions name wanted.otherName = false)
include methods other imported others ends avoids packages

/-- Conversion gives the class the form of the other convention, takes the imports of
its own out of the rows and adds those that are missing. -/
theorem exists_convert_layout : ∃ rows' : List Row, rows'.Sublist rows ∧
    rows'.filterMap Row.entry? =
      (rows.filterMap Row.entry?).filter
        (fun entry => !(entry.1 && shown.imports.contains entry.2)) ∧
    Convention.convert style (some target) wanted
        (layout style shown separator rows (ofSurface style target)) =
      .ok (Convention.withImports (some target) wanted separator
        (layout style wanted separator rows' (ofSurface style target))) := by
  have shows : Convention.ofSource? (layout style shown separator rows (ofSurface style target)) =
      some shown :=
    ofSource?_layout isBreak dotted named.name imported
  have separator_ := lineSeparator_sheet preset named isBreak dotted shown shown style.lineSeparator
  rw [← layout_eq_sheet] at separator_
  simp only [Convention.convert, shows, if_neg other, separator_]
  cases wanted with
  | modern =>
      obtain rfl : shown = .legacy := by cases shown <;> simp_all
      rcases dropBaseClass_layout style isBreak dotted (ofSurface style target) named.name with
        ⟨header, found, dropped⟩
      have isImport : ∀ line ∈ Convention.legacy.imports, IsImportLine line := fun _ =>
        Header.isImportLine_of_mem_imports
      rcases exists_removeImport_layout preset named isBreak dotted .modern
        (isImport _ List.mem_cons_self) with
        ⟨rows', sub, entries_, removed⟩
      have unused := not_isReferenced_layout preset named ends avoids isBreak dotted packages
      refine ⟨rows', sub, ?_, ?_⟩
      · rw [entries_]
        refine List.filter_congr fun entry _ => ?_
        rw [not_removed_iff, Convention.imports, List.contains_cons, List.contains_nil,
          Bool.or_false]
      · simp only [Convention.toModern, found, dropped,
          markLines_sheet preset named isBreak dotted methods]
        rw [← layout_eq_sheet, Convention.dropUnused,
          show "TestCase".toList = Convention.otherName .modern from rfl, unused, removed]
        rfl
  | legacy =>
      obtain rfl : shown = .modern := by cases shown <;> simp_all
      rcases addBaseClass_layout style isBreak dotted (ofSurface style target) named.name with
        ⟨header, found, free, added⟩
      have isImport : ∀ line ∈ Convention.modern.imports, IsImportLine line := fun _ =>
        Header.isImportLine_of_mem_imports
      rcases exists_removeImport_layout preset named isBreak dotted .legacy
        (isImport _ List.mem_cons_self) with
        ⟨rows', sub, entries_, removed⟩
      have dotted' : ∀ row ∈ rows', row.IsDotted := fun row member => dotted row (sub.subset member)
      rcases exists_removeImport_layout preset named isBreak dotted' .legacy
        (isImport _ (List.mem_cons_of_mem _ List.mem_cons_self)) with
        ⟨rows'', sub', entries', removed'⟩
      have unused :=
        not_isReferenced_layout preset named ends avoids isBreak dotted' fun name member =>
        packages name (sub.subset member)
      refine ⟨rows'', sub'.trans sub, ?_, ?_⟩
      · rw [entries', entries_, List.filter_filter]
        refine List.filter_congr fun entry _ => ?_
        rw [not_removed_iff, not_removed_iff, Convention.imports, List.contains_cons,
          List.contains_cons, List.contains_nil, Bool.or_false, ← Bool.not_or,
          ← Bool.and_or_distrib_left, Bool.or_comm]
      · simp only [Convention.toLegacy, found, free, added,
          unmarkLines_sheet preset named isBreak dotted methods (others rfl)]
        rw [← layout_eq_sheet, removed, Convention.dropUnused,
          show "Test".toList = Convention.otherName .legacy from rfl, unused, removed']
        rfl

end Rows

/-! ## The statements of the result -/

variable {style : TestStyle} {convention : Convention} {separator : Text}

theorem package_not_mem_importRows (name : Text) (imports : List Text) :
    Row.package name ∉ importRows imports := by
  rw [importRows]
  split <;> simp

theorem package_of_mem_preamble {target : ClassSurface} {name : Text}
    (member : Row.package name ∈ preamble convention target) : target.package = some name := by
  rcases List.mem_append.mp member with inPackage | inImports
  · cases package : target.package with
    | none =>
        rw [package] at inPackage
        cases inPackage
    | some other =>
        rw [package] at inPackage
        rcases List.mem_cons.mp inPackage with same | blank
        · rw [Row.package.inj same]
        · cases List.mem_singleton.mp blank
  · rcases List.mem_append.mp inImports with ofConvention | ofTarget
    · exact absurd ofConvention (package_not_mem_importRows name _)
    · exact absurd ofTarget (package_not_mem_importRows name _)

/-- The imports of a new source are the needed ones. -/
theorem mem_preamble_iff {target : ClassSurface} {line : Text} :
    (true, line) ∈ (preamble convention target).filterMap Row.entry? ↔
      line ∈ Header.neededImports (some target) convention := by
  refine ⟨fun member => ?_, entry_of_mem_neededImports⟩
  rw [entries_preamble] at member
  rcases List.mem_append.mp member with package | imported
  · rcases List.mem_map.mp package with ⟨name, -, same⟩
    cases same
  · rcases List.mem_map.mp imported with ⟨other, inside, same⟩
    rw [← (Prod.mk.inj same).2]
    rcases List.mem_append.mp inside with ofConvention | ofTarget
    · exact List.mem_append_right _ ofConvention
    · exact List.mem_append_left _ (List.mem_filter.mp ofTarget).1

theorem classParts_text_eq (plan : TestPlan) : (classParts convention plan).text =
    Header.classWords ++ (' ' :: plan.className ++ (extendsClause convention ++ [' '])) := by
  have words : "public class ".toList = Header.classWords ++ [' '] := by decide
  rw [classParts_text, classParts, words]
  simp only [List.append_assoc, List.cons_append, List.nil_append]

/-- The class of a source and what follows it. -/
def classText (style : TestStyle) (convention : Convention) (separator : Text) (plan : TestPlan) :
    Text :=
  (classParts convention plan).text ++ '\x7b' :: classBody style convention separator plan

theorem exists_classText_eq (style : TestStyle) (convention : Convention) (separator : Text)
    (plan : TestPlan) :
    ∃ rest, classText style convention separator plan = Header.classWords ++ rest := by
  rw [classText, classParts_text_eq, List.append_assoc]
  exact ⟨_, rfl⟩

section Layout

variable (isBreak : separator = ['\n'] ∨ separator = ['\r', '\n']) {rows : List Row}
  (dotted : ∀ row ∈ rows, row.IsDotted) {target : ClassSurface} (named : target.IsNamed)
include isBreak dotted

/-- The class of a source laid out in rows begins where its words are found first. -/
theorem cutBefore?_layout (plan : TestPlan) :
    Text.cutBefore? Header.classWords (layout style convention separator rows plan) =
      some (rowsText separator rows, classText style convention separator plan) := by
  rcases exists_classText_eq style convention separator plan with ⟨rest, same⟩
  have cut := (Header.isUpper_rowsText isBreak dotted).cutBefore?_append rest
  rw [← same] at cut
  exact cut

include named

theorem entries_layout_ofSurface :
    entries (header (layout style convention separator rows (ofSurface style target))) =
      rows.filterMap Row.entry? :=
  have inName : ∀ c ∈ (ofSurface style target).target.name, isNamePart c = true := named.name
  entries_layout isBreak dotted inName

/-- Missing imports go in front of the class. -/
theorem exists_cutBefore?_withImports : ∃ upper, Text.cutBefore? Header.classWords
    (Convention.withImports (some target) convention separator
      (layout style convention separator rows (ofSurface style target))) =
    some (upper, classText style convention separator (ofSurface style target)) := by
  have visible : isBlank 'p' = false := by decide
  have parts : (classParts convention (ofSurface style target)).text =
      'p' :: ("ublic class".toList ++
      (' ' :: (ofSurface style target).className ++ (extendsClause convention ++ [' ']))) :=
    classParts_text_eq (ofSurface style target)
  have inName : ∀ c ∈ (ofSurface style target).target.name, isNamePart c = true := named.name
  have noSemicolon : ';' ∉ (classParts convention (ofSurface style target)).text :=
    semicolon_not_mem_classParts inName
  rw [parts] at noSemicolon
  have whole : layout style convention separator rows (ofSurface style target) =
      rowsText separator rows ++
      ('p' :: ("ublic class".toList ++
        (' ' :: (ofSurface style target).className ++ (extendsClause convention ++ [' ']))) ++
        '\x7b' :: classBody style convention separator (ofSurface style target)) := by
    rw [layout, parts]
  rw [Convention.withImports, Header.missingImports_eq]
  rcases Header.exists_insertBlock_rowsText isBreak dotted visible noSemicolon whole
    (fun line member =>
    Header.isImportLine_of_mem_neededImports named.imports
      (List.mem_of_mem_filter member)) with ⟨upper, isUpper, inserted⟩
  rcases exists_classText_eq style convention separator (ofSurface style target) with ⟨rest, same⟩
  refine ⟨upper, ?_⟩
  rw [inserted, ← parts, ← classText, same]
  exact isUpper.cutBefore?_append rest

/-- Behind the insertion of the missing imports, the needed ones are there, and of the
others those that were there. -/
theorem mem_importsOf_withImports {line : Text} : line ∈ Header.importsOf
    (Convention.withImports (some target) convention separator
      (layout style convention separator rows (ofSurface style target))) ↔
    (true, line) ∈ rows.filterMap Row.entry? ∨
    line ∈ Header.neededImports (some target) convention := by
  have shown : entries (header (layout style convention separator rows (ofSurface style target))) =
      _ :=
    entries_layout_ofSurface isBreak dotted named
  have separator_ := Header.blank_of_isBreak isBreak
  rw [Convention.withImports, Header.missingImports_eq,
    Header.mem_importsOf_insertBlock separator_.1
    (fun line member =>
      Header.isImportLine_of_mem_neededImports named.imports (List.mem_of_mem_filter member))
    separator_.2, ← shown, ← Header.mem_importsOf_iff, List.mem_filter]
  refine ⟨Or.imp_right And.left, ?_⟩
  rintro (present | needed)
  · exact .inl present
  · by_cases present :
      Header.containsImport (layout style convention separator rows (ofSurface style target)) line =
        true
    · exact .inl ((Header.containsImport_iff_of_isDotted
        (Header.isImportLine_of_mem_neededImports named.imports needed) shown).mp present)
    · exact .inr ⟨needed, by simp [present]⟩

theorem packagesOf_withImports : Header.packagesOf
    (Convention.withImports (some target) convention separator
      (layout style convention separator rows (ofSurface style target))) =
    ((rows.filterMap Row.entry?).filter fun entry => !entry.1).map Prod.snd := by
  rw [Convention.withImports, Header.missingImports_eq,
    Header.packagesOf_insertBlock (Header.blank_of_isBreak isBreak).1
    (fun line member =>
      Header.isImportLine_of_mem_neededImports named.imports (List.mem_of_mem_filter member)),
    Header.packagesOf_eq, entries_layout_ofSurface isBreak dotted named]

end Layout

/-- The package statement of a preamble does not depend on the convention. -/
theorem filter_entries_preamble (target : ClassSurface) (convention : Convention) :
    ((preamble convention target).filterMap Row.entry?).filter (fun entry => !entry.1) =
      target.package.toList.map fun name => (false, Header.packageLine name) := by
  rw [entries_preamble, List.filter_append]
  have kept : (target.package.toList.map fun name => (false, Header.packageLine name)).filter
      (fun entry => !entry.1) =
      target.package.toList.map fun name => (false, Header.packageLine name) := by
    simp [List.filter_eq_self]
  have skipped : ((convention.imports ++ targetImports target convention).map (Prod.mk true)).filter
      (fun entry => !entry.1) = [] := by
    simp [List.filter_eq_nil_iff]
  rw [kept, skipped, List.append_nil]

end TestPlan

namespace TestSource

open TestPlan (layout ofSurface preamble)

section Unified

variable {style : TestStyle} (preset : style.IsPreset) {target : ClassSurface}
  (named : target.IsNamed) (package : target.HasDottedPackage)
  (methods : ∀ method ∈ target.methods, method.name ≠ [])
  (ends : target.name.getLast?.any Character.isWord = true)
  (avoids : ∀ w ∈ ["Test".toList, "TestCase".toList], target.Avoids w) {shown wanted : Convention}
  (other : shown ≠ wanted)
  (others : wanted = .legacy → ∀ test ∈ (ofSurface style target).tests,
    ¬ style.legacyPrefix <+: test.name)
include preset named package methods ends avoids other others

/-- A generated source in the other convention has the class that would have been
generated in it, the same package statement and the same imports. -/
theorem unify_newIn : ∃ result upper upper' lower,
    unify style target wanted (newIn style shown target) = .ok result ∧
      Text.cutBefore? "public class".toList result = some (upper, lower) ∧
      Text.cutBefore? "public class".toList (newIn style wanted target) = some (upper', lower) ∧
      Header.packagesOf result = Header.packagesOf (newIn style wanted target) ∧
      ∀ line, line ∈ Header.importsOf result ↔
        line ∈ Header.importsOf (newIn style wanted target) := by
  have isBreak := preset.lineSeparator
  have dotted := TestPlan.isDotted_of_mem_preamble named.imports package
  have avoids' : target.Avoids wanted.otherName := by
    cases wanted
    · exact avoids _ List.mem_cons_self
    · exact avoids _ (List.mem_cons_of_mem _ List.mem_cons_self)
  have shape : ∀ convention, newIn style convention target =
      layout style convention style.lineSeparator (preamble convention target)
        (ofSurface style target) := fun convention =>
    TestPlan.render_eq style convention (ofSurface style target)
  rcases TestPlan.exists_convert_layout preset named isBreak (dotted shown) methods other
    (fun line member => TestPlan.mem_preamble_iff.mpr (List.mem_append_right _ member)) others
      ends avoids'
    (fun name member => avoids'.package name (TestPlan.package_of_mem_preamble member)) with
    ⟨rows, sub, entries_, converted⟩
  have dotted' : ∀ row ∈ rows, row.IsDotted :=
    fun row member => dotted shown row (sub.subset member)
  have withClass : ∃ upper,
      Text.cutBefore? Header.classWords (Convention.withImports (some target) wanted
      style.lineSeparator (layout style wanted style.lineSeparator rows (ofSurface style target))) =
        some (upper, _) :=
    TestPlan.exists_cutBefore?_withImports isBreak dotted' named
  rcases withClass with ⟨upper, cut⟩
  have visible : Text.allBlank (newIn style shown target) = false := by
    refine Bool.eq_false_iff.mpr fun blank => ?_
    have brace : '\x7b' ∈ newIn style shown target := by
      rw [shape, layout]
      exact List.mem_append_right _ (List.mem_append_right _ List.mem_cons_self)
    exact absurd (List.all_eq_true.mp blank '\x7b' brace) (by decide)
  refine ⟨_, upper, rowsText style.lineSeparator (preamble wanted target), _, ?_, cut, ?_, ?_,
    fun line => ?_⟩
  · rw [unify, visible, if_neg Bool.false_ne_true, shape]
    exact converted
  · rw [shape]
    exact TestPlan.cutBefore?_layout isBreak (dotted wanted) (ofSurface style target)
  · rw [TestPlan.packagesOf_withImports isBreak dotted' named, shape, Header.packagesOf_eq,
      TestPlan.entries_layout_ofSurface isBreak (dotted wanted) named,
      TestPlan.filter_entries_preamble, entries_, List.filter_filter,
      ← TestPlan.filter_entries_preamble target shown]
    exact congrArg _ (List.filter_congr fun entry _ => by cases entry.1 <;> simp)
  · rw [TestPlan.mem_importsOf_withImports isBreak dotted' named, shape, Header.mem_importsOf_iff,
      TestPlan.entries_layout_ofSurface isBreak (dotted wanted) named,
      TestPlan.mem_preamble_iff, entries_, List.mem_filter]
    refine ⟨?_, .inr⟩
    rintro (⟨member, kept⟩ | needed)
    · rcases List.mem_append.mp (TestPlan.mem_preamble_iff.mp member) with ofTarget | ofConvention
      · exact List.mem_append_left _ ofTarget
      · simp [ofConvention] at kept
    · exact needed

end Unified

/-- An indentation by other blanks than spaces and tabs hides the marks, a method without
a name is not declared, and a stored token that is an imported name keeps its import. -/
theorem unify_newIn_beside_preset :
    let classOf := fun text : Text => (Text.cutBefore? "public class".toList text).map Prod.snd
    let differs := fun (style : TestStyle) (target : ClassSurface) =>
      ((unify style target .legacy (newIn style .modern target)).toOption.any fun result =>
        classOf result != classOf (newIn style .legacy target)) = true
    let spaced := { TestStyle.modern with indent := ['\u00a0'] }
    let plain := ClassSurface.named "S".toList
    let nameless := { plain with methods := [TestPlan.overload [] []] }
    let stored := { plain with
      methods := [TestPlan.overload "f".toList
        [{ TypeTree.named "int".toList with token := "Test".toList }]] }
    spaced.IsUsual ∧ plain.IsNamed ∧ (∀ w ∈ ["Test".toList, "TestCase".toList], plain.Avoids w) ∧
      (∀ test ∈ (ofSurface spaced plain).tests, ¬ spaced.legacyPrefix <+: test.name) ∧
      differs spaced plain ∧ differs TestStyle.modern nameless ∧
      (unify TestStyle.modern stored .legacy (newIn TestStyle.modern .modern stored)).toOption.any
        (fun result =>
        Header.importsOf result != Header.importsOf (newIn TestStyle.modern .legacy stored)) =
          true := by
  intro classOf differs spaced plain nameless stored
  have usual := TestStyle.isUsual_modern
  refine ⟨⟨usual.lineSeparator, by decide, usual.legacyPrefix, usual.parametersMark,
    usual.tokenMark, usual.todoComment⟩,
    ClassSurface.isNamed_named (by decide), ?_, ?_, by decide +kernel, by decide +kernel,
    by decide +kernel⟩
  · intro w member
    have name : ∀ w ∈ ["Test".toList, "TestCase".toList],
        Text.mentions plain.name w = false := by decide
    exact ⟨name w member, fun _ package => (by cases package), fun _ method => (by cases method)⟩
  · decide +kernel

/-- A class with a package, an import and a parameter, in lines that end as on another
system. -/
theorem unify_newIn_account :
    let style := { TestStyle.modern with lineSeparator := ['\r', '\n'] }
    let target := { ClassSurface.named "Account".toList with
      package := some "a.bank".toList
      imports := ["java.util.*".toList]
      methods := [TestPlan.overload "at".toList [TypeTree.named "java.util.Date".toList]] }
    style.IsPreset ∧ target.IsNamed ∧ target.HasDottedPackage ∧
    (∀ method ∈ target.methods, method.name ≠ []) ∧
      target.name.getLast?.any Character.isWord = true ∧
      (∀ w ∈ ["Test".toList, "TestCase".toList], target.Avoids w) ∧ Convention.modern ≠ .legacy ∧
      (Convention.legacy = .legacy → ∀ test ∈ (ofSurface style target).tests,
        ¬ style.legacyPrefix <+: test.name) ∧
      ∃ result upper upper' lower,
        unify style target .legacy (newIn style .modern target) = .ok result ∧
        Text.cutBefore? "public class".toList result = some (upper, lower) ∧
        Text.cutBefore? "public class".toList (newIn style .legacy target) = some (upper', lower) ∧
        Header.packagesOf result = Header.packagesOf (newIn style .legacy target) ∧
        ∀ line, line ∈ Header.importsOf result ↔
          line ∈ Header.importsOf (newIn style .legacy target) := by
  intro style target
  have preset : style.IsPreset := ⟨.inr rfl, by decide, rfl, rfl, rfl, .inr rfl⟩
  have named : target.IsNamed := {
    name := by decide
    imports := by
      intro imported member
      rcases List.mem_singleton.mp member with rfl
      exact ⟨⟨false, "java.util".toList, true⟩, by decide, by decide⟩
    constructors := by simp [target, ClassSurface.named]
    methods := by
      intro method member
      rcases List.mem_singleton.mp member with rfl
      exact ⟨by decide, by decide, by decide, by simp [TestPlan.overload, Method.withParameters,
        Method.named]⟩ }
  have package : target.HasDottedPackage := by
    intro name same
    rcases Option.some.inj same with rfl
    decide
  have methods : ∀ method ∈ target.methods, method.name ≠ [] := by decide
  have avoids : ∀ w ∈ ["Test".toList, "TestCase".toList], target.Avoids w := by
    refine List.forall_mem_cons.mpr ⟨?_, List.forall_mem_cons.mpr ⟨?_, List.forall_mem_nil _⟩⟩
    all_goals
      refine ⟨by decide, fun name same => ?_, fun method member => ?_⟩
      · rcases Option.some.inj same with rfl
        decide
      · rcases List.mem_singleton.mp member with rfl
        exact ⟨by decide, by decide, by decide, fun type returned => (by cases returned)⟩
  have others : Convention.legacy = .legacy →
      ∀ test ∈ (ofSurface style target).tests, ¬ style.legacyPrefix <+: test.name := by
        decide +kernel
  exact ⟨preset, named, package, methods, by decide, avoids, by decide, others,
    unify_newIn preset named package methods (by decide) avoids (by decide) others⟩

end TestSource

end Testwright
