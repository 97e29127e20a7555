import Testwright.Proofs.Declaration.ClassOpening
import Testwright.Proofs.Header.ImportReading
import Testwright.Proofs.Testing.ClassLines
import Testwright.Proofs.Testing.Naming
import Testwright.Proofs.Testing.NewSource

namespace Testwright

/-!
# New sources, read

What a new test source is read as (`TestPlan.surface`): the test class in the package of
its target, with the imports of the convention and those of the target behind them, no
constructors, and one method for each test.  The source is normalized to its statements,
the header of the class and the lines of the tests (`TestPlan.lined_render`), and
each reader finds its part there and nothing in the others.
-/

open Character (isBlank isDottedPart isNamePart isWord)
open Header (IsImportLine Row entries rowsText)
open HeaderStatement (keyword)
open Lexeme (IsKeyword IsOpened)
open Matcher (Silent)
open Text (BecomesLine Blank Lined NormalizesTo Terminated Visible areas)

theorem Text.length_le_utf8Size (t : Text) : t.length ≤ Text.utf8Size t := by
  induction t with
  | nil => exact Nat.le_refl 0
  | cons c t ih =>
      have positive := Char.utf8Size_pos c
      rw [List.length_cons, Text.utf8Size, List.foldr_cons]
      rw [Text.utf8Size] at ih
      omega

/-- The names that a test source of the convention imports. -/
def Convention.importedNames : Convention → List Text
  | .modern => ["static org.junit.Assert.*".toList, "org.junit.Test".toList]
  | .legacy => ["junit.framework.TestCase".toList]

namespace TestPlan

/-- The names that a new test source imports. -/
def importedNames (convention : Convention) (target : ClassSurface) : List Text :=
  convention.importedNames ++ target.imports.filter fun imported =>
    !convention.importedNames.contains imported

/-- The surface of a new test source. -/
def surface (style : TestStyle) (convention : Convention) (plan : TestPlan) : ClassSurface where
  name := plan.className
  package := plan.target.package
  imports := importedNames convention plan.target
  constructors := []
  methods := plan.tests.map fun test => testMethod (methodName style convention test)

theorem importStatement_injective : Function.Injective importStatement := by
  intro s t same
  exact List.append_cancel_left
    (List.append_cancel_right (same : ("import ".toList ++ s) ++ [';'] = _ ++ [';']))

/-- The import lines of a new source name the imports. -/
theorem map_importStatement (convention : Convention) (target : ClassSurface) :
    (importedNames convention target).map importStatement =
      convention.imports ++ targetImports target convention := by
  have ofConvention : convention.importedNames.map importStatement = convention.imports := by
    cases convention <;> rfl
  rw [importedNames, List.map_append, ofConvention, targetImports, List.filter_map]
  refine congrArg (fun kept => _ ++ List.map importStatement kept)
    (List.filter_congr fun imported _ => ?_)
  rw [Function.comp_apply, ← ofConvention, Bool.eq_iff_iff]
  simp [importStatement_injective.eq_iff]

/-! ## Header statements as lines -/

/-- Words with a space behind each, and something visible with a semicolon behind it. -/
def IsHeaderLine (words : List Text) (line : Text) : Prop :=
  ∃ (lead : List Text) (seen : Text),
    line = (lead.flatMap fun word => word ++ [' ']) ++ (seen ++ [';']) ∧
    (∀ word ∈ lead, word ∈ words) ∧
    Visible seen

theorem IsHeaderLine.mono {words words' : List Text} (inside : ∀ word ∈ words, word ∈ words')
    {line : Text} (h : IsHeaderLine words line) : IsHeaderLine words' line := by
  rcases h with ⟨lead, seen, shape, each, visible⟩
  exact ⟨lead, seen, shape, fun word member => inside word (each word member), visible⟩

theorem IsHeaderLine.silent {α : Type} {m : Matcher α} {keys words : List Text}
    {opens : Char → Bool} (opened : IsOpened m keys opens)
    (others : ∀ word ∈ words, (∀ c ∈ word, isWord c = true) ∧ word ∉ keys) {line : Text}
    (h : IsHeaderLine words line) (behind rest : Text) : Silent m behind line rest := by
  rcases h with ⟨lead, seen, rfl, each, visible⟩
  induction lead generalizing behind with
  | nil => exact Lexeme.silent_visible opened visible (by decide) (by decide) behind rest
  | cons word lead ih =>
      have word' := others word (each word List.mem_cons_self)
      have first := Lexeme.silent_word opened word'.1 word'.2 (c := ' ') (by decide) behind
      rw [List.flatMap_cons, List.append_assoc]
      exact Matcher.silent_append.mpr ⟨first _, ih _ fun other member =>
        each other (List.mem_cons_of_mem word member)⟩

theorem isHeaderLine_package {name : Text} (dotted : Header.isDottedPath name = true) :
    IsHeaderLine [keyword false] (Header.packageLine name) := by
  refine ⟨[keyword false], name, ?_, fun _ member => member, Header.visible_of_isDottedPath dotted⟩
  rw [Header.packageLine_eq]
  generalize keyword false = word
  simp

theorem isHeaderLine_import {line : Text} (h : IsImportLine line) :
    IsHeaderLine [keyword true, "static".toList] line := by
  rcases h with ⟨form, dotted, rfl⟩
  have static : "static ".toList = "static".toList ++ [' '] := by decide
  have visible := ImportForm.visible_target dotted
  rw [form.line_eq, ImportForm.declared, static]
  generalize keyword true = word
  generalize "static".toList = word'
  cases form.isStatic with
  | false => exact ⟨[word], form.target, by simp [ImportForm.target], by simp, visible⟩
  | true => exact ⟨[word, word'], form.target, by simp [ImportForm.target], by simp, visible⟩

theorem IsHeaderLine.becomesLine {words : List Text} (word : ∀ w ∈ words, ∀ c ∈ w, isWord c = true)
    {line : Text} (h : IsHeaderLine words line) (isHeader : Header.IsHeaderText line) :
    BecomesLine line line := by
  have quiet := isHeader.quiet
  have noSign : '@' ∉ line := isHeader.noSign
  rcases h with ⟨lead, seen, rfl, each, visible⟩
  have shown : ∀ c ∈ (lead.flatMap fun word => word ++ [' ']) ++ (seen ++ [';']),
      isBlank c = true → c = ' ' := by
    intro c member blank
    simp only [List.mem_append, List.mem_flatMap, List.mem_singleton] at member
    rcases member with ⟨w, isLead, inWord | space⟩ | inSeen | rfl
    · exact absurd blank (by
        simp [Character.not_isBlank_of_isNamePart
          (Character.isNamePart_of_isWord (word w (each w isLead) c inWord))])
    · exact space
    · exact absurd blank (by simp [visible c inSeen])
    · exact absurd blank (by decide)
  have other : ∀ c ∈ (lead.flatMap fun word => word ++ [' ']) ++ (seen ++ [';']), ∀ d,
      isBlank d = true → d ≠ ' ' →
      c ≠ d := by
    rintro c member d blank noSpace rfl
    exact noSpace (shown c member blank)
  refine .of_quiet (by simp) (fun c member => ⟨quiet c member, fun same => noSign (same ▸ member),
    other c member '\t' (by decide) (by decide)⟩)
      (fun c member => ⟨other c member '\n' (by decide) (by decide),
      other c member '\r' (by decide) (by decide)⟩) fun c last => ?_
  rw [← List.append_assoc, List.getLast?_concat] at last
  rw [← Option.some.inj last]
  decide

/-- The rows of a header are normalized to their statements. -/
theorem normalizesTo_rowsText {separator : Text}
    (isBreak : separator = ['\n'] ∨ separator = ['\r', '\n']) {rows : List Row}
    (dotted : ∀ row ∈ rows, row.IsDotted) :
    NormalizesTo (rowsText separator rows) ((rows.filterMap Row.entry?).map Prod.snd) := by
  induction rows with
  | nil => exact Text.normalizesTo_nil
  | cons row rows ih =>
      have rest := ih fun other member => dotted other (List.mem_cons_of_mem row member)
      have here := dotted row List.mem_cons_self
      have first : NormalizesTo (row.text ++ separator) (row.entry?.toList.map Prod.snd) := by
        have line : ∀ {words : List Text}, (∀ w ∈ words, ∀ c ∈ w, isWord c = true) →
            IsHeaderLine words row.text →
            NormalizesTo ([] ++ row.text ++ separator) [row.text] := fun word isLine =>
          (isLine.becomesLine word here.isHeaderText).normalizesTo isBreak Text.blank_nil
        cases row with
        | blank =>
            exact (blank_separator isBreak).normalizesTo
              (by simpa using Text.getLast?_append_separator isBreak [])
        | package name => exact line (by decide) (isHeaderLine_package here)
        | imported statement => exact line (by decide) (isHeaderLine_import here)
      rw [Header.rowsText_cons]
      have whole := first.append rest
      cases found : row.entry? <;> simpa [found] using whole

theorem classLine_eq (convention : Convention) (plan : TestPlan) : classLine convention plan =
    "public class ".toList ++ plan.className ++ (extendsClause convention ++ " \x7b".toList) := by
  have brace : " \x7b".toList = [' '] ++ ['\x7b'] := rfl
  rw [classLine, classParts_text, brace, List.append_assoc, List.append_assoc]
  rfl

theorem becomesLine_classLine {convention : Convention} {plan : TestPlan}
    (inName : ∀ c ∈ plan.target.name, isNamePart c = true) :
    BecomesLine (classLine convention plan) (classLine convention plan) := by
  have named : ∀ c ∈ plan.className, isNamePart c = true :=
    List.forall_mem_append.mpr ⟨inName, by decide⟩
  rw [classLine_eq]
  cases convention
  · exact becomesLine_around named (by decide) (by decide)
  · exact becomesLine_around named (by decide) (by decide)

/-! ## Normalized sources -/

/-- The package and import statements of a new source, each with whether it is an import. -/
def statements (convention : Convention) (target : ClassSurface) : List (Bool × Text) :=
  target.package.toList.map (fun name => (false, Header.packageLine name)) ++
    (convention.imports ++ targetImports target convention).map (Prod.mk true)

/-- A new test source, normalized: its statements, the header of its class, and lines that
carry the tests of these names. -/
def IsNormalized (convention : Convention) (plan : TestPlan) (names : List Text) (t : Text) :
    Prop :=
  ∃ body, Carries body names ∧
    Lined ((statements convention plan.target).map Prod.snd ++
      (classLine convention plan :: (body ++ [['}']]))) t

section Statements

variable {target : ClassSurface} (imports : Header.HasDottedImports target)
  (package : target.HasDottedPackage) {convention : Convention}
include imports package

/-- A statement of a new source is the row of a dotted package or an import line. -/
theorem row_of_mem_statements {entry : Bool × Text}
    (member : entry ∈ statements convention target) :
    (∃ name, Header.isDottedPath name = true ∧ entry = (false, Header.packageLine name)) ∨
      ∃ line, IsImportLine line ∧ entry = (true, line) := by
  rcases List.mem_append.mp member with isPackage | isImport
  · rcases List.mem_map.mp isPackage with ⟨name, isName, rfl⟩
    exact Or.inl ⟨name, package name (Option.mem_toList.mp isName), rfl⟩
  · rcases List.mem_map.mp isImport with ⟨line, inside, rfl⟩
    refine Or.inr ⟨line, ?_, rfl⟩
    rcases List.mem_append.mp inside with ofConvention | ofTarget
    · exact Header.isImportLine_of_mem_imports ofConvention
    · exact isImportLine_of_mem_targetImports imports ofTarget

theorem isHeaderLine_of_mem_statements :
    ∀ line ∈ (statements convention target).map Prod.snd,
      IsHeaderLine [keyword false, keyword true, "static".toList] line ∧
      Header.IsHeaderText line := by
  intro line member
  rcases List.mem_map.mp member with ⟨entry, isEntry, rfl⟩
  rcases row_of_mem_statements imports package isEntry with
    ⟨name, dotted, rfl⟩ | ⟨line, isImport, rfl⟩
  · have row : (Row.package name).IsDotted := dotted
    exact ⟨(isHeaderLine_package dotted).mono (by decide), row.isHeaderText⟩
  · have row : (Row.imported line).IsDotted := isImport
    exact ⟨(isHeaderLine_import isImport).mono (by decide), row.isHeaderText⟩

end Statements

/-- The lines in front of the tests end with marks and hold no parentheses. -/
theorem terminated_of_mem_header {convention : Convention} {plan : TestPlan}
    (named : plan.target.IsNamed) (package : plan.target.HasDottedPackage) :
    ∀ line ∈ (statements convention plan.target).map Prod.snd ++ [classLine convention plan],
      Terminated line ∧ '(' ∉ line := by
  refine List.forall_mem_append.mpr ⟨fun line member => ?_, List.forall_mem_singleton.mpr
    ⟨Or.inr ⟨_, '\x7b', rfl, rfl⟩, fun inside => ?_⟩⟩
  · rcases isHeaderLine_of_mem_statements named.imports package line member with
      ⟨⟨lead, seen, shape, -, -⟩, text⟩
    exact ⟨Or.inr ⟨_, ';', by rw [shape, ← List.append_assoc], rfl⟩,
      fun inside => text.ne inside (by decide) rfl⟩
  · rcases List.mem_append.mp inside with inHeader | brace
    · exact (isHeaderText_classParts named.name).ne inHeader (by decide) rfl
    · exact absurd brace (by decide)

/-- Normalization leaves a normalized source normalized. -/
theorem IsNormalized.normalize {convention : Convention} {plan : TestPlan}
    (named : plan.target.IsNamed) (package : plan.target.HasDottedPackage) {names : List Text}
    {t : Text} (h : IsNormalized convention plan names t) :
    IsNormalized convention plan names (Text.normalize t) := by
  rcases h with ⟨body, carries, lined⟩
  refine ⟨body, carries, (lined.normalizesTo ?_).lined⟩
  refine List.forall_mem_append.mpr ⟨fun line member => ?_, List.forall_mem_cons.mpr
    ⟨becomesLine_classLine named.name, List.forall_mem_append.mpr
      ⟨carries.becomesLine, List.forall_mem_singleton.mpr becomesLine_brace⟩⟩⟩
  have isHeader := isHeaderLine_of_mem_statements named.imports package line member
  exact isHeader.1.becomesLine (by decide) isHeader.2

/-- A rendered plan is normalized to its statements, the header of its class, the lines of
its tests and a closing brace. -/
theorem lined_render {style : TestStyle} (usual : style.IsUsual) {plan : TestPlan}
    (named : plan.target.IsNamed) (package : plan.target.HasDottedPackage) {convention : Convention}
    {body : List Text}
    (tests : NormalizesTo (renderTests style plan.target convention style.lineSeparator plan.tests)
      body) :
    Lined ((statements convention plan.target).map Prod.snd ++
      (classLine convention plan :: (body ++ [['}']])))
      (Text.normalize (render style convention plan)) := by
  have isBreak := usual.lineSeparator
  have dotted := isDotted_of_mem_preamble named.imports package convention
  have empty : NormalizesTo style.lineSeparator [] :=
    (blank_separator isBreak).normalizesTo
      (by simpa using Text.getLast?_append_separator isBreak [])
  have line : BecomesLine (classLine convention plan) _ := becomesLine_classLine named.name
  have header := line.normalizesTo isBreak Text.blank_nil
  have close := becomesLine_brace.normalizesTo isBreak Text.blank_nil
  have whole :=
    (normalizesTo_rowsText isBreak dotted).append
      ((header.append empty).append (tests.append close))
  apply NormalizesTo.lined
  rw [entries_preamble] at whole
  rw [render_eq]
  simpa [classLine, classBody, statements] using whole

/-- A new source is normalized to its statements, the header of its class and its tests. -/
theorem isNormalized_newIn {style : TestStyle} (usual : style.IsUsual) {target : ClassSurface}
    (named : target.IsNamed) (package : target.HasDottedPackage) {convention : Convention}
    (keywords : ∀ test ∈ (ofSurface style target).tests,
      IsKeyword (methodName style convention test)) :
    IsNormalized convention (ofSurface style target)
      ((ofSurface style target).tests.map (methodName style convention))
      (Text.normalize (TestSource.newIn style convention target)) := by
  rcases exists_carries_renderTests usual named usual.lineSeparator convention
    (subject_isNamed named) keywords
    with ⟨body, tests, carries⟩
  have named' : (ofSurface style target).target.IsNamed := named
  exact ⟨body, carries, lined_render usual named' package tests⟩

/-! ## The readers -/

/-- What is silent in every line is silent in the text. -/
theorem silent_of_lined {α : Type} {m : Matcher α} {keys : List Text} {opens : Char → Bool}
    (opened : IsOpened m keys opens) {lines : List Text} {t : Text}
    (each : ∀ line ∈ lines, ∀ behind rest, Silent m behind line rest) (h : Lined lines t)
    (behind rest : Text) :
    Silent m behind t rest := by
  have gaps : ∀ {gap : Text}, Blank gap → ∀ behind rest, Silent m behind gap rest := fun blank =>
    Lexeme.silent_of_gap opened blank
  have newline : Blank ['\n'] := by decide
  induction h generalizing behind with
  | nil => exact Matcher.silent_nil m behind rest
  | @gap gap lines t blank later ih =>
      have whole :=
        Matcher.silent_append.mpr ⟨gaps (blank.append newline) behind (t ++ rest), ih each _⟩
      simpa using whole
  | @line gap line lines t blank later ih =>
      have here := each line List.mem_cons_self
      have later := ih fun other member => each other (List.mem_cons_of_mem line member)
      have whole := Matcher.silent_append.mpr ⟨gaps blank behind _, Matcher.silent_append.mpr
        ⟨here (gap.reverse ++ behind) _,
          Matcher.silent_append.mpr ⟨gaps newline _ (t ++ rest), later _⟩⟩⟩
      simpa using whole

/-- The entries of a text whose first lines are statements begin with these. -/
theorem exists_entries {entries' : List (Bool × Text)} {lines : List Text} {t : Text}
    (each : ∀ entry ∈ entries', ∀ u, entries (entry.2 ++ u) = entry :: entries u)
    (h : Lined (entries'.map Prod.snd ++ lines) t) :
    ∃ rest, Lined lines rest ∧ entries t = entries' ++ entries rest := by
  induction entries' generalizing t with
  | nil => exact ⟨t, h, rfl⟩
  | cons entry others ih =>
      rcases Lined.exists_cons h with ⟨gap, behind, rfl, blank, later⟩
      rcases ih (fun other member => each other (List.mem_cons_of_mem entry member)) later with
        ⟨rest, lined, same⟩
      have newline : entries ('\n' :: behind) = entries behind :=
        Header.entries_gap (show Blank ['\n'] by decide) behind
      refine ⟨rest, lined, ?_⟩
      rw [Header.entries_gap blank, each entry List.mem_cons_self, newline, same, List.cons_append]

section Readers

variable {convention : Convention} {plan : TestPlan} (named : plan.target.IsNamed)
  (package : plan.target.HasDottedPackage) {names : List Text} {t : Text}

include named in
/-- Neither the header of the class nor its lines hold a package or import statement. -/
theorem silent_classLines {α : Type} {m : Matcher α} {key : Text} {opens passes : Char → Bool}
    (statement : Lexeme.IsStatement m key opens passes) (assign : passes '=' = false)
    (absent : ∀ value ∈ presets, Text.mentions (' ' :: value) key = false) {body : List Text}
    (carries : Carries body names) : ∀ line ∈ classLine convention plan :: (body ++ [['}']]),
      ∀ behind rest, Silent m behind line rest := by
  refine List.forall_mem_cons.mpr ⟨fun behind rest => ?_, List.forall_mem_append.mpr
    ⟨carries.silent statement assign absent, List.forall_mem_singleton.mpr fun behind rest => ?_⟩⟩
  · exact Lexeme.silent_through_mark statement (semicolon_not_mem_classParts named.name)
      (statement.marks '\x7b' (by decide)).1 (by decide) (by decide) behind rest
  · exact Lexeme.silent_of_not_word statement.opened (by decide) behind rest

include named package

/-- The name of the test class is read. -/
theorem IsNormalized.find?_className (h : IsNormalized convention plan names t) :
    (Matcher.className.find? t).map Stretch.text = some plan.className := by
  rcases h with ⟨body, -, lined⟩
  rcases lined.exists_append with ⟨a, b, rfl, inStatements, inClass⟩
  rcases inClass.exists_cons with ⟨gap, rest, rfl, blank, -⟩
  have opened := Lexeme.isOpened_className
  let front := a ++ gap ++ ("public".toList ++ [' '])
  let back := extendsClause convention ++ [' ', '\x7b'] ++ '\n' :: rest
  have whole : a ++ (gap ++ (classLine convention plan ++ '\n' :: rest)) =
      front ++ ("class".toList ++ ([' '] ++ (plan.className ++ back))) := by
    have word : "public class ".toList = "public".toList ++ [' '] ++ "class".toList ++ [' '] := by
      decide
    have brace : " \x7b".toList = [' ', '\x7b'] := by decide
    rw [classLine_eq, word, brace]
    simp only [front, back, List.append_assoc]
  have silent : ∀ u, Silent Matcher.className [] front u := fun u =>
    Matcher.silent_append.mpr ⟨Matcher.silent_append.mpr
      ⟨silent_of_lined opened (fun line member =>
        (isHeaderLine_of_mem_statements named.imports package line
        member).1.silent opened (by decide)) inStatements _ _,
        Lexeme.silent_of_gap opened blank _ _⟩,
      Lexeme.silent_word opened (by decide) (by decide) (by decide) _ _⟩
  have stops : Matcher.Stops isNamePart back := by
    cases convention <;> exact (by decide : isNamePart ' ' = false)
  have edge : ClassForm.AtEdge (front.reverse ++ []) := by
    intro c head
    have first : (front.reverse ++ []).head? = some ' ' := by simp [front]
    rw [first] at head
    rw [← Option.some.inj head]
    decide
  have space : Blank [' '] := by decide
  have nonempty : plan.className ≠ [] := by simp [className]
  have inName : ∀ c ∈ plan.className, isNamePart c = true :=
    List.forall_mem_append.mpr ⟨named.name, by decide⟩
  have isWord : "class".toList ∈ Matcher.classWords := by decide
  rcases ClassForm.reads_className isWord space (by decide) nonempty inName stops edge
    with ⟨found, later, reads, text⟩
  rw [whole, Matcher.find?, Matcher.findFrom_append (silent _), Matcher.findFrom_of_reads reads,
    Option.map_some, text]

/-- The package of the target is read. -/
theorem IsNormalized.find?_packageName (h : IsNormalized convention plan names t) :
    (Matcher.packageName.find? t).map Stretch.text = plan.target.package := by
  rcases h with ⟨body, carries, lined⟩
  have opened := Lexeme.isStatement_packageName.opened
  cases found : plan.target.package with
  | none =>
      have absent : ∀ line ∈ classLine convention plan :: (body ++ [['}']]), ∀ behind rest,
          Silent Matcher.packageName behind line rest :=
        silent_classLines named Lexeme.isStatement_packageName (by decide) (by decide) carries
      have imports : ∀ line ∈ (statements convention plan.target).map Prod.snd, ∀ behind rest,
          Silent Matcher.packageName behind line rest := by
        intro line member
        rcases List.mem_map.mp member with ⟨entry, isEntry, rfl⟩
        rcases row_of_mem_statements named.imports package isEntry with
          ⟨name, -, rfl⟩ | ⟨line, isImport, rfl⟩
        · simp [statements, found] at isEntry
        · exact (isHeaderLine_import isImport).silent opened (by decide)
      have silent :=
        silent_of_lined opened (List.forall_mem_append.mpr ⟨imports, absent⟩) lined [] []
      rw [Matcher.find?, Matcher.findFrom_eq_none silent (Lexeme.nil_of_opened_at_end opened _)]
      rfl
  | some name =>
      have dotted := package name found
      have first : (statements convention plan.target).map Prod.snd =
          Header.packageLine name ::
            (convention.imports ++ targetImports plan.target convention) := by
        have second : Prod.snd ∘ Prod.mk true = (id : Text → Text) := rfl
        simp [statements, found, second]
      rw [first, List.cons_append] at lined
      rcases lined.exists_cons with ⟨gap, rest, rfl, blank, -⟩
      have space : Blank [' '] := by decide
      rcases Lexeme.reads_packageName_append (Header.isDottedPath_ne_nil dotted)
        (Header.isDottedPart_of_isDottedPath dotted)
        space (by decide) Text.blank_nil (ClassForm.atEdge_nil.append_blank blank)
          ('\n' :: rest) with ⟨value, reads, text⟩
      have whole : gap ++ (Header.packageLine name ++ '\n' :: rest) =
          gap ++ ("package".toList ++ ([' '] ++ (name ++ ([] ++ ';' :: '\n' :: rest)))) := by
        have word : keyword false = "package".toList := rfl
        rw [Header.packageLine_eq, word]
        simp only [List.append_assoc, List.cons_append, List.nil_append]
      rw [whole, Matcher.find?, Matcher.findFrom_append (Lexeme.silent_of_gap opened blank _ _),
        Matcher.findFrom_of_reads reads, Option.map_some, text]

/-- The imports are read in order. -/
theorem IsNormalized.importsOf_eq (h : IsNormalized convention plan names t) :
    ClassSurface.importsOf t = importedNames convention plan.target := by
  rcases h with ⟨body, carries, lined⟩
  have each : ∀ entry ∈ statements convention plan.target, ∀ u,
      entries (entry.2 ++ u) = entry :: entries u := by
    intro entry member u
    rcases row_of_mem_statements named.imports package member with
      ⟨name, dotted, rfl⟩ | ⟨line, isImport, rfl⟩
    · exact Header.entries_packageLine dotted u
    · exact isImport.entries_append u
  rcases exists_entries each lined with ⟨rest, lined', same⟩
  have others : ClassSurface.importsOf rest = [] := by
    have silent := silent_of_lined Lexeme.isStatement_importPath.opened
      (silent_classLines named Lexeme.isStatement_importPath (by decide) (by decide) carries)
        lined' [] []
    rw [ClassSurface.importsOf, Matcher.findAll, Matcher.findAllFrom_eq_nil silent]
    rfl
  rw [Header.importsOf_eq] at others
  have packages :
      (plan.target.package.toList.map fun name => (false, Header.packageLine name)).filterMap
      Header.declared? = [] := by
    cases plan.target.package <;> rfl
  have imported : ∀ name ∈ importedNames convention plan.target,
      Header.declared? (true, importStatement name) = some name := by
    intro name member
    have isImport : IsImportLine (importStatement name) := by
      have inside : importStatement name ∈
          convention.imports ++ targetImports plan.target convention := by
        rw [← map_importStatement]
        exact List.mem_map_of_mem member
      rcases List.mem_append.mp inside with ofConvention | ofTarget
      · exact Header.isImportLine_of_mem_imports ofConvention
      · exact isImportLine_of_mem_targetImports named.imports ofTarget
    rcases isImport with ⟨form, dotted, line⟩
    have same : name = form.declared := importStatement_injective line
    rw [line, Header.declared?_line dotted, same]
  rw [Header.importsOf_eq, same, List.filterMap_append, others, statements, List.filterMap_append,
    packages, ← map_importStatement, List.map_map, List.filterMap_map, List.append_nil,
    List.nil_append]
  exact (List.filterMap_congr imported).trans List.filterMap_some

/-- The areas are those of the lines that carry the tests. -/
theorem IsNormalized.exists_areas (h : IsNormalized convention plan names t) :
    ∃ body, Carries body names ∧ areas t = body.flatMap areas := by
  rcases h with ⟨body, carries, lined⟩
  let header := (statements convention plan.target).map Prod.snd ++ [classLine convention plan]
  have front : ∀ line ∈ header, Terminated line ∧ '(' ∉ line :=
    terminated_of_mem_header named package
  have brace : Terminated ['}'] := Or.inr ⟨[], '}', rfl, rfl⟩
  have lined' : Lined (header ++ (body ++ [['}']])) t := by simpa [header] using lined
  have ended :=
    lined'.areas_eq (List.forall_mem_append.mpr ⟨fun line member => (front line member).1,
    List.forall_mem_append.mpr ⟨carries.terminated, List.forall_mem_singleton.mpr brace⟩⟩)
  have none : header.flatMap areas = [] :=
    List.flatMap_eq_nil_iff.mpr fun line member =>
      Text.areas_eq_nil_of_not_mem (front line member).2
  have last : areas ['}'] = [] := by decide
  refine ⟨body, carries, ?_⟩
  rw [ended, List.flatMap_append, none, List.flatMap_append, List.flatMap_singleton, last,
    List.append_nil, List.nil_append]

section Members

variable (keywords : ∀ name ∈ names, IsKeyword name)
  (others : ∀ name ∈ names, name ≠ plan.className)
include keywords others

omit named package in
theorem isConstructorArea_heading {name : Text}
    (inName : ∀ c ∈ plan.target.name, isNamePart c = true) (member : name ∈ names) :
    Signature.isConstructorArea plan.className (heading name) = false ∧
      ∀ policy scope, Constructor.ofArea? policy scope plan.className (heading name) = none :=
  not_constructor_heading (keywords name member)
    ⟨by simp [className], List.forall_mem_append.mpr ⟨inName, by decide⟩⟩ (others name member)

/-- No constructor is read. -/
theorem IsNormalized.readAll_constructors (h : IsNormalized convention plan names t)
    (policy : ExtractionPolicy) {header : ClassSurface} (own : header.name = plan.className) :
    Constructor.readAll policy header t = [] := by
  rcases h.exists_areas named package with ⟨body, carries, same⟩
  rw [Constructor.readAll, same, own, carries.filterMap_areas fun line isStatement area member =>
    (isStatement.not_declared member).2 policy _ plan.className]
  refine List.filterMap_eq_nil_iff.mpr fun area member => ?_
  rcases List.mem_map.mp member with ⟨name, inNames, rfl⟩
  exact (isConstructorArea_heading keywords others named.name inNames).2 policy _

/-- One method is read for each test. -/
theorem IsNormalized.readAll_methods (free : ∀ name ∈ names, name ∉ Signature.reserved)
    (h : IsNormalized convention plan names t) (library : PatternLibrary)
    (policy : ExtractionPolicy) {header : ClassSurface} (own : header.name = plan.className) :
    Method.readAll library policy header t = names.map testMethod := by
  rcases (h.normalize named package).exists_areas named package with ⟨body, carries, same⟩
  let scope := NameScope.ofSurface header
  let read : Text → Option Method := fun area =>
    if Signature.isConstructorArea plan.className area then none
    else (Signature.ofArea? area).map (Method.ofSignature library policy scope (Text.normalize t))
  have asRead : Method.readAll library policy header t =
      (areas (Text.normalize t)).filterMap read := by
    simp only [Method.readAll, Method.readWith, Signature.findAll, own, List.filterMap_filter,
      List.map_filterMap]
    refine List.filterMap_congr fun area _ => ?_
    cases shows : Signature.isConstructorArea plan.className area <;> simp [read, shows, scope]
  have heading : ∀ name ∈ names, read (heading name) = some (testMethod name) := by
    intro name member
    have notConstructor := (isConstructorArea_heading keywords others named.name member).1
    simp only [read, notConstructor, Bool.false_eq_true, if_false]
    exact ofSignature_heading (keywords name member) (free name member) library policy scope
      (Text.normalize t)
  rw [asRead, same, carries.filterMap_areas fun line isStatement area member => by
    simp [read, (isStatement.not_declared member).1], List.filterMap_map]
  rw [← List.filterMap_eq_map]
  exact List.filterMap_congr heading

end Members

end Readers

end TestPlan

namespace TestSource

/-- A new test source is read back: if no test method has an empty or a reserved name or the
name of the test class, then reading gives the test class in the package of the target, with
the imports of the convention and those of the target behind them, no constructors, and one
public void method without parameters that throws `Exception` for each test, in order, or
refuses the source because it is too large. -/
theorem read_newIn {style : TestStyle} (usual : style.IsUsual) {target : ClassSurface}
    (named : target.IsNamed) (package : target.HasDottedPackage) (convention : Convention)
    (free : ∀ test ∈ (TestPlan.ofSurface style target).tests,
      TestPlan.methodName style convention test ≠ [] ∧
      TestPlan.methodName style convention test ∉ Signature.reserved ∧
      TestPlan.methodName style convention test ≠ target.name ++ "Test".toList)
    (library : PatternLibrary) (policy : ExtractionPolicy) :
    ClassSurface.read library policy (newIn style convention target) =
      if policy.maxSourceSize < Text.utf8Size (newIn style convention target) then
        .error (.sourceTooLarge (Text.utf8Size (newIn style convention target))
          policy.maxSourceSize)
      else .ok (TestPlan.surface style convention (TestPlan.ofSurface style target)) := by
  let plan := TestPlan.ofSurface style target
  let names := plan.tests.map (TestPlan.methodName style convention)
  have named' : plan.target.IsNamed := named
  have package' : plan.target.HasDottedPackage := package
  have keywords : ∀ test ∈ plan.tests,
      IsKeyword (TestPlan.methodName style convention test) := fun test member =>
    ⟨(free test member).1, TestPlan.isNamePart_of_mem_methodName usual
      (TestPlan.isNamePart_of_mem_tests usual named test member)⟩
  have keyword : ∀ name ∈ names, IsKeyword name := List.forall_mem_map.mpr keywords
  have unreserved : ∀ name ∈ names, name ∉ Signature.reserved :=
    List.forall_mem_map.mpr fun test member => (free test member).2.1
  have others : ∀ name ∈ names, name ≠ plan.className :=
    List.forall_mem_map.mpr fun test member => (free test member).2.2
  have normalized : TestPlan.IsNormalized convention plan names
      (Text.normalize (newIn style convention target)) :=
    TestPlan.isNormalized_newIn usual named package keywords
  have name := normalized.find?_className named' package'
  have ofPackage := normalized.find?_packageName named' package'
  have imports := normalized.importsOf_eq named' package'
  rw [ClassSurface.read]
  split
  · rfl
  · rcases Option.map_eq_some_iff.mp name with ⟨found, isFound, text⟩
    have constructors := fun {header : ClassSurface} (own : header.name = plan.className) =>
      normalized.readAll_constructors named' package' keyword others policy own
    have methods := fun {header : ClassSurface} (own : header.name = plan.className) =>
      normalized.readAll_methods named' package' keyword others unreserved library policy own
    simp only [isFound, ofPackage, imports]
    rw [constructors text, methods text, text, List.map_map]
    rfl

/-- The modern test source of a class in a package, with an import and a method of its own. -/
theorem read_newIn_modern :
    let target := { ClassSurface.named "S".toList with
      package := some "a.b".toList
      imports := ["java.util.*".toList]
      methods := [TestPlan.overload "at".toList [TypeTree.named "java.util.Date".toList]] }
    ClassSurface.read (.within 1000) .standard (newIn .modern .modern target) =
      .ok (TestPlan.surface .modern .modern (TestPlan.ofSurface .modern target)) := by
  intro target
  have named : target.IsNamed := {
    name := by decide
    imports := by
      intro imported member
      rcases List.mem_singleton.mp member with rfl
      exact ⟨⟨false, "java.util".toList, true⟩, by decide, by decide⟩
    constructors := by simp [target, ClassSurface.named]
    methods := by
      intro method member
      rcases List.mem_singleton.mp member with rfl
      exact ⟨by decide, by decide, by decide, by simp [TestPlan.overload, Method.withParameters,
        Method.named]⟩ }
  have package : target.HasDottedPackage := by
    intro name isName
    rcases Option.some.inj isName with rfl
    decide
  have small : ¬ ExtractionPolicy.standard.maxSourceSize <
      Text.utf8Size (newIn .modern .modern target) := by
    decide +kernel
  rw [read_newIn TestStyle.isUsual_modern named package .modern (by decide +kernel), if_neg small]

/-- The source is refused if the name of the class is as long as sources may be. -/
theorem read_newIn_of_large (style : TestStyle) (convention : Convention) {target : ClassSurface}
    (library : PatternLibrary) {policy : ExtractionPolicy}
    (large : policy.maxSourceSize ≤ target.name.length) :
    ClassSurface.read library policy (newIn style convention target) =
      .error (.sourceTooLarge (Text.utf8Size (newIn style convention target))
        policy.maxSourceSize) := by
  have longer : target.name.length < (newIn style convention target).length := by
    have own : (TestPlan.ofSurface style target).className = target.name ++ "Test".toList := rfl
    rw [newIn, TestPlan.render_eq, TestPlan.classParts_text, TestPlan.classParts, own]
    simp only [List.length_append, List.length_cons]
    omega
  have atLeast := Text.length_le_utf8Size (newIn style convention target)
  rw [ClassSurface.read, if_pos (by omega)]

/-- A test of a method without a name is not read, and a class with a very long name is
refused. -/
theorem read_newIn_unnamed :
    let target := { ClassSurface.named "S".toList with methods := [Method.named []] }
    let plan := TestPlan.ofSurface .modern target
    let large := ClassSurface.named (List.replicate ExtractionPolicy.standard.maxSourceSize 'S')
    TestStyle.modern.IsUsual ∧ target.IsNamed ∧ target.HasDottedPackage ∧
      (∀ test ∈ plan.tests, TestPlan.methodName .modern .modern test ∉ Signature.reserved ∧
        TestPlan.methodName .modern .modern test ≠ target.name ++ "Test".toList) ∧
      plan.tests.length = 3 ∧
      (ClassSurface.read (.within 1000) .standard (newIn .modern .modern target)).toOption.map
        (fun surface => surface.methods.length) = some 2 ∧
      large.IsNamed ∧ large.HasDottedPackage ∧
      (ClassSurface.read (.within 1000) .standard (newIn .modern .modern large)).toOption.isNone =
        true := by
  intro target plan large
  have inName : ∀ c ∈ large.name, isNamePart c = true := fun c member => by
    rw [List.eq_of_mem_replicate member]
    decide
  have named : target.IsNamed := {
    name := by decide
    imports := by simp [target, Header.HasDottedImports, ClassSurface.named]
    constructors := by simp [target, ClassSurface.named]
    methods := by
      intro method member
      rcases List.mem_singleton.mp member with rfl
      exact ⟨by decide, by decide, by decide, by simp [Method.named]⟩ }
  refine ⟨TestStyle.isUsual_modern, named,
    by simp [target, ClassSurface.HasDottedPackage, ClassSurface.named], by decide +kernel,
    by decide +kernel, by decide +kernel, ClassSurface.isNamed_named inName,
    by simp [large, ClassSurface.HasDottedPackage, ClassSurface.named], ?_⟩
  have atLeast : ExtractionPolicy.standard.maxSourceSize ≤ large.name.length :=
    Nat.le_of_eq List.length_replicate.symm
  rw [read_newIn_of_large .modern .modern _ atLeast]
  rfl

end TestSource
end Testwright
