import Testwright.Proofs.Declaration.MemberSilence

namespace Testwright

/-!
# Classes read from their sources

A written class gives its surface.  Each of the readers finds its part in the
statements, in the header or in a member, and nothing elsewhere: name, package
and imports by the silence of everything else, constructors and methods by the
areas of the members in order.
-/

open Lexeme (IsOpened IsStatement Spelled behindBlank freeFirst led near partFirst)

namespace ClassForm

open Character (isBlank isDottedPart isNamePart isWord)
open Declaration (isDottedName isIdentifier)
open Lexeme (IsMark IsSound IsWord)
open Matcher (Reads Silent Stops)
open Text (Blank)

/-! ## Statements -/

/-- Where a statement ends, a word may begin. -/
def AtEdge (behind : Text) : Prop :=
  ∀ c, behind.head? = some c → isWord c = false

theorem atEdge_nil : AtEdge [] := by
  intro c head
  cases head

theorem AtEdge.append {behind s : Text} (edge : AtEdge behind)
    (last : ∀ c, s.getLast? = some c → isWord c = false) : AtEdge (s.reverse ++ behind) := by
  intro c head
  cases s using List.reverseRecOn with
  | nil => exact edge c head
  | append_singleton s d =>
      refine last c ?_
      simpa using head

theorem AtEdge.append_blank {behind gap : Text} (edge : AtEdge behind) (blank : Blank gap) :
    AtEdge (gap.reverse ++ behind) :=
  edge.append fun c last => Character.not_isWord_of_isBlank (blank c (List.mem_of_getLast? last))

/-- The imports of a list of statements are read one by one. -/
theorem findAllFrom_imports {statements : List ImportForm}
    (h : ∀ statement ∈ statements, statement.isWellFormed = true) {t : Text}
    (spelled : Spelled (statements.flatMap ImportForm.lexemes) t) {behind : Text}
    (edge : AtEdge behind) (u : Text) :
    (Matcher.importPath.findAllFrom behind 0 (t ++ u)).map
        (fun found => ClassSurface.importedName found.1 found.2.text) =
      statements.map ImportForm.declared ++
        (Matcher.importPath.findAllFrom (t.reverse ++ behind) 0 u).map
          (fun found => ClassSurface.importedName found.1 found.2.text) ∧
      AtEdge (t.reverse ++ behind) := by
  induction statements generalizing t behind with
  | nil =>
      cases spelled
      exact ⟨rfl, edge⟩
  | cons statement statements ih =>
      obtain ⟨s, later, rfl, first, others⟩ := Lexeme.spelled_append.mp spelled
      obtain ⟨gap, s, rfl, blank, reads⟩ :=
        Lexeme.reads_importPath (h statement List.mem_cons_self) first
      have behindGap := edge.append_blank blank
      have behindHere : AtEdge ((s ++ [';']).reverse ++ (gap.reverse ++ behind)) :=
        behindGap.append fun c last => by
          rw [List.getLast?_concat, Option.some.injEq] at last
          subst last
          decide
      obtain ⟨found, here, imported⟩ := reads (gap.reverse ++ behind) (later ++ u) behindGap
      obtain ⟨rest, atEnd⟩ :=
        ih (fun other inRest => h other (List.mem_cons_of_mem statement inRest))
        others behindHere
      have silent := Lexeme.silent_of_gap Lexeme.isStatement_importPath.opened blank behind
        (s ++ [';'] ++ (later ++ u))
      have shape : gap ++ (s ++ [';']) ++ later ++ u = gap ++ (s ++ [';'] ++ (later ++ u)) := by
        simp
      have place : (gap ++ (s ++ [';']) ++ later).reverse ++ behind =
          later.reverse ++ ((s ++ [';']).reverse ++ (gap.reverse ++ behind)) := by simp
      rw [shape, place, Matcher.findAllFrom_append silent,
        Matcher.findAllFrom_of_reads (by simp) here, List.map_cons, imported, rest]
      exact ⟨rfl, atEnd⟩

theorem atEdge_package {package : Option Text} (h : ∀ name ∈ package, isDottedName name = true)
    {t : Text} (spelled : Spelled (Lexeme.packageLexemes package) t) :
    AtEdge (t.reverse ++ []) := by
  cases package with
  | none =>
      cases spelled
      exact atEdge_nil
  | some name =>
      obtain ⟨gap, s, rfl, -, -⟩ := Lexeme.reads_packageName (h name rfl) spelled
      refine atEdge_nil.append fun c last => ?_
      rw [← List.append_assoc, List.getLast?_concat, Option.some.injEq] at last
      subst last
      decide

/-- A package statement is no import statement. -/
theorem silent_package {name : Text} (h : isDottedName name = true) {t : Text}
    (spelled : Spelled (Lexeme.packageLexemes (some name)) t) (behind rest : Text) :
    Silent Matcher.importPath behind t rest := by
  have keyword : IsWord (near "package".toList) := ⟨by decide, by decide⟩
  have word : IsWord (behindBlank name) :=
    ⟨Declaration.isDottedName_ne_nil h, Declaration.isDottedPart_of_isDottedName h⟩
  have sound : IsSound [near "package".toList, behindBlank name] :=
    ⟨List.forall_mem_cons.mpr ⟨Or.inl keyword, List.forall_mem_singleton.mpr (Or.inl word)⟩,
      List.isChain_pair.mpr (Or.inl rfl)⟩
  have chain : [near "package".toList, behindBlank name].IsChain
      (Lexeme.Guards ["import".toList] isNamePart) :=
    List.isChain_pair.mpr (Or.inl (by decide))
  exact Lexeme.silent_of_semicolon Lexeme.isStatement_importPath
    (by decide) sound chain spelled behind rest

/-- An import statement is no package statement. -/
theorem silent_import {statement : ImportForm} (h : statement.isWellFormed = true) {t : Text}
    (spelled : Spelled statement.lexemes t) (behind rest : Text) :
    Silent Matcher.packageName behind t rest := by
  have isStatement := Lexeme.isStatement_packageName
  have keyword : IsWord (near "import".toList) := ⟨by decide, by decide⟩
  have static : IsWord (behindBlank "static".toList) := ⟨by decide, by decide⟩
  have word : IsWord (behindBlank statement.path) :=
    ⟨Declaration.isDottedName_ne_nil h, Declaration.isDottedPart_of_isDottedName h⟩
  have guard : ∀ {l : Lexeme}, l.text ∈ ["import".toList, "static".toList] → ∀ l',
      Lexeme.Guards ["package".toList] isDottedPart l l' := by
    intro l member l'
    have none : ∀ t ∈ ["import".toList, "static".toList], ∀ w ∈ ["package".toList],
        Text.endsIn t w = false := by decide
    exact Or.inl (none l.text member)
  have front : ∃ more, (∀ l ∈ more, ';' ∉ l.text) ∧
      (near "import".toList :: more).IsChain (Lexeme.Guards ["package".toList] isDottedPart) ∧
      IsSound (near "import".toList :: more) ∧
      statement.lexemes = near "import".toList :: more ++
        ((if statement.isWildcard then [near ".*".toList] else []) ++ [near [';']]) := by
    have inWord := Lexeme.not_mem_semicolon (Or.inl word)
    cases isStatic : statement.isStatic with
    | false =>
        refine ⟨[behindBlank statement.path], by simpa using inWord,
          List.isChain_pair.mpr (guard (by decide) _),
          ⟨List.forall_mem_cons.mpr ⟨Or.inl keyword, List.forall_mem_singleton.mpr (Or.inl word)⟩,
            List.isChain_pair.mpr (Or.inl rfl)⟩, by simp [ImportForm.lexemes, isStatic]⟩
    | true =>
        refine ⟨[behindBlank "static".toList, behindBlank statement.path],
          List.forall_mem_cons.mpr ⟨by decide, by simpa using inWord⟩,
          List.isChain_cons_cons.mpr ⟨guard (by decide) _,
            List.isChain_pair.mpr (guard (by decide) _)⟩,
          ⟨List.forall_mem_cons.mpr ⟨Or.inl keyword, List.forall_mem_cons.mpr ⟨Or.inl static,
            List.forall_mem_singleton.mpr (Or.inl word)⟩⟩,
            List.isChain_cons_cons.mpr ⟨Or.inl rfl, List.isChain_pair.mpr (Or.inl rfl)⟩⟩,
          by simp [ImportForm.lexemes, isStatic]⟩
  obtain ⟨more, noEnd, chain, sound, shape⟩ := front
  rw [shape] at spelled
  cases isWildcard : statement.isWildcard with
  | false =>
      rw [isWildcard] at spelled
      exact Lexeme.silent_of_semicolon isStatement (by decide) sound chain spelled behind rest
  | true =>
      rw [isWildcard] at spelled
      obtain ⟨s, u, rfl, inFront, gap, u, rfl, blank, -, gap', u, rfl, blank', -, rfl⟩ :=
        Lexeme.spelled_append.mp spelled
      have visible : ∀ c, Character.isBlank c = true → c ≠ ';' := by
        rintro _ blankC rfl
        cases blankC
      have inS := inFront.forall_mem (P := (· ≠ ';')) visible
        (List.forall_mem_cons.mpr ⟨by decide, fun l member c inText same =>
          noEnd l member (same ▸ inText)⟩)
      have absent : ';' ∉ s ++ (gap ++ ['.']) := by
        simp only [List.mem_append, not_or]
        exact ⟨fun member => inS _ member rfl,
          fun member => absurd (blank _ member) (by decide), by decide⟩
      have passed :=
        Lexeme.silent_through_mark isStatement (d := '*') absent (by decide) (by decide)
        (by decide) behind (gap' ++ ';' :: rest)
      have after : Silent Matcher.packageName ((s ++ (gap ++ ['.']) ++ ['*']).reverse ++ behind)
          (gap' ++ [';']) rest := by
        refine Lexeme.silent_of_not_word isStatement.opened (fun c member => ?_) _ _
        rcases List.mem_append.mp member with inGap | atEnd
        · exact Character.not_isWord_of_isBlank (blank' c inGap)
        · rw [List.mem_singleton.mp atEnd]
          decide
      have whole := Matcher.silent_append.mpr ⟨by simpa using passed, after⟩
      simpa using whole

/-- What is silent in each statement is silent in all of them. -/
theorem silent_flatMap {α : Type} {m : Matcher α} {statements : List ImportForm}
    (each : ∀ statement ∈ statements, ∀ t behind rest, Spelled statement.lexemes t →
      Silent m behind t rest) {t : Text}
    (spelled : Spelled (statements.flatMap ImportForm.lexemes) t) (behind rest : Text) :
    Silent m behind t rest := by
  induction statements generalizing t behind with
  | nil =>
      cases spelled
      exact Matcher.silent_nil _ behind rest
  | cons statement statements ih =>
      obtain ⟨s, later, rfl, first, others⟩ := Lexeme.spelled_append.mp spelled
      exact Matcher.silent_append.mpr ⟨each statement List.mem_cons_self s behind _ first,
        ih (fun other inRest => each other (List.mem_cons_of_mem statement inRest)) others _⟩

/-! ## The statements and the rest -/

section

variable {form : ClassForm} (h : form.isWellFormed = true)
include h

/-- Behind its statements, the text of a class has none. -/
theorem silent_rest {α : Type} {m : Matcher α} {w : Text} {opens passes : Char → Bool}
    (statement : IsStatement m w opens passes) (isStatementWord : w ∈ Member.statementWords)
    {b c gap gap' : Text} (inHeader : Spelled form.headerLexemes b)
    (inMembers : Member.Written form.name form.members c) (blank : Blank gap) (blank' : Blank gap')
    (behind : Text) : Silent m behind (b ++ (c ++ (gap ++ '}' :: gap'))) [] := by
  refine Matcher.silent_append.mpr ⟨Lexeme.silent_header statement h inHeader _ _, ?_⟩
  refine Matcher.silent_append.mpr ⟨Lexeme.silent_members statement isStatementWord (parts h).name
    (parts h).members inMembers _ _, ?_⟩
  refine Lexeme.silent_of_not_word statement.opened (fun d member => ?_) _ _
  rcases List.mem_append.mp member with inGap | member
  · exact Character.not_isWord_of_isBlank (blank d inGap)
  · rcases List.mem_cons.mp member with rfl | inGap
    · decide
    · exact Character.not_isWord_of_isBlank (blank' d inGap)

/-- The imports in front of a text that has none are read in order. -/
theorem importsOf_of_statements {a r : Text} (inStatements : Spelled form.statementLexemes a)
    (silent : ∀ behind, Silent Matcher.importPath behind r []) :
    ClassSurface.importsOf (a ++ r) = form.imports.map ImportForm.declared := by
  obtain ⟨a, a', rfl, inPackage, inImports⟩ := Lexeme.spelled_append.mp inStatements
  have silentPackage : Silent Matcher.importPath [] a (a' ++ r) := by
    cases package : form.package with
    | none =>
        rw [package] at inPackage
        cases inPackage
        exact Matcher.silent_nil _ _ _
    | some name =>
        rw [package] at inPackage
        exact silent_package ((parts h).package name package) inPackage _ _
  have reads :=
    (findAllFrom_imports (parts h).imports inImports
      (atEdge_package (parts h).package inPackage) r).1
  rw [ClassSurface.importsOf, Matcher.findAll, List.append_assoc,
    Matcher.findAllFrom_append silentPackage, reads, Matcher.findAllFrom_eq_nil (silent _)]
  simp

/-- The package in front of a text that has no package statement is found, and none if
there is none. -/
theorem find?_packageName_of_statements {a r : Text}
    (inStatements : Spelled form.statementLexemes a)
    (silent : ∀ behind, Silent Matcher.packageName behind r []) :
    (Matcher.packageName.find? (a ++ r)).map Stretch.text = form.package := by
  obtain ⟨a, a', rfl, inPackage, inImports⟩ := Lexeme.spelled_append.mp inStatements
  cases package : form.package with
  | none =>
      rw [package] at inPackage
      cases inPackage
      have whole := Matcher.silent_append.mpr
        ⟨silent_flatMap (fun statement member s behind rest spelled =>
          silent_import ((parts h).imports statement member) spelled behind rest) inImports []
            (r ++ []), silent _⟩
      rw [Matcher.find?, List.nil_append, Matcher.findFrom_eq_none whole
        (Lexeme.nil_of_opened_at_end Lexeme.isStatement_packageName.opened _)]
      rfl
  | some name =>
      rw [package] at inPackage
      obtain ⟨gap₁, s, rfl, blank₁, reads⟩ :=
        Lexeme.reads_packageName ((parts h).package name package) inPackage
      obtain ⟨found, here, text⟩ :=
        reads (gap₁.reverse ++ []) (a' ++ r) (atEdge_nil.append_blank blank₁)
      have silent :=
        Lexeme.silent_of_gap Lexeme.isStatement_packageName.opened blank₁ []
          (s ++ [';'] ++ (a' ++ r))
      have shape : gap₁ ++ (s ++ [';']) ++ a' ++ r = gap₁ ++ (s ++ [';'] ++ (a' ++ r)) := by simp
      rw [Matcher.find?, shape, Matcher.findFrom_append silent, Matcher.findFrom_of_reads here,
        Option.map_some, text]

/-- The imports of a written class are read in order. -/
theorem importsOf_of_written {t : Text} (written : form.Written t) :
    ClassSurface.importsOf t = form.imports.map ImportForm.declared := by
  obtain ⟨a, b, c, gap, gap', rfl, inStatements, inHeader, inMembers, blank, blank'⟩ := written
  exact importsOf_of_statements h inStatements
    (silent_rest h Lexeme.isStatement_importPath (by decide) inHeader inMembers blank blank')

/-- The package of a written class is found, and none if it has none. -/
theorem find?_packageName_of_written {t : Text} (written : form.Written t) :
    (Matcher.packageName.find? t).map Stretch.text = form.package := by
  obtain ⟨a, b, c, gap, gap', rfl, inStatements, inHeader, inMembers, blank, blank'⟩ := written
  exact find?_packageName_of_statements h inStatements
    (silent_rest h Lexeme.isStatement_packageName (by decide) inHeader inMembers blank blank')

end

/-! ## The name of the class -/

/-- Modifiers stand in front of what they lead, each with blanks behind it. -/
theorem exists_led {words : List Text} {l : Lexeme} {more : List Lexeme} {t : Text}
    (spelled : Spelled (freeFirst (led words (l :: more))) t) :
    ∃ x gap r, t = x ++ (gap ++ (l.text ++ r)) ∧ Spelled (freeFirst (words.map behindBlank)) x ∧
      Blank gap ∧ (words ≠ [] → gap ≠ []) ∧ Spelled more r := by
  cases words with
  | nil =>
      obtain ⟨gap, r, rfl, blank, -, inMore⟩ := spelled
      exact ⟨[], gap, r, rfl, rfl, blank, by simp, inMore⟩
  | cons w words =>
      have shape : freeFirst (led (w :: words) (l :: more)) =
          freeFirst ((w :: words).map behindBlank) ++ (behindBlank l.text :: more) := by
        simp [led, freeFirst, partFirst]
      rw [shape] at spelled
      obtain ⟨x, _, rfl, inWords, gap, r, rfl, blank, parted, inMore⟩ :=
        Lexeme.spelled_append.mp spelled
      exact ⟨x, gap, r, rfl, inWords, blank, fun _ => parted rfl, inMore⟩

section

variable {opens : Char → Bool} {keys : List Text}

/-- A list of lexemes that end in no key is guarded. -/
theorem guards_chain {lexemes : List Lexeme}
    (none : ∀ l ∈ lexemes, ∀ w ∈ keys, Text.endsIn l.text w = false) :
    lexemes.IsChain (Lexeme.Guards keys opens) := by
  induction lexemes with
  | nil => exact List.isChain_nil
  | cons l lexemes ih =>
      exact Lexeme.isChain_behind (fun _ => Or.inl (none l List.mem_cons_self))
        (ih fun l' member => none l' (List.mem_cons_of_mem l member))

end

/-- The lexemes of a statement besides its path. -/
def statementParts : List Text :=
  ["package".toList, "import".toList, "static".toList, ".*".toList, [';']]

theorem not_endsIn_classWord {l : Lexeme} (member : l.text ∈ statementParts) :
    ∀ w ∈ Matcher.classWords, Text.endsIn l.text w = false :=
  (by decide : ∀ t ∈ statementParts, ∀ w ∈ Matcher.classWords, Text.endsIn t w = false)
    l.text member

/-- What follows a path in a statement. -/
def pathEnd (isWildcard : Bool) : List Lexeme :=
  (if isWildcard then [near ".*".toList] else []) ++ [near [';']]

/-- Behind the path of a statement there is a dot or a semicolon, and no name. -/
theorem silent_statement {words : List Lexeme} (parts : ∀ l ∈ words, l.text ∈ statementParts)
    (sound : IsSound words) {path : Text} (isPath : isDottedName path = true) (isWildcard : Bool)
    {t : Text} (spelled : Spelled (words ++ behindBlank path :: pathEnd isWildcard) t)
    (behind rest : Text) : Silent Matcher.className behind t rest := by
  have word : IsWord (behindBlank path) :=
    ⟨Declaration.isDottedName_ne_nil isPath, Declaration.isDottedPart_of_isDottedName isPath⟩
  have semicolon : IsMark (near [';']) := Lexeme.isMark_last (Or.inr rfl)
  have star : IsMark (near ".*".toList) := ⟨by decide, by decide⟩
  have atEnd : IsSound (pathEnd isWildcard) ∧ (∀ l ∈ pathEnd isWildcard, l.text ∈ statementParts) ∧
      (∀ l ∈ (pathEnd isWildcard).head?, IsMark l ∧ ∀ c, l.text.head? = some c →
        isNamePart c = false) ∧
      (pathEnd isWildcard).getLast? = some (near [';']) := by
    cases isWildcard with
    | false =>
        refine ⟨Lexeme.isSound_singleton (Or.inr semicolon), by decide, ?_, rfl⟩
        rintro l head
        cases head
        exact ⟨semicolon, fun c first => by cases first; decide⟩
    | true =>
        refine ⟨⟨?_, List.isChain_pair.mpr (Or.inr (Or.inl star))⟩, by decide, ?_, rfl⟩
        · exact List.forall_mem_cons.mpr ⟨Or.inr star,
            List.forall_mem_singleton.mpr (Or.inr semicolon)⟩
        · rintro l head
          cases head
          exact ⟨star, fun c first => by cases first; decide⟩
  obtain ⟨soundEnd, partsEnd, begins, last⟩ := atEnd
  have inner : ∀ l ∈ words ++ pathEnd isWildcard, ∀ w ∈ Matcher.classWords,
      Text.endsIn l.text w = false :=
    fun l member => not_endsIn_classWord (List.forall_mem_append.mpr ⟨parts, partsEnd⟩ l member)
  have whole : IsSound (words ++ behindBlank path :: pathEnd isWildcard) := by
    refine sound.append ((Lexeme.isSound_singleton (Or.inl word)).append soundEnd
      fun _ _ b head => Or.inr (Or.inr (begins b head).1)) fun _ _ b head => ?_
    cases head
    exact Or.inl rfl
  have chain : (words ++ behindBlank path :: pathEnd isWildcard).IsChain
      (Lexeme.Guards Matcher.classWords isNamePart) := by
    refine List.isChain_append.mpr ⟨guards_chain fun l member =>
      inner l (List.mem_append_left _ member), ?_, fun a member b _ =>
        Or.inl (inner a (List.mem_append_left _ (List.mem_of_mem_getLast? member)))⟩
    exact List.isChain_append.mpr ⟨List.isChain_singleton _,
      guards_chain fun l member => inner l (List.mem_append_right words member),
      fun _ _ b head => Or.inr (begins b head).2⟩
  refine Lexeme.silent_of_guarded Lexeme.isOpened_className whole chain spelled
    (fun l member => ?_) behind
  have same : l = near [';'] := by
    rw [List.getLast?_append, List.getLast?_cons, last] at member
    simpa using member.symm
  subst same
  exact ⟨Or.inl semicolon, not_endsIn_classWord (by decide)⟩

/-- The statements in front of a class do not begin one. -/
theorem silent_statements {form : ClassForm} (h : form.isWellFormed = true) {t : Text}
    (spelled : Spelled form.statementLexemes t) (behind rest : Text) :
    Silent Matcher.className behind t rest := by
  obtain ⟨a, a', rfl, inPackage, inImports⟩ := Lexeme.spelled_append.mp spelled
  have word : ∀ {l : Lexeme},
      l.text ∈ ["package".toList, "import".toList, "static".toList] → IsWord l :=
    fun member => (by decide : ∀ t ∈ ["package".toList, "import".toList, "static".toList],
      t ≠ [] ∧ ∀ c ∈ t, isDottedPart c = true) _ member
  have imports : Silent Matcher.className (a.reverse ++ behind) a' rest := by
    refine silent_flatMap (fun statement member s behind rest first => ?_) inImports _ _
    have isPath := (parts h).imports statement member
    have keyword : IsSound [near "import".toList] :=
      Lexeme.isSound_singleton (Or.inl (word (by decide)))
    cases isStatic : statement.isStatic with
    | false =>
        refine silent_statement  (by decide) keyword isPath
          statement.isWildcard ?_ behind rest
        simpa [ImportForm.lexemes, pathEnd, isStatic] using first
    | true =>
        have static : IsSound [behindBlank "static".toList] :=
          Lexeme.isSound_singleton (Or.inl (word (by decide)))
        refine silent_statement 
          (by decide) (keyword.append static fun _ _ b head => ?_) isPath statement.isWildcard
            ?_ behind rest
        · cases head
          exact Or.inl rfl
        · simpa [ImportForm.lexemes, pathEnd, isStatic] using first
  refine Matcher.silent_append.mpr ⟨?_, imports⟩
  cases package : form.package with
  | none =>
      rw [package] at inPackage
      cases inPackage
      exact Matcher.silent_nil _ _ _
  | some name =>
      rw [package] at inPackage
      exact silent_statement  (by decide)
        (Lexeme.isSound_singleton (Or.inl (word (by decide))))
          ((parts h).package name package) false
        inPackage _ _

theorem silent_modifiers {words : List Text} (modifiers : ∀ w ∈ words, w ∈ Declaration.modifiers)
    {t : Text} (spelled : Spelled (freeFirst (words.map behindBlank)) t) {gap : Text}
    (blank : Blank gap) (parted : words ≠ [] → gap ≠ []) (behind rest : Text) :
    Silent Matcher.className behind t (gap ++ rest) := by
  have keywords : ∀ w ∈ words, Lexeme.IsKeyword w := fun w member =>
    MethodForm.isKeyword_modifiers (modifiers w member)
  have led : IsSound (freeFirst (led words [])) :=
    (Lexeme.isSound_led keywords Lexeme.isSound_nil).freeFirst
  have shape : freeFirst (Lexeme.led words []) = freeFirst (words.map behindBlank) := by
    simp [Lexeme.led, partFirst]
  rw [shape] at led
  have none : ∀ l ∈ freeFirst (words.map behindBlank), ∀ w ∈ Matcher.classWords,
      Text.endsIn l.text w = false := by
    rw [← shape]
    refine Lexeme.forall_mem_freeFirst_led (P := fun t => ∀ w ∈ Matcher.classWords,
      Text.endsIn t w = false)
      (fun v member => ?_) (by simp)
    exact (by decide : ∀ v ∈ Declaration.modifiers, ∀ w ∈ Matcher.classWords,
      Text.endsIn v w = false) v (modifiers v member)
  refine Lexeme.silent_of_guarded Lexeme.isOpened_className led (guards_chain none) spelled
    (fun l member => ⟨Or.inr ?_, none l (List.mem_of_mem_getLast? member)⟩) behind
  have some : words ≠ [] := by
    rintro rfl
    cases member
  obtain ⟨d, gap, rfl⟩ := List.exists_cons_of_ne_nil (parted some)
  exact Character.not_isNamePart_of_isBlank (blank d List.mem_cons_self)

/-- The word that begins a class, where it stands. -/
theorem reads_className {w name gap r behind : Text} (isClassWord : w ∈ Matcher.classWords)
    (blank : Blank gap) (parted : gap ≠ []) (nonempty : name ≠ [])
    (named : ∀ c ∈ name, isNamePart c = true) (stops : Stops isNamePart r) (edge : AtEdge behind) :
    ∃ found later, Reads Matcher.className ⟨behind, w ++ (gap ++ (name ++ r))⟩ found later ∧
      found.text = name := by
  have seen : Text.Visible name :=
    fun c member => Character.not_isBlank_of_isNamePart (named c member)
  have words := Lexeme.isOpened_className.words w isClassWord
  have apart : ∀ w ∈ Matcher.classWords, ∀ w' ∈ Matcher.classWords,
      w' ≠ w → ¬ w' <+: w ∧ ¬ w <+: w' := by
    decide
  refine (Lexeme.wordEdge_append words.1 words.2 edge).exists_bind ?_
  refine (Reads.of_eq_cons (Matcher.anyOf_append isClassWord (by decide) (apart w isClassWord)
    behind _)).exists_bind ?_
  refine (Reads.of_eq_cons
    (Matcher.run1_append blank parted (Lexeme.stops_append nonempty seen _) _)).exists_bind ?_
  exact ⟨_, _, (Reads.of_eq_cons (Matcher.run1_append named nonempty stops _)).stretch, by simp⟩

/-- What stands behind the name of a class ends it. -/
theorem stops_behind_name {parent : Option Text} {r : Text}
    (spelled : Spelled (parent.toList.flatMap fun parent =>
      [behindBlank "extends".toList, behindBlank parent]) r) {gap t : Text} (blank : Blank gap) :
    Stops isNamePart (r ++ (gap ++ '\x7b' :: t)) := by
  cases parent with
  | none =>
      cases spelled
      cases gap with
      | nil => exact Matcher.stops_cons.mpr (by decide)
      | cons d gap => exact Character.not_isNamePart_of_isBlank (blank d List.mem_cons_self)
  | some name =>
      obtain ⟨gap, rest, rfl, blank, parted, -⟩ := spelled
      obtain ⟨d, gap, rfl⟩ := List.exists_cons_of_ne_nil (parted rfl)
      exact Character.not_isNamePart_of_isBlank (blank d List.mem_cons_self)

/-- The header of a class behind its statements tells the name. -/
theorem find?_className_of_header {form : ClassForm} (h : form.isWellFormed = true) {a b : Text}
    (inStatements : Spelled form.statementLexemes a) (inHeader : Spelled form.headerLexemes b)
    (t : Text) :
    (Matcher.className.find? (a ++ (b ++ t))).map Stretch.text = some form.name := by
  obtain ⟨b, _, rfl, inFront, atEnd⟩ := Lexeme.spelled_append.mp inHeader
  obtain ⟨gap₃, rfl, blank₃, -⟩ := Lexeme.spelled_singleton.mp atEnd
  obtain ⟨x, gap₁, _, rfl, inWords, blank₁, parted₁, gap₂, r, rfl, blank₂, parted₂, inParent⟩ :=
    exists_led inFront
  obtain ⟨p, i, rfl, inPackage, inImports⟩ := Lexeme.spelled_append.mp inStatements
  have edge : AtEdge (gap₁.reverse ++ (x.reverse ++ ((p ++ i).reverse ++ []))) := by
    have edge := (findAllFrom_imports (parts h).imports inImports
      (atEdge_package (parts h).package inPackage) []).2
    cases words : form.modifiers with
    | nil =>
        rw [words] at inWords
        cases inWords
        simpa using edge.append_blank blank₁
    | cons w words =>
        obtain ⟨d, rest, shape⟩ := List.exists_cons_of_ne_nil
          (List.reverse_ne_nil_iff.mpr (parted₁ (by simp [words])))
        intro c head
        rw [shape, List.cons_append] at head
        have inGap : d ∈ gap₁ := List.mem_reverse.mp (by rw [shape]; exact List.mem_cons_self)
        rw [← Option.some.inj head]
        exact Character.not_isWord_of_isBlank (blank₁ d inGap)
  have stops := stops_behind_name (t := t) inParent blank₃
  obtain ⟨found, later, here, text⟩ := reads_className (parts h).keyword blank₂ (parted₂ rfl)
    (Declaration.isIdentifier_ne_nil (parts h).name)
      (Declaration.isNamePart_of_isIdentifier (parts h).name)
    stops edge
  have silent : ∀ u, Silent Matcher.className [] (p ++ i ++ (x ++ gap₁)) u := fun u =>
    Matcher.silent_append.mpr ⟨silent_statements h inStatements _ _, Matcher.silent_append.mpr
      ⟨silent_modifiers (parts h).modifiers inWords blank₁ parted₁ _ _,
        Lexeme.silent_of_gap Lexeme.isOpened_className blank₁ _ _⟩⟩
  have shape : p ++ i ++ (x ++ (gap₁ ++ (form.keyword ++ (gap₂ ++ (form.name ++ r)))) ++
      (gap₃ ++ ['\x7b']) ++ t) = p ++ i ++ (x ++ gap₁) ++ (form.keyword ++
        (gap₂ ++ (form.name ++ (r ++ (gap₃ ++ '\x7b' :: t))))) := by simp
  have place : (p ++ i ++ (x ++ gap₁)).reverse ++ [] =
      gap₁.reverse ++ (x.reverse ++ ((p ++ i).reverse ++ [])) := by simp
  simp only [Lexeme.near_text, Lexeme.behindBlank_text]
  rw [Matcher.find?, shape, Matcher.findFrom_append (silent _), place,
    Matcher.findFrom_of_reads here, Option.map_some, text]

theorem find?_className_of_written {form : ClassForm} (h : form.isWellFormed = true) {t : Text}
    (written : form.Written t) : (Matcher.className.find? t).map Stretch.text = some form.name := by
  obtain ⟨a, b, c, gap, gap', rfl, inStatements, inHeader, -⟩ := written
  exact find?_className_of_header h inStatements inHeader _

end ClassForm
end Testwright
