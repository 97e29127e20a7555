import Testwright.Proofs.Declaration.ConstructorSpelling
import Testwright.Proofs.Declaration.SignatureShape

namespace Testwright

/-!
# Statements that are no declarations

A method body is cut into the same pieces as the class around it, so every statement
of it is held against the shapes of declarations.  An assignment has no such shape,
because of the equals sign in front of its first parenthesis, and neither has a call,
because nothing but a dotted name stands there.
-/

open Character (isBlank isDottedPart isNamePart)
open Lexeme (IsWord near)
open Matcher (Silent Stops Takes)
open Text (Blank)

namespace Matcher

variable {α : Type} {m : Matcher α} {P : Text → Prop} {new behind s t : Text}

theorem mem_of_mem_replaceAllFrom {pending : Nat} {c : Char}
    (member : c ∈ replaceAllFrom m new behind pending t) : c ∈ new ∨ c ∈ t := by
  induction t generalizing behind pending with
  | nil => cases member
  | cons d t ih =>
      have later : ∀ {behind pending}, c ∈ replaceAllFrom m new behind pending t →
          c ∈ new ∨ c ∈ d :: t :=
        fun inside => (ih inside).imp_right (List.mem_cons_of_mem d)
      cases pending with
      | succ pending => exact later member
      | zero =>
          rw [replaceAllFrom] at member
          split at member
          · exact (List.mem_append.mp member).elim Or.inl later
          · rcases List.mem_cons.mp member with rfl | inside
            · exact Or.inr List.mem_cons_self
            · exact later inside

/-- A character that no reading takes stays. -/
theorem replaceAllFrom_cons (takes : Takes m P) {d : Char} (other : ∀ r, P r → r ≠ [] ∧ d ∉ r)
    (new behind t : Text) :
    replaceAllFrom m new behind 0 (d :: t) = d :: replaceAllFrom m new (d :: behind) 0 t := by
  have none : m ⟨behind, d :: t⟩ = [] := by
    apply takes.eq_nil
    rintro r rest same taken
    rcases List.exists_cons_of_ne_nil (other r taken).1 with ⟨e, r', rfl⟩
    rcases List.cons.inj same with ⟨rfl, -⟩
    exact (other _ taken).2 List.mem_cons_self
  rw [replaceAllFrom, none]

/-- A character that no reading takes parts what comes of the text in front
of it from what comes of the text behind it. -/
theorem exists_replaceAllFrom_cut (takes : Takes m P) {d : Char} (other : ∀ r, P r → r ≠ [] ∧ d ∉ r)
    (new behind s t : Text) : ∃ s' t', replaceAllFrom m new behind 0 (s ++ d :: t) = s' ++ d :: t' ∧
    (∀ c ∈ s', c ∈ new ∨ c ∈ s) ∧ ∀ c ∈ t', c ∈ new ∨ c ∈ t := by
  -- a reading may take any number of characters, so the induction is on the length
  induction hn : s.length using Nat.strong_induction_on generalizing s behind with
  | _ n ih =>
  cases s with
  | nil =>
      exact ⟨[], _, replaceAllFrom_cons takes other new behind t, by simp,
        fun c => mem_of_mem_replaceAllFrom⟩
  | cons c s =>
      rw [List.length_cons] at hn
      rw [List.cons_append, replaceAllFrom]
      split
      · rename_i reading more readings
        rcases takes _ reading (by rw [readings]; exact List.mem_cons_self) with
          ⟨r, taken, ahead, -⟩
        rcases List.exists_cons_of_ne_nil (other r taken).1 with ⟨e, r, rfl⟩
        rcases List.cons.inj ahead with ⟨rfl, same⟩
        have absent : d ∉ r := fun member => (other _ taken).2 (List.mem_cons_of_mem _ member)
        have inside : ∃ u, s = r ++ u ∧ reading.2.ahead = u ++ d :: t := by
          rcases List.append_eq_append_iff.mp same with ⟨u, rfl, rest⟩ | cut
          · cases u with
            | nil => exact ⟨[], by simp, rest.symm⟩
            | cons f u => exact absurd (List.cons.inj rest).1 (by rintro rfl; simp at absent)
          · exact cut
        rcases inside with ⟨u, rfl, rest⟩
        rcases ih u.length (by simp only [← hn, List.length_append]; omega)
          (r.reverse ++ c :: behind) u rfl
          with ⟨s', t', cut, front, back⟩
        have pending : (r ++ u ++ d :: t).length - reading.2.ahead.length = r.length := by
          simp only [rest, List.length_append]
          omega
        rw [pending, List.append_assoc, replaceAllFrom_pending, cut]
        refine ⟨new ++ s', t', by simp, fun e member => ?_, back⟩
        rcases List.mem_append.mp member with inNew | inRest
        · exact Or.inl inNew
        · exact (front e inRest).imp_right fun h =>
            List.mem_cons_of_mem c (List.mem_append_right r h)
      · rcases ih s.length (by omega) (c :: behind) s rfl with ⟨s', t', cut, front, back⟩
        refine ⟨c :: s', t', by rw [cut, List.cons_append], ?_, back⟩
        refine List.forall_mem_cons.mpr ⟨Or.inr List.mem_cons_self, fun e member => ?_⟩
        exact (front e member).imp_right (List.mem_cons_of_mem c)

/-- What stands in front of the name of a signature: something visible, no parenthesis,
and behind each equals sign the bracket that ends the type parameters. -/
structure IsResultPart (s : Text) : Prop where
  visible : ∃ c ∈ s, isBlank c = false
  absent : '(' ∉ s
  assigned : ∀ x y, s = x ++ '=' :: y → '>' ∈ y

/-- Neither an opening parenthesis nor an equals sign in the text. -/
abbrev IsUnassigned (t : Text) : Prop :=
  ∀ c ∈ t, c ≠ '(' ∧ c ≠ '='

theorem isUnassigned_of {accept : Char → Bool} (none : accept '(' = false ∧ accept '=' = false)
    {t : Text} (each : ∀ c ∈ t, accept c = true) : IsUnassigned t := by
  intro c member
  constructor <;> rintro rfl
  · exact absurd (each _ member) (by simp [none.1])
  · exact absurd (each _ member) (by simp [none.2])

theorem isResultPart_append {front list type : Text} (inFront : IsUnassigned front)
    (inType : IsUnassigned type) (inList : IsVariableList list)
    (visible : ∃ c ∈ type, isBlank c = false) : IsResultPart (front ++ (list ++ type)) where
  visible := by
    rcases visible with ⟨c, member, shown⟩
    exact ⟨c, by simp [member], shown⟩
  absent := by
    have noFront : '(' ∉ front := fun member => (inFront _ member).1 rfl
    have noType : '(' ∉ type := fun member => (inType _ member).1 rfl
    rcases inList with rfl | ⟨z, gap, rfl, noList, blank⟩
    · simp [noFront, noType]
    · have noGap : '(' ∉ gap := fun member => absurd (blank _ member) (by decide)
      simp [noFront, noType, noList, noGap]
  assigned := by
    intro x y same
    have noFront : '=' ∉ front := fun member => (inFront _ member).2 rfl
    have noType : '=' ∉ type := fun member => (inType _ member).2 rfl
    rcases inList with rfl | ⟨z, gap, rfl, -, blank⟩
    · have member : '=' ∈ front ++ ([] ++ type) := by
        rw [same]
        simp
      exact absurd member (by simp [noFront, noType])
    · have noGap : '=' ∉ gap := fun member => absurd (blank _ member) (by decide)
      have cut : (front ++ '<' :: z) ++ '>' :: (gap ++ type) = x ++ '=' :: y := by simpa using same
      rcases List.append_eq_append_iff.mp cut with ⟨u, -, rest⟩ | ⟨u, -, rest⟩
      · have member : '=' ∈ '>' :: (gap ++ type) := by simp [rest]
        exact absurd member (by simp [noGap, noType])
      · cases u with
        | nil => exact absurd (List.cons.inj rest).1 (by decide)
        | cons e u => simp [(List.cons.inj rest).2]

theorem AreQualifiers.isUnassigned {lead : Text} (h : AreQualifiers lead) : IsUnassigned lead := by
  rcases h with ⟨rounds, rfl, each⟩
  intro c member
  rcases List.mem_flatten.mp member with ⟨round, inRounds, inRound⟩
  rcases each round inRounds with ⟨word, blanks, rfl, isQualifier, -, blank⟩
  rcases List.mem_append.mp inRound with inWord | inBlanks
  · exact (by decide : ∀ word ∈ qualifiers, IsUnassigned word) word isQualifier c inWord
  · exact isUnassigned_of (by decide) blank c inBlanks

theorem IsResultText.isUnassigned {type : Text} (h : IsResultText type) :
    IsUnassigned type ∧ ∃ c ∈ type, isBlank c = false := by
  rcases h with ⟨base, rest, rfl, some, inBase, inRest, -⟩
  rcases List.exists_cons_of_ne_nil some with ⟨c, base, rfl⟩
  exact ⟨List.forall_mem_append.mpr ⟨isUnassigned_of (by decide) inBase,
    isUnassigned_of (by decide) inRest⟩,
    c, by simp, Character.not_isBlank_of_isDottedPart (inBase c List.mem_cons_self)⟩

/-- What stands in front of the parameters is cut behind the result type. -/
theorem IsFront.exists_resultPart {front result name : Text} (h : IsFront front result name) :
    ∃ lead gap gap', front = lead ++ (gap ++ (name ++ gap')) ∧ IsResultPart lead ∧
      Blank gap ∧ gap ≠ [] ∧
      (∀ c ∈ name, isNamePart c = true) ∧ Blank gap' := by
  rcases h with
    ⟨gap₁, quals, list, gap, gap', rfl, blank₁, areQualifiers, isList, isResult, ⟨blank, some⟩, ⟨-,
      inName⟩, blank'⟩
  have inFront : IsUnassigned (gap₁ ++ quals) :=
    List.forall_mem_append.mpr ⟨isUnassigned_of (by decide) blank₁, areQualifiers.isUnassigned⟩
  exact ⟨gap₁ ++ quals ++ (list ++ result), gap, gap', by simp,
    isResultPart_append inFront isResult.isUnassigned.1 isList isResult.isUnassigned.2, blank, some,
    inName, blank'⟩

theorem takes_signatureShape : Takes signatureShape fun s => ∃ lead gap name gap' rest,
    s = lead ++ (gap ++ (name ++ (gap' ++ '(' :: rest))) ∧ IsResultPart lead ∧
    Blank gap ∧ gap ≠ [] ∧
      (∀ c ∈ name, isNamePart c = true) ∧ Blank gap' := by
  apply yields_signatureShape.takes
  rintro parts _ ⟨_, rest, rfl, isFront⟩
  rcases isFront.exists_resultPart with ⟨lead, gap, gap', same, part⟩
  exact ⟨lead, gap, parts.name.text, gap', rest, by simp [same], part⟩

end Matcher

namespace Signature

/-- What the search for a keyword takes. -/
def IsKeywordPart (r : Text) : Prop :=
  r ≠ [] ∧ ∀ c ∈ r, isNamePart c = true ∨ isBlank c = true

theorem takes_visibilityWord : Takes Matcher.visibilityWord IsKeywordPart := by
  apply (((Matcher.takes_require _).orElse (Matcher.takes_one isBlank)).bind fun _ =>
    (Matcher.takes_anyOf Visibility.keywords).bind fun _ => Matcher.takes_run1 isBlank).mono
  rintro _ ⟨lead, _, rfl, edge, word, gap, rfl, isKeyword, some, blank⟩
  refine ⟨by simp [some], List.forall_mem_append.mpr ⟨?_, List.forall_mem_append.mpr ⟨?_, ?_⟩⟩⟩
  · rcases edge with rfl | ⟨c, rfl, isBlank⟩
    · exact List.forall_mem_nil _
    · exact List.forall_mem_singleton.mpr (Or.inr isBlank)
  · exact fun c member => Or.inl ((Lexeme.isKeyword_visibility word isKeyword).2 c member)
  · exact fun c member => Or.inr (blank c member)

theorem takes_finalWord : Takes Matcher.finalWord IsKeywordPart := by
  apply ((Matcher.takes_one isBlank).bind fun _ => (Matcher.takes_word "final".toList).bind fun _ =>
    Matcher.takes_one isBlank).mono
  rintro _ ⟨_, _, rfl, ⟨c, rfl, blank⟩, _, _, rfl, rfl, d, rfl, blank'⟩
  refine ⟨by simp, List.forall_mem_append.mpr ⟨?_, List.forall_mem_append.mpr ⟨by decide, ?_⟩⟩⟩
  · exact List.forall_mem_singleton.mpr (Or.inr blank)
  · exact List.forall_mem_singleton.mpr (Or.inr blank')

theorem IsKeywordPart.free {d : Char} (noName : isNamePart d = false) (shown : isBlank d = false) :
    ∀ r, IsKeywordPart r → r ≠ [] ∧ d ∉ r := by
  rintro r ⟨some, parts⟩
  refine ⟨some, fun member => ?_⟩
  have either := parts d member
  simp [noName, shown] at either

/-- Taking the keywords out puts spaces in, and leaves the parts of an area around a mark
apart. -/
theorem exists_bareArea_cut {d : Char} (noName : isNamePart d = false) (shown : isBlank d = false)
    (a b : Text) :
    ∃ a' b', bareArea (a ++ d :: b) = a' ++ d :: b' ∧ (∀ c ∈ a', c = ' ' ∨ c ∈ a) ∧
      ∀ c ∈ b', c = ' ' ∨ c ∈ b := by
  have free := IsKeywordPart.free noName shown
  rcases Matcher.exists_replaceAllFrom_cut takes_visibilityWord free [' '] [] a b
    with ⟨s, t, cut, inS, inT⟩
  rcases Matcher.exists_replaceAllFrom_cut takes_finalWord free [' '] [] s t
    with ⟨s', t', cut', inS', inT'⟩
  refine ⟨' ' :: s', t', ?_, List.forall_mem_cons.mpr ⟨Or.inl rfl, fun c member => ?_⟩,
    fun c member => ?_⟩
  · rw [bareArea, Matcher.replaceAll, Matcher.replaceAll, cut, cut']
    rfl
  · rcases inS' c member with new | old
    · exact Or.inl (List.mem_singleton.mp new)
    · exact (inS c old).imp_left List.mem_singleton.mp
  · rcases inT' c member with new | old
    · exact Or.inl (List.mem_singleton.mp new)
    · exact (inT c old).imp_left List.mem_singleton.mp

/-- A dotted name in front of a parenthesis is no keyword. -/
theorem exists_bareArea_call {w : Text} (word : IsWord (near w)) (b : Text) :
    ∃ b', bareArea (w ++ '(' :: b) = ' ' :: (w ++ '(' :: b') := by
  have free := IsKeywordPart.free (d := '(') (by decide) (by decide)
  have kept : ∀ {m : Matcher Unit} {words : List Text},
      Lexeme.Seeks m words → (∀ w ∈ words, Lexeme.IsKeyword w) →
      Takes m IsKeywordPart → ∀ b, ∃ b', m.replaceAll [' '] (w ++ '(' :: b) = w ++ '(' :: b' := by
    intro m words seeks keywords takes b
    have silent : Silent m [] ([] ++ (near w).text) ('(' :: b) :=
      Lexeme.silent_unparted seeks keywords (Or.inl word) Text.blank_nil
        (Or.inr (Matcher.stops_cons.mpr (by decide)))
        (Matcher.stops_cons.mpr (by decide)) []
    have behind := Matcher.replaceAllFrom_cons takes free [' '] (w.reverse ++ []) b
    exact ⟨_, (Matcher.replaceAllFrom_append silent).trans (congrArg (w ++ ·) behind)⟩
  rcases kept Lexeme.seeks_visibilityWord Lexeme.isKeyword_visibility takes_visibilityWord b with
    ⟨b', first⟩
  rcases kept Lexeme.seeks_finalWord Lexeme.isKeyword_final takes_finalWord b' with ⟨b'', second⟩
  exact ⟨b'', by rw [bareArea, first, second]⟩

/-- A statement that is an assignment without a closing angle bracket behind its sign, or
a call by a dotted name. -/
def IsAction (t : Text) : Prop :=
  (∃ a b, t = a ++ '=' :: b ∧ '(' ∉ a ∧ '>' ∉ b) ∨ ∃ w b, t = w ++ '(' :: b ∧ IsWord (near w)

theorem eq_of_absent {s s' rest rest' : Text} {c : Char} (absent : c ∉ s) (absent' : c ∉ s')
    (same : s ++ c :: rest = s' ++ c :: rest') : s = s' := by
  rcases List.append_eq_append_iff.mp same with ⟨u, rfl, behind⟩ | ⟨u, rfl, behind⟩
  · cases u with
    | nil => simp
    | cons d u => exact absurd (by simp [(List.cons.inj behind).1]) absent'
  · cases u with
    | nil => simp
    | cons d u => exact absurd (by simp [(List.cons.inj behind).1]) absent

section Shape

variable {lead gap name gap' : Text} (part : Matcher.IsResultPart lead) (blank : Blank gap)
  (inName : ∀ c ∈ name, isNamePart c = true) (blank' : Blank gap')
include blank inName blank'

/-- Blanks and a name are no mark. -/
theorem not_mem_named {d : Char} (noName : isNamePart d = false) (shown : isBlank d = false) :
    d ∉ gap ++ (name ++ gap') := by
  simp only [List.mem_append, not_or]
  exact ⟨fun member => absurd (blank d member) (by simp [shown]),
    fun member => absurd (inName d member) (by simp [noName]),
    fun member => absurd (blank' d member) (by simp [shown])⟩

include part

theorem not_signature_of_assignment {a b rest : Text} (noCall : '(' ∉ a) (noBracket : '>' ∉ b) :
    a ++ '=' :: b ≠ lead ++ (gap ++ (name ++ gap')) ++ '(' :: rest := by
  intro same
  have noSign := not_mem_named blank inName blank' (d := '=') (by decide) (by decide)
  -- the sign stands in front of the parenthesis, so it stands in front of the name
  have inFront : ∃ u, lead = a ++ '=' :: u ∧ ∀ c ∈ u, c ∈ b := by
    rcases List.append_eq_append_iff.mp same with ⟨u, front, rest⟩ | ⟨u, rfl, rest⟩
    · cases u with
      | nil => exact absurd (List.cons.inj rest).1 (by decide)
      | cons d u =>
          rcases List.cons.inj rest with ⟨rfl, rfl⟩
          rcases List.append_eq_append_iff.mp front with ⟨v, -, named⟩ | ⟨v, isLead, named⟩
          · exact absurd (named ▸ by simp) noSign
          · cases v with
            | nil => exact absurd (named ▸ by simp) noSign
            | cons e v =>
                rcases List.cons.inj named with ⟨rfl, rfl⟩
                exact ⟨v, isLead, fun c member => by simp [member]⟩
    · cases u with
      | nil => exact absurd (List.cons.inj rest).1 (by decide)
      | cons d u =>
          rcases List.cons.inj rest with ⟨rfl, -⟩
          exact absurd (by simp) noCall
  rcases inFront with ⟨u, isLead, inside⟩
  exact noBracket (inside _ (part.assigned a u isLead))

theorem not_signature_of_call {w b rest : Text} (some : gap ≠ []) (word : IsWord (near w)) :
    ' ' :: (w ++ '(' :: b) ≠ lead ++ (gap ++ (name ++ gap')) ++ '(' :: rest := by
  intro same
  have noCall := not_mem_named blank inName blank' (d := '(') (by decide) (by decide)
  have noCall' : '(' ∉ ' ' :: w := by
    simpa using fun member => absurd (word.2 _ member) (by decide)
  have noCall'' : '(' ∉ lead ++ (gap ++ (name ++ gap')) := fun member =>
    (List.mem_append.mp member).elim part.absent noCall
  have front : ' ' :: w = lead ++ (gap ++ (name ++ gap')) :=
    eq_of_absent noCall' noCall'' same
  rcases part.visible with ⟨c, member, -⟩
  rcases List.exists_cons_of_ne_nil (List.ne_nil_of_mem member) with ⟨d, lead, rfl⟩
  rcases List.exists_cons_of_ne_nil some with ⟨e, gap, rfl⟩
  have inWord : e ∈ w := by simp [(List.cons.inj front).2]
  exact absurd (word.2 e inWord)
    (by simp [Character.not_isDottedPart_of_isBlank (blank e List.mem_cons_self)])

end Shape

/-- No action is read as a signature. -/
theorem ofArea?_of_isAction {area : Text} (h : IsAction area) : ofArea? area = none := by
  have dead : Matcher.signatureShape ⟨[], bareArea area⟩ = [] := by
    apply Matcher.takes_signatureShape.eq_nil
    rintro _ more same ⟨lead, gap, name, gap', rest, rfl, part, blank, some, inName, blank'⟩
    have shape : bareArea area = lead ++ (gap ++ (name ++ gap')) ++ '(' :: (rest ++ more) := by
      simpa using same
    rcases h with ⟨a, b, rfl, noCall, noBracket⟩ | ⟨w, b, rfl, word⟩
    · rcases exists_bareArea_cut (d := '=') (by decide) (by decide) a b with ⟨a', b', cut, inA, inB⟩
      have noCall' : '(' ∉ a' := fun member => (inA _ member).elim (by decide) noCall
      have noBracket' : '>' ∉ b' := fun member => (inB _ member).elim (by decide) noBracket
      exact not_signature_of_assignment part blank inName blank' noCall' noBracket'
        (cut.symm.trans shape)
    · rcases exists_bareArea_call word b with ⟨b', cut⟩
      exact not_signature_of_call part blank inName blank' some word (cut.symm.trans shape)
  rw [ofArea?, Matcher.read?, Place.start, dead]
  rfl

end Signature

/-- A text without an opening brace is read as no constructor. -/
theorem Constructor.ofArea?_of_not_mem {area : Text} (absent : '\x7b' ∉ area)
    (policy : ExtractionPolicy) (scope : NameScope) (className : Text) :
    Constructor.ofArea? policy scope className area = none := by
  have dead : Matcher.constructorShape className ⟨[], area⟩ = [] := by
    apply (MethodForm.takes_constructorShape className).eq_nil
    rintro _ t rfl ⟨x, gap, rest, rfl, -, -, brace⟩
    exact absent (by simp [brace])
  rw [Constructor.ofArea?, Matcher.read?, Place.start, dead]
  rfl

end Testwright
