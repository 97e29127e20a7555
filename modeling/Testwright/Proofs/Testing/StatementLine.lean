import Testwright.Proofs.Declaration.Action
import Testwright.Proofs.Declaration.Statement
import Testwright.Proofs.Testing.Rendered
import Testwright.Proofs.Text.Lined

namespace Testwright
namespace TestPlan

/-!
# Statements of normalized bodies

Every statement of a generated body is a line of its own, and normalization empties its
literals of characters (`givesStatement_of_mem_bodyLines`).  What is left is a call or an
assignment in one of three shapes, and none of them is read as a part of a class: a line
has itself for an area at most, that area declares neither a method nor a constructor,
and no package or import statement begins in it.
-/

open Character (isBlank isDottedPart isNamePart isWord)
open Matcher (Silent)
open Region (Writes isCalm isQuiet)
open Text (BecomesLine Blank Terminated Unbroken)

/-! ## What the scan leaves of a statement -/

/-- Code and literals of characters, and what the scan makes of them. -/
inductive Blanked : Text → Text → Prop
  | code {t : Text} (code : ∀ c ∈ t, isCodePart c = true) : Blanked t t
  | literal : Blanked "'\\u0000'".toList ['\x27', '\x27']
  | append {s t w v : Text} (first : Blanked s w) (second : Blanked t v) : Blanked (s ++ t) (w ++ v)

variable {s t w v : Text}

theorem Blanked.composed (h : Blanked s w) : Composed s := by
  induction h with
  | code code => exact .code code
  | literal => exact .placeholder (TypeTree.named "char".toList)
  | append _ _ first second => exact first.append second

theorem Blanked.forall_mem (h : Blanked s w) : ∀ c ∈ w, isCodePart c = true ∨ c = '\x27' := by
  induction h with
  | code code => exact fun c member => Or.inl (code c member)
  | literal => decide
  | append _ _ first second => exact List.forall_mem_append.mpr ⟨first, second⟩

theorem Blanked.ne (h : Blanked s w) {c : Char} (member : c ∈ w) {d : Char}
    (other : isCodePart d = false) (other' : d ≠ '\x27') : c ≠ d := by
  rcases h.forall_mem c member with code | rfl
  · exact ne_of_isCodePart code other
  · exact Ne.symm other'

/-- The scan empties the literals, and a second scan changes nothing. -/
theorem Blanked.writes (h : Blanked s w) : Writes s w ∧ Writes w w := by
  induction h with
  | @code t code =>
      have quiet : Writes t t := Region.writes_quiet fun c member => by
        have other := fun d => ne_of_isCodePart (d := d) (code c member)
        simp [isQuiet, other '/' (by decide), other '\x27' (by decide), other '"' (by decide)]
      exact ⟨quiet, quiet⟩
  | literal => exact ⟨⟨by decide, by decide⟩, by decide, by decide⟩
  | append first second ih ih' =>
      refine ⟨ih.1.append ih'.1 (Or.inl fun c last => ?_),
        ih.2.append ih'.2 (Or.inl fun c last => ?_)⟩
      · exact (first.composed.ordinary.calm c (List.mem_of_getLast? last)).1
      · have other := fun d => first.ne (List.mem_of_getLast? last) (d := d)
        simp [isCalm, other '/' (by decide) (by decide), other '*' (by decide) (by decide),
          other '"' (by decide) (by decide)]

/-- A statement with something visible at its end becomes this line, and this line stays
as it is. -/
theorem Blanked.becomesLine (h : Blanked s w) {a : Text} {c : Char} (shape : w = a ++ [c])
    (visible : isBlank c = false) : BecomesLine s w ∧ BecomesLine w w := by
  have nonempty : w ≠ [] := by simp [shape]
  have last : ∀ d, w.getLast? = some d → isBlank d = false := fun d last => by
    rw [shape, List.getLast?_concat] at last
    rwa [← Option.some.inj last]
  have plain : ∀ d ∈ w, d ≠ '@' ∧ d ≠ '\t' ∧ d ≠ '\n' := fun d member =>
    ⟨h.ne member (by decide) (by decide), h.ne member (by decide) (by decide),
      h.ne member (by decide) (by decide)⟩
  have unbroken : Unbroken w := fun d member =>
    ⟨h.ne member (by decide) (by decide), h.ne member (by decide) (by decide)⟩
  have nonempty' : s ≠ [] := by
    rintro rfl
    exact nonempty h.writes.1.1.symm
  exact ⟨⟨nonempty', fun d member => (h.composed.plain d member).2, h.writes.1, plain, last⟩,
    ⟨nonempty, unbroken, h.writes.2, plain, last⟩⟩

/-! ## Statements as lines -/

/-- A character of an argument or an operand, once literals are empty. -/
def isOperandPart (c : Char) : Bool :=
  isDottedPart c || " ,()\x27".toList.any (· == c)

/-- The placeholders of the types, once literals are empty. -/
def presets : List Text :=
  ("null".toList :: TypeTree.primitivePlaceholders.map Prod.snd).map fun placeholder =>
    if placeholder = "'\\u0000'".toList then ['\x27', '\x27'] else placeholder

/-- A call, an assignment of a call, or an assignment of a placeholder, on a line. -/
inductive IsStatementLine : Text → Prop
  | call {name arguments : Text} (some : name ≠ []) (dotted : ∀ c ∈ name, isDottedPart c = true)
      (inside : ∀ c ∈ arguments, isOperandPart c = true) :
      IsStatementLine (name ++ '(' :: (arguments ++ ");".toList))
  | assignment {front value : Text} (left : ∀ c ∈ front, TypeTree.isWritten c = true)
      (right : ∀ c ∈ value, isOperandPart c = true) :
      IsStatementLine (front ++ '=' :: (value ++ ");".toList))
  | preset {front value : Text} (left : ∀ c ∈ front, TypeTree.isWritten c = true)
      (isPreset : value ∈ presets) :
      IsStatementLine (front ++ '=' :: ' ' :: (value ++ ";".toList))

/-- A character of a statement in front of its semicolon. -/
def isStatementPart (c : Char) : Bool :=
  TypeTree.isWritten c || isOperandPart c || c == '='

theorem isStatementPart_of_isWritten {t : Text} (h : ∀ c ∈ t, TypeTree.isWritten c = true) :
    ∀ c ∈ t, isStatementPart c = true :=
  fun c member => by simp [isStatementPart, h c member]

theorem isStatementPart_of_isOperandPart {t : Text} (h : ∀ c ∈ t, isOperandPart c = true) :
    ∀ c ∈ t, isStatementPart c = true :=
  fun c member => by simp [isStatementPart, h c member]

theorem isOperandPart_of_dotted {t : Text} (h : ∀ c ∈ t, isDottedPart c = true) :
    ∀ c ∈ t, isOperandPart c = true :=
  fun c member => by simp [isOperandPart, h c member]

theorem isOperandPart_of_mem_presets : ∀ value ∈ presets, ∀ c ∈ value, isOperandPart c = true := by
  decide

namespace IsStatementLine

variable {line : Text} (h : IsStatementLine line)
include h

theorem exists_concat : ∃ a, line = a ++ [';'] ∧ ∀ c ∈ a, isStatementPart c = true := by
  cases h with
  | @call name arguments some dotted inside =>
      refine ⟨name ++ '(' :: (arguments ++ [')']), by simp, ?_⟩
      exact List.forall_mem_append.mpr
        ⟨isStatementPart_of_isOperandPart (isOperandPart_of_dotted dotted),
        List.forall_mem_cons.mpr ⟨by decide, List.forall_mem_append.mpr
          ⟨isStatementPart_of_isOperandPart inside, by decide⟩⟩⟩
  | @assignment front value left right =>
      refine ⟨front ++ '=' :: (value ++ [')']), by simp, ?_⟩
      exact List.forall_mem_append.mpr ⟨isStatementPart_of_isWritten left,
        List.forall_mem_cons.mpr ⟨by decide, List.forall_mem_append.mpr
          ⟨isStatementPart_of_isOperandPart right, by decide⟩⟩⟩
  | @preset front value left isPreset =>
      refine ⟨front ++ '=' :: ' ' :: value, by simp, ?_⟩
      exact List.forall_mem_append.mpr ⟨isStatementPart_of_isWritten left,
        List.forall_mem_cons.mpr ⟨by decide, List.forall_mem_cons.mpr ⟨by decide,
          isStatementPart_of_isOperandPart (isOperandPart_of_mem_presets value isPreset)⟩⟩⟩

theorem ne {c d : Char} (member : c ∈ line) (other : isStatementPart d = false) (other' : d ≠ ';') :
    c ≠ d := by
  rcases h.exists_concat with ⟨a, rfl, parts⟩
  rintro rfl
  rcases List.mem_append.mp member with inside | last
  · rw [parts c inside] at other
    cases other
  · exact other' (List.mem_singleton.mp last)

theorem terminated : Terminated line := by
  rcases h.exists_concat with ⟨a, rfl, -⟩
  exact Or.inr ⟨a, ';', rfl, rfl⟩

/-! ### Declarations -/

/-- Without the blanks in front of it, the line is an action still. -/
theorem isAction {gap area : Text} (blank : Blank gap) (whole : line = gap ++ area) :
    Signature.IsAction area := by
  have assigned : ∀ {front value : Text}, (∀ c ∈ front, TypeTree.isWritten c = true) → '>' ∉ value →
      line = front ++ '=' :: value → Signature.IsAction area := by
    intro front value left noBracket shape
    have noGap : '=' ∉ gap := fun member => absurd (blank _ member) (by decide)
    rcases Text.exists_behind noGap (whole.symm.trans shape) with ⟨front', rfl, rfl⟩
    refine Or.inl ⟨front', value, rfl, fun member => ?_, noBracket⟩
    exact absurd (left _ (List.mem_append_right gap member)) (by decide)
  cases h with
  | @call name arguments some dotted inside =>
      have front : ∀ c, (gap ++ area).head? = Option.some c → isBlank c = false := by
        intro c head
        rw [← whole, List.head?_append_of_ne_nil _ some] at head
        exact Character.not_isBlank_of_isDottedPart (dotted c (List.mem_of_mem_head? head))
      obtain rfl := blank.eq_nil_of_front front
      exact Or.inr ⟨name, _, whole.symm, some, dotted⟩
  | assignment left right =>
      refine assigned left (fun member => ?_) rfl
      rcases List.mem_append.mp member with inside | last
      · exact absurd (right _ inside) (by decide)
      · exact absurd last (by decide)
  | @preset front value left isPreset =>
      refine assigned left (fun member => ?_) rfl
      rcases List.mem_cons.mp member with same | member
      · exact absurd same (by decide)
      · rcases List.mem_append.mp member with inside | last
        · exact absurd (isOperandPart_of_mem_presets value isPreset _ inside) (by decide)
        · exact absurd last (by decide)

/-- No area of the line declares a method or a constructor. -/
theorem not_declared {area : Text} (member : area ∈ Text.areas line) :
    Signature.ofArea? area = none ∧
    ∀ policy scope className, Constructor.ofArea? policy scope className area = none := by
  rcases h.exists_concat with ⟨a, rfl, parts⟩
  have unterminated : Text.Unterminated a := fun c inside => by
    have other : ∀ d, isStatementPart d = false → c ≠ d := by
      rintro d none rfl
      rw [parts c inside] at none
      cases none
    simp [Text.isTerminator, other ';' (by decide), other '\x7b' (by decide), other '}' (by decide)]
  have unbroken : Unbroken (a ++ [';']) := fun c inside =>
    ⟨h.ne inside (by decide) (by decide), h.ne inside (by decide) (by decide)⟩
  rcases Text.exists_of_mem_areas unterminated (by decide) (by decide) unbroken member with
    ⟨gap, blank, whole⟩
  refine ⟨Signature.ofArea?_of_isAction (h.isAction blank whole), fun policy scope className => ?_⟩
  apply Constructor.ofArea?_of_not_mem
  intro brace
  have inLine : '\x7b' ∈ a ++ [';'] := by
    rw [whole]
    exact List.mem_append_right gap brace
  exact h.ne inLine (by decide) (by decide) rfl

/-! ### Statements of the header -/

/-- No package or import statement begins in the line. -/
theorem silent {α : Type} {m : Matcher α} {key : Text} {opens passes : Char → Bool}
    (statement : Lexeme.IsStatement m key opens passes) (assign : passes '=' = false)
    (absent : ∀ value ∈ presets, Text.mentions (' ' :: value) key = false) (behind rest : Text) :
    Silent m behind line rest := by
  have ended : ∀ behind, Silent m behind [';'] rest := fun behind =>
    Lexeme.silent_of_not_word statement.opened (by decide) behind rest
  have close : passes ')' = false := (statement.marks ')' (by decide)).1
  have closed : ∀ a : Text, (∀ c ∈ a, isStatementPart c = true) →
      Silent m behind (a ++ [')'] ++ [';']) rest := by
    intro a parts
    have noEnd : ';' ∉ a := fun member => absurd (parts _ member) (by decide)
    exact Matcher.silent_append.mpr
      ⟨Lexeme.silent_through_mark statement noEnd close (by decide) (by decide) _ _, ended _⟩
  cases h with
  | @call name arguments some dotted inside =>
      have parts : ∀ c ∈ name ++ '(' :: arguments, isStatementPart c = true :=
        List.forall_mem_append.mpr
          ⟨isStatementPart_of_isOperandPart (isOperandPart_of_dotted dotted),
          List.forall_mem_cons.mpr ⟨by decide, isStatementPart_of_isOperandPart inside⟩⟩
      simpa using closed _ parts
  | @assignment front value left right =>
      have parts : ∀ c ∈ front ++ '=' :: value, isStatementPart c = true :=
        List.forall_mem_append.mpr ⟨isStatementPart_of_isWritten left,
          List.forall_mem_cons.mpr ⟨by decide, isStatementPart_of_isOperandPart right⟩⟩
      simpa using closed _ parts
  | @preset front value left isPreset =>
      have noEnd : ';' ∉ front := fun member => absurd (left _ member) (by decide)
      have first : Silent m behind (front ++ ['=']) (' ' :: value ++ [';'] ++ rest) :=
        Lexeme.silent_through_mark statement noEnd assign (by decide) (by decide) _ _
      have second : Silent m ((front ++ ['=']).reverse ++ behind) (' ' :: value) (';' :: rest) :=
        Lexeme.silent_of_unmentioned statement (absent value isPreset) (by decide) _ _
      have whole := Matcher.silent_append.mpr ⟨first, Matcher.silent_append.mpr
        ⟨second, ended ((' ' :: value).reverse ++ ((front ++ ['=']).reverse ++ behind))⟩⟩
      simpa using whole

end IsStatementLine

/-! ## The lines of a body -/

/-- A character of a name or of a list of names. -/
def isListed (c : Char) : Bool :=
  isDottedPart c || " ,()".toList.any (· == c)

theorem isListed_of_isNamePart {t : Text} (h : ∀ c ∈ t, isNamePart c = true) :
    ∀ c ∈ t, isListed c = true :=
  fun c member => by simp [isListed, Character.isDottedPart_of_isNamePart (h c member)]

theorem isOperandPart_of_isListed {t : Text} (h : ∀ c ∈ t, isListed c = true) :
    ∀ c ∈ t, isOperandPart c = true := by
  intro c member
  have listed := h c member
  simp only [isListed, Bool.or_eq_true, List.any_eq_true, beq_iff_eq, exists_eq_right] at listed
  rcases listed with dotted | mark
  · simp [isOperandPart, dotted]
  · exact (by decide : ∀ c ∈ " ,()".toList, isOperandPart c = true) c mark

theorem blanked_of_isListed {t : Text} (h : ∀ c ∈ t, isListed c = true) : Blanked t t := by
  refine .code fun c member => ?_
  have listed := h c member
  simp only [isListed, Bool.or_eq_true, List.any_eq_true, beq_iff_eq, exists_eq_right] at listed
  rcases listed with dotted | mark
  · simp [isCodePart, dotted]
  · exact (by decide : ∀ c ∈ " ,()".toList, isCodePart c = true) c mark

theorem blanked_of_isWritten {t : Text} (h : ∀ c ∈ t, TypeTree.isWritten c = true) : Blanked t t :=
  .code fun c member => isCodePart_of_isWritten (h c member)

theorem isWritten_of_isNamePart {t : Text} (h : ∀ c ∈ t, isNamePart c = true) :
    ∀ c ∈ t, TypeTree.isWritten c = true := fun c member => by
  simp [TypeTree.isWritten, TypeTree.isTypePart, Character.isDottedPart_of_isNamePart (h c member)]

theorem exists_preset (type : TypeTree) : ∃ value ∈ presets, Blanked type.placeholder value := by
  have member := List.mem_map_of_mem (placeholder_mem type)
    (f := fun placeholder =>
      if placeholder = "'\\u0000'".toList then ['\x27', '\x27'] else placeholder)
  refine ⟨_, member, ?_⟩
  by_cases literal : type.placeholder = "'\\u0000'".toList
  · rw [if_pos literal, literal]
    exact .literal
  · rw [if_neg literal]
    exact .code ((placeholder_cases type).resolve_left literal)

theorem exists_blanked_intercalate {between : Text} (listed : ∀ c ∈ between, isListed c = true)
    {texts : List Text} (each : ∀ t ∈ texts, ∃ w, Blanked t w ∧ ∀ c ∈ w, isOperandPart c = true) :
    ∃ w, Blanked (between.intercalate texts) w ∧ ∀ c ∈ w, isOperandPart c = true := by
  induction texts with
  | nil => exact ⟨[], .code (List.forall_mem_nil _), List.forall_mem_nil _⟩
  | cons t texts ih =>
      rcases each t List.mem_cons_self with ⟨w, first, operand⟩
      rcases ih fun u member => each u (List.mem_cons_of_mem t member) with ⟨v, rest, operand'⟩
      cases texts with
      | nil => exact ⟨w, by simpa using first, operand⟩
      | cons u texts =>
          rw [Text.intercalate_cons_of_ne_nil between t (List.cons_ne_nil u texts)]
          refine ⟨w ++ (between ++ v), first.append ((blanked_of_isListed listed).append rest), ?_⟩
          exact List.forall_mem_append.mpr ⟨operand, List.forall_mem_append.mpr
            ⟨isOperandPart_of_isListed listed, operand'⟩⟩

theorem exists_blanked_placeholders (types : List TypeTree) :
    ∃ w, Blanked (placeholders types) w ∧ ∀ c ∈ w, isOperandPart c = true := by
  apply exists_blanked_intercalate (by decide)
  intro t member
  rcases List.mem_map.mp member with ⟨type, -, rfl⟩
  rcases exists_preset type with ⟨value, isPreset, blanked⟩
  exact ⟨value, blanked, isOperandPart_of_mem_presets value isPreset⟩

theorem isListed_of_mem_intercalate {names : List Text}
    (each : ∀ name ∈ names, ∀ c ∈ name, isNamePart c = true) :
    ∀ c ∈ ", ".toList.intercalate names, isListed c = true := by
  intro c member
  rcases Text.mem_intercalate member with between | ⟨name, inNames, inName⟩
  · exact (by decide : ∀ c ∈ ", ".toList, isListed c = true) c between
  · exact isListed_of_isNamePart (each name inNames) c inName

/-- Normalization makes a statement line of the line. -/
def GivesStatement (line : Text) : Prop :=
  ∃ w, Blanked line w ∧ IsStatementLine w

theorem givesStatement_call {name arguments : Text} (some : name ≠ [])
    (dotted : ∀ c ∈ name, isDottedPart c = true) (listed : ∀ c ∈ arguments, isListed c = true) :
    GivesStatement (name ++ '(' :: (arguments ++ ");".toList)) := by
  refine ⟨_, ?_, .call some dotted (isOperandPart_of_isListed listed)⟩
  have name' : Blanked name name :=
    blanked_of_isListed fun c member => by simp [isListed, dotted c member]
  exact name'.append ((Blanked.code (t := ['(']) (by decide)).append
    ((blanked_of_isListed listed).append (.code (by decide))))

theorem givesStatement_assignment {front value w : Text}
    (left : ∀ c ∈ front, TypeTree.isWritten c = true) (blanked : Blanked value w)
    (right : ∀ c ∈ w, isOperandPart c = true) :
    GivesStatement (front ++ '=' :: (value ++ ");".toList)) :=
  ⟨_, (blanked_of_isWritten left).append ((Blanked.code (t := ['=']) (by decide)).append
    (blanked.append (.code (by decide)))), .assignment left right⟩

theorem givesStatement_variableLine {type : TypeTree} (isNamed : type.isNamed = true) {name : Text}
    (inName : ∀ c ∈ name, isNamePart c = true) : GivesStatement (variableLine type name) := by
  rcases exists_preset type with ⟨value, isPreset, blanked⟩
  have left : ∀ c ∈ type.render ++ (' ' :: name ++ [' ']), TypeTree.isWritten c = true :=
    List.forall_mem_append.mpr ⟨TypeTree.isWritten_of_mem_render isNamed, List.forall_mem_append.mpr
      ⟨List.forall_mem_cons.mpr ⟨by decide, isWritten_of_isNamePart inName⟩, by decide⟩⟩
  have shape : variableLine type name =
      (type.render ++ (' ' :: name ++ [' '])) ++
        ("= ".toList ++ (type.placeholder ++ ";".toList)) := by
    have parted : " = ".toList = ' ' :: "= ".toList := rfl
    simp only [variableLine, parted, List.append_assoc, List.cons_append, List.nil_append]
  rw [shape]
  exact ⟨_,
    (blanked_of_isWritten left).append
      ((Blanked.code (by decide)).append (blanked.append (.code (by decide)))),
    .preset left isPreset⟩

theorem givesStatement_comparisonLine (type : TypeTree) : GivesStatement (comparisonLine type) := by
  have named : ∀ arguments : Text, (∀ c ∈ arguments, isListed c = true) →
      GivesStatement ("assertEquals".toList ++ '(' :: (arguments ++ ");".toList)) := fun _ =>
    givesStatement_call (by decide) (by decide)
  have either : ∀ inexact : Bool, GivesStatement ("assertEquals(expected, actual".toList ++
      (if inexact then ", 0.0".toList else []) ++ ");".toList) := by
    rintro (_ | _)
    · exact named "expected, actual".toList (by decide)
    · exact named "expected, actual, 0.0".toList (by decide)
  exact either _

section Body

variable {target : ClassSurface} (named : target.IsNamed)
include named

theorem givesStatement_instantiationLine : GivesStatement (instantiationLine target) := by
  rcases exists_blanked_placeholders
    ((target.preferredConstructor?.map Constructor.parameterTypes).getD [])
    with ⟨w, blanked, operand⟩
  have left : ∀ c ∈ target.name ++ " target ".toList, TypeTree.isWritten c = true :=
    List.forall_mem_append.mpr ⟨isWritten_of_isNamePart named.name, by decide⟩
  have listed : ∀ c ∈ " new ".toList ++ (target.name ++ ['(']), isListed c = true :=
    List.forall_mem_append.mpr ⟨by decide,
      List.forall_mem_append.mpr ⟨isListed_of_isNamePart named.name, by decide⟩⟩
  have shape : instantiationLine target = (target.name ++ " target ".toList) ++ '=' ::
      (" new ".toList ++ (target.name ++ ['(']) ++ placeholders
        ((target.preferredConstructor?.map Constructor.parameterTypes).getD []) ++
          ");".toList) := by
    have parted : " target = new ".toList = " target ".toList ++ '=' :: " new ".toList := rfl
    simp only [instantiationLine, parted, List.append_assoc, List.cons_append, List.nil_append]
  rw [shape]
  exact givesStatement_assignment left ((blanked_of_isListed listed).append blanked)
    (List.forall_mem_append.mpr ⟨isOperandPart_of_isListed listed, operand⟩)

section Method

variable {method : Method} (isNamed : method.IsNamed)
include isNamed

theorem givesStatement_of_mem_methodLines :
    ∀ line ∈ methodLines target method, GivesStatement line := by
  have receiver := isNamePart_of_mem_receiverOf named method
  have listed := isListed_of_mem_intercalate isNamed.parameterNames
  have dotted : ∀ c ∈ receiverOf target method ++ '.' :: method.name, isDottedPart c = true :=
    List.forall_mem_append.mpr
      ⟨fun c inside => Character.isDottedPart_of_isNamePart (receiver c inside),
      List.forall_mem_cons.mpr ⟨by decide, fun c inside =>
        Character.isDottedPart_of_isNamePart (isNamed.name c inside)⟩⟩
  intro line member
  rcases mem_methodLines member with
    rfl | ⟨parameter, inside, rfl⟩ | ⟨-, rfl⟩ | ⟨type, returned, rfl | rfl | rfl⟩
  · exact givesStatement_instantiationLine named
  · have parts := isNamed_of_mem_parameters isNamed inside
    exact givesStatement_variableLine parts.1 parts.2
  · have call := givesStatement_call (by simp) dotted listed
    simpa [callOf] using call
  · have left : ∀ c ∈ type.render ++ " actual ".toList, TypeTree.isWritten c = true :=
      List.forall_mem_append.mpr
        ⟨TypeTree.isWritten_of_mem_render (isNamed.returnType type returned), by decide⟩
    have right : ∀ c ∈ ' ' :: (receiverOf target method ++ '.' :: method.name) ++
        '(' :: ", ".toList.intercalate method.parameterNames, isListed c = true :=
      List.forall_mem_append.mpr ⟨List.forall_mem_cons.mpr ⟨by decide, fun c inside => by
        simp [isListed, dotted c inside]⟩, List.forall_mem_cons.mpr ⟨by decide, listed⟩⟩
    have assigned :=
      givesStatement_assignment left (blanked_of_isListed right) (isOperandPart_of_isListed right)
    simpa [callOf] using assigned
  · exact givesStatement_variableLine (isNamed.returnType type returned) (by decide)
  · exact givesStatement_comparisonLine type

end Method

/-- Normalization makes a statement line of every line of a generated body. -/
theorem givesStatement_of_mem_bodyLines {subject : Subject} (isNamed : subject.IsNamed) :
    ∀ line ∈ bodyLines target subject, GivesStatement line := by
  have checked : ∀ arguments : Text, (∀ c ∈ arguments, isListed c = true) →
      GivesStatement ("assertNotNull".toList ++ '(' :: (arguments ++ ");".toList)) := fun _ =>
    givesStatement_call (by decide) (by decide)
  intro line member
  cases subject with
  | type =>
      rw [bodyLines, List.mem_singleton] at member
      rw [member]
      have call := checked (target.name ++ ".class".toList)
        (List.forall_mem_append.mpr ⟨isListed_of_isNamePart named.name, by decide⟩)
      simpa using call
  | instantiation =>
      rw [bodyLines, List.mem_cons, List.mem_singleton] at member
      rcases member with rfl | rfl
      · exact givesStatement_instantiationLine named
      · exact checked "target".toList (by decide)
  | method place method => exact givesStatement_of_mem_methodLines named isNamed line member

end Body

end TestPlan
end Testwright
