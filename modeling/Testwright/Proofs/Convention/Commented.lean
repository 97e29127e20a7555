import Testwright.Proofs.Convention.BaseClass
import Testwright.Proofs.Text.Lines
import Testwright.Proofs.Text.Unread

namespace Testwright

/-!
# Comments and the convention

The convention of a source is told from its raw text, comments and all.  A comment on
lines of its own goes unnoticed if it holds nothing that is looked for: no brace, which
ends the header and opens a class, no beginning of a class header, no line with the mark
and no import of it (`IsUnnoticed`).  Behind a part that leaves no statement and no class
header open, these comments are exactly the ones that may be left out
(`isUnnoticed_iff`).
-/

open Character (isBlank isNamePart)
open HeaderStatement (EndsApart header isWordingPart)
open Matcher (Stops classHeader extendsTestCase)
open Text (Blank EndsLine blockComment)

namespace Matcher

/-- Behind the clauses anything may stand that closes no bracket. -/
theorem AreClauses.append_right {angles clauses tail : Text} (h : AreClauses angles clauses)
    (noBracket : '>' ∉ tail) :
    AreClauses angles (clauses ++ tail) := by
  rcases h with angled | ⟨rfl, none⟩
  · exact Or.inl angled
  · refine Or.inr ⟨rfl, fun gap inner rest blank same => ?_⟩
    have cut : clauses ++ tail = (gap ++ '<' :: inner) ++ '>' :: rest := by simp [same]
    rcases List.append_eq_append_iff.mp cut with ⟨v, -, inTail⟩ | ⟨v, inClauses, closing⟩
    · exact noBracket (by simp [inTail])
    · cases v with
      | nil => exact noBracket (by rw [← List.nil_append tail, ← closing]; simp)
      | cons c v =>
          rcases List.cons.inj closing with ⟨rfl, -⟩
          exact none gap inner v blank (by simp [inClauses])

end Matcher

namespace ClassHeader

variable {behind : Text}

/-- A text that ends a line, apart from what follows, has all of the heading of a class
header that begins in it. -/
theorem Opens.of_append {y r : Text} (h : Opens behind (y ++ r)) (noBrace : '\x7b' ∉ y)
    (feed : y.getLast? = some '\n') (ends : EndsApart y) (r' : Text) :
    Opens behind (y ++ '\x7b' :: r') := by
  rcases h with ⟨⟨lead, heading, angles, clauses⟩, rest, whole, fits⟩
  rcases Text.exists_behind noBrace whole with ⟨z, text, -⟩
  have parts : (lead ++ heading) ++ (angles ++ clauses) = y ++ z := by
    rw [← text]
    simp [Parts.text]
  rcases List.append_eq_append_iff.mp parts with ⟨b, rfl, body⟩ | ⟨v, front, -⟩
  · have stops : Stops isNamePart (angles ++ clauses) := fits.stops
    rw [body] at stops
    rcases Matcher.exists_clauses b with ⟨angles', clauses', rfl, parted⟩
    have absent : '\x7b' ∉ angles' ++ clauses' :=
      fun member => noBrace (List.mem_append_right _ member)
    exact ⟨⟨lead, heading, angles', clauses'⟩, r', by simp [Parts.text],
      fits.lead, fits.heading, Matcher.stops_of_append stops, parted, absent⟩
  · -- the line break would stand in the heading, behind a name
    rcases List.getLast?_eq_some_iff.mp feed with ⟨u, rfl⟩
    have noFeed : '\n' ∉ lead :=
      fun member => absurd (isSpaceOrTab_or_mark fits _ member) (by decide)
    have cut : lead ++ heading = u ++ '\n' :: v := by simpa using front
    rcases Text.exists_behind noFeed cut with ⟨h, rfl, rfl⟩
    rcases Text.blank_or_exists_visible h with blank | ⟨w, c, gap, rfl, shown, blank⟩
    · have blanks : Blank (h ++ ['\n']) := blank.append (by decide)
      have spaces : ∀ c ∈ ([] : Text), Header.isSpaceOrTab c = true := by simp
      have same : (h ++ ['\n']) ++ v = [] ++ ((h ++ '\n' :: v) ++ []) := by simp
      exact absurd same (heading_ne_of_newline spaces fits.heading blanks (by simp))
    · have named : isNamePart c = true :=
        (Matcher.isNamePart_or_isBlank fits.heading c (by simp)).resolve_right (by simp [shown])
      have other := ends (lead ++ w) c (gap ++ ['\n']) (by simp) shown (blank.append (by decide))
      rw [HeaderStatement.isWordingPart_of_isNamePart named] at other
      cases other

theorem occursIn_eq_false_iff {t : Text} :
    classHeader.occursIn t = false ↔ ∀ x y, t = x ++ y → ¬ Opens x.reverse y := by
  simp only [Matcher.occursIn_eq_false_iff, ← ne_nil_iff, ne_eq, not_not]

/-- A part that leaves no class header open settles its headers whatever follows. -/
theorem extendsFrom_append_congr {p u u' : Text}
    (closed : ∀ x y, p = x ++ y → y ≠ [] → '\x7b' ∉ y →
      ¬ Opens (x.reverse ++ behind) (y ++ u) ∧ ¬ Opens (x.reverse ++ behind) (y ++ u'))
    (same : extendsFrom (p.reverse ++ behind) u = extendsFrom (p.reverse ++ behind) u') :
    extendsFrom behind (p ++ u) = extendsFrom behind (p ++ u') := by
  induction p generalizing behind with
  | nil => exact same
  | cons c p ih =>
      have rest : extendsFrom (c :: behind) (p ++ u) = extendsFrom (c :: behind) (p ++ u') := by
        refine ih (fun x y cut some noBrace => ?_) (by simpa using same)
        simpa using closed (c :: x) y (by simp [cut]) some noBrace
      by_cases brace : '\x7b' ∈ c :: p
      · rcases List.eq_append_cons_of_mem brace with ⟨a, v, whole, noBrace⟩
        have cut : ∀ w : Text, c :: p ++ w = a ++ '\x7b' :: (v ++ w) := fun w => by simp [whole]
        by_cases opens : Opens behind (c :: p ++ u)
        · rw [cut] at opens ⊢
          rw [cut]
          rcases opens with ⟨parts, r, text, fits⟩
          rcases Text.exists_cut (noBrace_text fits) text with ⟨rfl, -⟩ | ⟨a', rfl, -⟩
          · rw [extendsFrom_of_fits fits, extendsFrom_of_fits fits]
          · exact absurd (by simp) noBrace
        · have opens' : ¬ Opens behind (c :: p ++ u') := fun there => opens (by
            rw [cut] at there ⊢
            exact there.congr _)
          exact (extendsFrom_cons opens).trans (rest.trans (extendsFrom_cons opens').symm)
      · have none := closed [] (c :: p) rfl (by simp) brace
        exact (extendsFrom_cons none.1).trans (rest.trans (extendsFrom_cons none.2).symm)

end ClassHeader

namespace Convention

open ClassHeader (Opens extendsFrom)
open Header (containsImport entries)

/-- The comment with this body, and the end of its line. -/
def commentLine (t : Text) : Text :=
  blockComment t ++ ['\n']

/-- The comment holds nothing that the convention is told from: no brace, no beginning of a
class header, no line with the mark, and no import of it. -/
structure IsUnnoticed (t : Text) : Prop where
  noBrace : '\x7b' ∉ t
  noHeader : classHeader.occursIn (commentLine t ++ ['\x7b']) = false
  noMark : hasMarkedLine (commentLine t) = false
  noImport : containsImport (commentLine t) markImport = false

/-- The part ends at the start of a line, and no statement and no class header that begins
in it is left open. -/
structure StandsApart (p : Text) : Prop where
  endsLine : EndsLine p
  ended : EndsApart p
  closed : ∀ x y, p = x ++ y → '\x7b' ∉ y → ¬ Opens x.reverse (y ++ ['\x7b'])

theorem ofLine?_markImport : HeaderStatement.ofLine? markImport = some markImport :=
  @ImportForm.ofLine?_line ⟨false, "org.junit.Test".toList, false⟩ (by decide)

section Line

variable {t : Text}

theorem getLast?_commentLine (t : Text) : (commentLine t).getLast? = some '\n' := by
  simp [commentLine]

theorem endsApart_commentLine (t : Text) : EndsApart (commentLine t) := by
  have shape : commentLine t = ("/*".toList ++ (t ++ ['*'])) ++ '/' :: ['\n'] := by
    simp [commentLine, blockComment]
  rw [shape]
  exact HeaderStatement.endsApart_concat (by decide) (by decide) _ (by decide)

theorem noBrace_commentLine (noBrace : '\x7b' ∉ t) : '\x7b' ∉ commentLine t := by
  simp [commentLine, blockComment, noBrace]

theorem hasMarkedLine_append {a : Text} (ends : EndsLine a) (b : Text) :
    hasMarkedLine (a ++ b) = (hasMarkedLine a || hasMarkedLine b) := by
  rw [hasMarkedLine, Line.ofText_append ends, List.any_append]
  rfl

end Line

section Comment

variable {p t : Text} (apart : StandsApart p) (unnoticed : IsUnnoticed t)

section Unnoticed

include unnoticed

/-- No class header begins in the comment, whatever surrounds it. -/
theorem IsUnnoticed.silent (behind q : Text) :
    Matcher.Silent classHeader behind (commentLine t) q := by
  apply ClassHeader.silent_of_not_opens
  intro x y cut some opens
  have feed : y.getLast? = Option.some '\n' := by
    rw [← getLast?_commentLine t, cut, List.getLast?_append_of_ne_nil _ some]
  have noBrace : '\x7b' ∉ y :=
    fun member => noBrace_commentLine unnoticed.noBrace (by rw [cut]; simp [member])
  have ends : EndsApart y := (cut ▸ endsApart_commentLine t).of_append
  rcases opens.of_append noBrace feed ends [] with ⟨parts, rest, whole, fits⟩
  have begins : Matcher.BeginsLine (x.reverse ++ behind) → Matcher.BeginsLine x.reverse :=
    fun begins c head => begins c (by simp [head])
  exact ClassHeader.occursIn_eq_false_iff.mp unnoticed.noHeader x (y ++ ['\x7b']) (by simp [cut])
    ⟨parts, rest, whole, fits.congr begins⟩

include apart

theorem StandsApart.extendsBaseClass_eq (q : Text) :
    extendsBaseClass (p ++ (commentLine t ++ q)) = extendsBaseClass (p ++ '\n' :: q) := by
  rw [ClassHeader.extendsBaseClass_eq, ClassHeader.extendsBaseClass_eq]
  refine ClassHeader.extendsFrom_append_congr (fun x y cut some noBrace => ?_) ?_
  · have feed : y.getLast? = Option.some '\n' := by
      rcases apart.endsLine with none | last
      · rw [none] at cut
        exact absurd (List.append_eq_nil_iff.mp cut.symm).2 some
      · rw [← last, cut, List.getLast?_append_of_ne_nil _ some]
    have ends : EndsApart y := (cut ▸ apart.ended).of_append
    have unopened : ∀ u, ¬ Opens (x.reverse ++ []) (y ++ u) := fun u opens => by
      rw [List.append_nil] at opens
      exact apart.closed x y cut noBrace (opens.of_append noBrace feed ends [])
    exact ⟨unopened _, unopened _⟩
  · generalize p.reverse ++ [] = behind
    have feed : ¬ Opens behind ('\n' :: q) :=
      ClassHeader.not_opens_of_blank (by decide : Blank ['\n']) (by decide) q
    rw [ClassHeader.extendsFrom_append (unnoticed.silent behind q),
      ClassHeader.extendsFrom_cons feed]
    have begins := ClassHeader.beginsLine_of_last (getLast?_commentLine t) behind
    exact ClassHeader.extendsFrom_congr (iff_of_true begins (by simp [Matcher.BeginsLine])) q

theorem StandsApart.hasMarkedLine_eq (q : Text) :
    hasMarkedLine (p ++ (commentLine t ++ q)) = hasMarkedLine (p ++ '\n' :: q) := by
  have feed : hasMarkedLine ('\n' :: q) = hasMarkedLine q :=
    hasMarkedLine_append (a := ['\n']) (Or.inr rfl) q
  rw [hasMarkedLine_append apart.endsLine, hasMarkedLine_append apart.endsLine,
    hasMarkedLine_append (Or.inr (getLast?_commentLine t)), unnoticed.noMark, Bool.false_or, feed]

theorem StandsApart.containsImport_eq (q : Text) :
    containsImport (p ++ (commentLine t ++ q)) markImport =
      containsImport (p ++ '\n' :: q) markImport := by
  rw [Header.containsImport_eq ofLine?_markImport, Header.containsImport_eq ofLine?_markImport]
  by_cases brace : '\x7b' ∈ p
  · rw [HeaderStatement.header_append_of_mem brace, HeaderStatement.header_append_of_mem brace]
  · have noBrace := noBrace_commentLine unnoticed.noBrace
    have absent := unnoticed.noImport
    rw [Header.containsImport_eq ofLine?_markImport,
      HeaderStatement.header_eq_self noBrace] at absent
    have feed : header ('\n' :: q) = ['\n'] ++ header q :=
      HeaderStatement.header_append (a := ['\n']) (by decide) q
    rw [HeaderStatement.header_append brace, HeaderStatement.header_append brace,
      HeaderStatement.header_append noBrace, feed, Header.entries_append_of_endsApart apart.ended,
      Header.entries_append_of_endsApart apart.ended,
      Header.entries_append_of_endsApart (endsApart_commentLine t), Header.entries_gap (by decide)]
    simp only [List.any_append, absent, Bool.false_or]

/-- The convention is told as if the comment were not there. -/
theorem StandsApart.ofSource?_eq (q : Text) :
    ofSource? (p ++ (commentLine t ++ q)) = ofSource? (p ++ '\n' :: q) := by
  simp only [ofSource?, apart.extendsBaseClass_eq unnoticed, apart.hasMarkedLine_eq unnoticed,
    apart.containsImport_eq unnoticed]

end Unnoticed

end Comment

theorem ofSource?_eq_none_iff {source : Text} : ofSource? source = none ↔
    extendsBaseClass source = false ∧ hasMarkedLine source = false ∧
    containsImport source markImport = false := by
  simp only [ofSource?]
  cases extendsBaseClass source <;> cases hasMarkedLine source <;> simp

theorem standsApart_nil : StandsApart [] where
  endsLine := Text.endsLine_nil
  ended := HeaderStatement.endsApart_nil
  closed := by
    intro x y cut _ opens
    rcases List.append_eq_nil_iff.mp cut.symm with ⟨rfl, rfl⟩
    rcases ClassHeader.Opens.front opens with same | same | ⟨-, front⟩
    · cases same
    · cases same
    · exact absurd front (by decide)

/-- A class header that begins in the comment goes on behind it. -/
theorem extendsBaseClass_of_opens {t : Text} (noBrace : '\x7b' ∉ t)
    (opens : classHeader.occursIn (commentLine t ++ ['\x7b']) = true) :
    extendsBaseClass (commentLine t ++ " extends TestCase \x7b".toList) = true := by
  rcases Option.isSome_iff_exists.mp opens with ⟨found, first⟩
  rcases ClassHeader.exists_of_find? first with ⟨x, parts, rest, whole, silent, fits, -⟩
  have noBrace' := noBrace_commentLine noBrace
  have all : commentLine t = x ++ parts.text := by
    have cut : commentLine t ++ ['\x7b'] = (x ++ parts.text) ++ '\x7b' :: rest := by
      rw [whole, List.append_assoc]
    rcases Text.exists_behind noBrace' cut with ⟨y, text, closing⟩
    cases y with
    | nil => simpa using text.symm
    | cons c y => simp at closing
  let parts' : ClassHeader.Parts :=
    { parts with clauses := parts.clauses ++ " extends TestCase ".toList }
  have fits' : parts'.Fits (x.reverse ++ []) := by
    rw [List.append_nil]
    refine ⟨fits.lead, fits.heading, ?_, fits.clauses.append_right (by decide), ?_⟩
    · change Stops isNamePart (parts.angles ++ (parts.clauses ++ ' ' :: "extends TestCase ".toList))
      rw [← List.append_assoc]
      exact Matcher.stops_append_cons fits.stops (by decide) _
    · change '\x7b' ∉ parts.angles ++ (parts.clauses ++ " extends TestCase ".toList)
      rw [← List.append_assoc, List.mem_append, not_or]
      exact ⟨fits.noBrace, by decide⟩
  have text : parts'.text = parts.text ++ " extends TestCase ".toList := by
    simp [parts', ClassHeader.Parts.text]
  have silent' : Matcher.Silent classHeader [] x (parts'.text ++ ['\x7b']) := by
    apply ClassHeader.silent_of_not_opens
    intro u v cut some opens
    have shape : commentLine t = u ++ (v ++ parts.text) := by rw [all, cut, List.append_assoc]
    have feed : (v ++ parts.text).getLast? = Option.some '\n' := by
      rw [← getLast?_commentLine t, shape]
      exact (List.getLast?_append_of_ne_nil u (by simp [some])).symm
    have ends : EndsApart (v ++ parts.text) := (shape ▸ endsApart_commentLine t).of_append
    rw [text, List.append_assoc, ← List.append_assoc] at opens
    have noBrace'' : '\x7b' ∉ v ++ parts.text := fun member => noBrace' (by
      rw [shape]
      exact List.mem_append_right u member)
    have opens' := opens.of_append noBrace'' feed ends rest
    rw [List.append_assoc] at opens'
    exact ClassHeader.ne_nil_iff.mpr opens' (silent u v cut some)
  have source : commentLine t ++ " extends TestCase \x7b".toList =
      x ++ (parts'.text ++ ['\x7b']) := by
    rw [text, all]
    simp
  rw [source, ClassHeader.extendsBaseClass_eq, ClassHeader.extendsFrom_append silent',
    ClassHeader.extendsFrom_of_fits fits', Matcher.occursIn_extendsTestCase_iff]
  refine ⟨parts.clauses ++ [' '], "extends TestCase".toList, [' '], by simp [parts'], ?_,
    ?_, by decide⟩
  · exact ⟨[' '], [], rfl, by simp, by decide, Or.inl rfl⟩
  · rw [List.getLast?_concat]
    decide

/-- Where these comments go unnoticed at the start of a source, they hold nothing the
convention is told from. -/
theorem isUnnoticed_of_forall {t : Text}
    (same : ∀ q, ofSource? (commentLine t ++ q) = ofSource? ('\n' :: q)) : IsUnnoticed t := by
  have alone : ofSource? (commentLine t) = none := by
    have here := same []
    rw [List.append_nil] at here
    exact here.trans (by decide +kernel)
  rcases ofSource?_eq_none_iff.mp alone with ⟨-, noMark, noImport⟩
  have noBrace : '\x7b' ∉ t := by
    intro brace
    have shown : ofSource? (commentLine t ++ markImport) = some modern :=
      (same markImport).trans (by decide +kernel)
    have brace' : '\x7b' ∈ commentLine t := by simp [commentLine, blockComment, brace]
    have unread : containsImport (commentLine t ++ markImport) markImport = false := by
      rw [Header.containsImport_eq ofLine?_markImport] at noImport ⊢
      rw [HeaderStatement.header_append_of_mem brace', noImport]
    have unmarked : hasMarkedLine (commentLine t ++ markImport) = false := by
      rw [hasMarkedLine_append (Or.inr (getLast?_commentLine t)), noMark]
      decide +kernel
    simp only [ofSource?, unread, unmarked] at shown
    split at shown <;> cases shown
  refine ⟨noBrace, ?_, noMark, noImport⟩
  by_contra opens
  have legacy' :=
    ofSource?_eq_legacy_iff.mpr (extendsBaseClass_of_opens noBrace (by simpa using opens))
  rw [same] at legacy'
  exact absurd legacy' (by decide +kernel)

/-- Behind every part that leaves no statement and no class header open, a comment on lines
of its own goes unnoticed exactly if it holds nothing that the convention is told from. -/
theorem isUnnoticed_iff (t : Text) : IsUnnoticed t ↔ ∀ p q, StandsApart p →
    ofSource? (p ++ (blockComment t ++ '\n' :: q)) = ofSource? (p ++ '\n' :: q) := by
  have line : ∀ q : Text, blockComment t ++ '\n' :: q = commentLine t ++ q :=
    fun q => by simp [commentLine]
  constructor
  · intro unnoticed p q apart
    rw [line]
    exact apart.ofSource?_eq unnoticed q
  · intro same
    exact isUnnoticed_of_forall fun q => by simpa [line] using same [] q standsApart_nil

/-- A licence comment behind the package statement. -/
theorem isUnnoticed_iff_licence :
    let t := "\n * Licence.\n ".toList
    let p := "package a;\n".toList
    let q := "import org.junit.Test;\nclass T \x7b\n\x7d\n".toList
    StandsApart p ∧
    ofSource? (p ++ (blockComment t ++ '\n' :: q)) = ofSource? (p ++ '\n' :: q) := by
  intro t p q
  have settled : classHeader.occursIn (p ++ ['\x7b']) = false := by decide +kernel
  have apart : StandsApart p :=
    { endsLine := Or.inr (by decide)
      ended := HeaderStatement.endsApart_concat (by decide)
        (by decide) "package a".toList (by decide)
      closed := fun x y cut _ =>
        ClassHeader.occursIn_eq_false_iff.mp settled x (y ++ ['\x7b']) (by simp [cut]) }
  have unnoticed : IsUnnoticed t :=
    ⟨by decide, by decide +kernel, by decide +kernel, by decide +kernel⟩
  exact ⟨apart, (isUnnoticed_iff t).mp unnoticed p q apart⟩

/-- A mark in a comment makes a source modern, and a class in a comment is the first one. -/
theorem not_isUnnoticed :
    let t := "\n@Test\n".toList
    let q := "class T \x7b\n\x7d\n".toList
    let t' := "\nclass Old extends TestCase \x7b\n\x7d\n".toList
    let q' := "import org.junit.Test;\nclass New \x7b\n\x7d\n".toList
    (¬ "*/".toList <:+: t ∧ ofSource? (blockComment t ++ '\n' :: q) = some modern ∧
      ofSource? ('\n' :: q) = none) ∧
      ¬ "*/".toList <:+: t' ∧ ofSource? (blockComment t' ++ '\n' :: q') = some legacy ∧
        ofSource? ('\n' :: q') = some modern := by
  decide +kernel

end Convention
end Testwright
