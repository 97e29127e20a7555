import Testwright.Proofs.Header.Wording
import Testwright.Proofs.Text.Trimming

namespace Testwright

/-!
# The canonical spacing of a path

Two replacements take the single spaces beside dots out of a path.  Together they put
the words of the path side by side again, with a space between two of them unless a
dot stands there (`canonicalPath_eq`).  In the path of a statement a dot stands at
every gap but the one behind the word `static`, so what is left is the word, a space
and the names and dots without blanks (`canonicalPath_of_parts`).
-/

open Character (isBlank isNamePart)

namespace Text

/-- The text without its blanks. -/
def unspaced (t : Text) : Text :=
  t.filter fun c => !isBlank c

theorem unspaced_append (s t : Text) : unspaced (s ++ t) = unspaced s ++ unspaced t :=
  List.filter_append s t

theorem unspaced_of_blank {gap : Text} (blank : Blank gap) : unspaced gap = [] :=
  List.filter_eq_nil_iff.mpr fun c member => by simp [blank c member]

theorem unspaced_of_visible {w : Text} (visible : Visible w) : unspaced w = w :=
  List.filter_eq_self.mpr fun c member => by simp [visible c member]

/-- A text in which the old one never begins stays as it is. -/
theorem replaceAll_of_absent {old new t : Text}
    (absent : ∀ x y, t = x ++ y → y ≠ [] → ¬ old <+: y) :
    replaceAll old new t = t := by
  rw [replaceAll]
  induction t with
  | nil => rfl
  | cons c t ih =>
      have here : old.isPrefixOf (c :: t) = false := by
        cases found : old.isPrefixOf (c :: t) with
        | false => rfl
        | true => exact absurd (List.isPrefixOf_iff_prefix.mp found) (absent [] _ rfl (by simp))
      rw [replaceFrom, if_neg (by simp [here])]
      rw [ih fun x y cut => absent (c :: x) y (by rw [cut]; rfl)]

/-! ## A space beside a dot -/

theorem replaceAll_space_dot (c : Char) (t : Text) :
    replaceAll " .".toList ['.'] (c :: t) =
      if c = ' ' ∧ t.head? = some '.' then replaceAll " .".toList ['.'] t
      else c :: replaceAll " .".toList ['.'] t := by
  cases t with
  | nil =>
      have other : " .".toList.isPrefixOf [c] = false := Bool.and_false _
      have apart : ¬(c = ' ' ∧ ([] : Text).head? = some '.') := fun both => nomatch both.2
      rw [if_neg apart, replaceAll, replaceFrom, other]
      rfl
  | cons d t =>
      by_cases both : c = ' ' ∧ d = '.'
      · rcases both with ⟨rfl, rfl⟩
        rfl
      · have other : " .".toList.isPrefixOf (c :: d :: t) = false := by
          cases begins : " .".toList.isPrefixOf (c :: d :: t) with
          | false => rfl
          | true =>
              rcases List.isPrefixOf_iff_prefix.mp begins with ⟨r, same⟩
              cases same
              exact absurd ⟨rfl, rfl⟩ both
        have apart : ¬(c = ' ' ∧ (d :: t).head? = some '.') := by simpa using both
        rw [if_neg apart, replaceAll, replaceFrom, other]
        rfl

theorem replaceAll_dot_space (c : Char) (t : Text) :
    replaceAll ". ".toList ['.'] (c :: t) =
      if c = '.' ∧ t.head? = some ' ' then '.' :: replaceAll ". ".toList ['.'] t.tail
      else c :: replaceAll ". ".toList ['.'] t := by
  cases t with
  | nil =>
      have other : ". ".toList.isPrefixOf [c] = false := Bool.and_false _
      have apart : ¬(c = '.' ∧ ([] : Text).head? = some ' ') := fun both => nomatch both.2
      rw [if_neg apart, replaceAll, replaceFrom, other]
      rfl
  | cons d t =>
      by_cases both : c = '.' ∧ d = ' '
      · rcases both with ⟨rfl, rfl⟩
        rfl
      · have other : ". ".toList.isPrefixOf (c :: d :: t) = false := by
          cases begins : ". ".toList.isPrefixOf (c :: d :: t) with
          | false => rfl
          | true =>
              rcases List.isPrefixOf_iff_prefix.mp begins with ⟨r, same⟩
              cases same
              exact absurd ⟨rfl, rfl⟩ both
        have apart : ¬(c = '.' ∧ (d :: t).head? = some ' ') := by simpa using both
        rw [if_neg apart, replaceAll, replaceFrom, other]
        rfl

/-- In a stretch without blanks no space is found. -/
theorem replaceAll_space_dot_append {w : Text} (visible : Visible w) (t : Text) :
    replaceAll " .".toList ['.'] (w ++ t) = w ++ replaceAll " .".toList ['.'] t := by
  induction w with
  | nil => rfl
  | cons c w ih =>
      have noSpace : c ≠ ' ' := fun same => by
        have shown := visible c List.mem_cons_self
        rw [same] at shown
        exact absurd shown (by decide)
      rw [List.cons_append, replaceAll_space_dot, if_neg fun both => noSpace both.1,
        ih fun d member => visible d (List.mem_cons_of_mem c member)]
      rfl

theorem replaceAll_dot_space_append {w t : Text} (visible : Visible w)
    (stops : t.head? ≠ some ' ') :
    replaceAll ". ".toList ['.'] (w ++ t) = w ++ replaceAll ". ".toList ['.'] t := by
  induction w with
  | nil => rfl
  | cons c w ih =>
      have noSpace : (w ++ t).head? ≠ some ' ' := by
        cases w with
        | nil => exact stops
        | cons d w =>
            intro head
            have shown := visible d (by simp)
            rw [Option.some.inj head] at shown
            exact absurd shown (by decide)
      rw [List.cons_append, replaceAll_dot_space, if_neg fun both => noSpace both.2,
        ih fun d member => visible d (List.mem_cons_of_mem c member)]
      rfl

/-- Behind a word, a space goes if the word ends with a dot. -/
theorem replaceAll_dot_space_append_space {w : Text} (visible : Visible w) (some : w ≠ [])
    (t : Text) :
    replaceAll ". ".toList ['.'] (w ++ ' ' :: t) =
      w ++ ((if w.getLast? = Option.some '.' then [] else [' ']) ++
        replaceAll ". ".toList ['.'] t) := by
  rcases List.eq_nil_or_concat w with none | ⟨v, c, rfl⟩
  · exact absurd none some
  have shown := visible c (by simp)
  have inFront : Visible v := fun d member => visible d (by simp [member])
  have stops : (c :: ' ' :: t).head? ≠ Option.some ' ' := fun head => by
    rw [Option.some.inj head] at shown
    exact absurd shown (by decide)
  have space : replaceAll ". ".toList ['.'] (' ' :: t) = ' ' :: replaceAll ". ".toList ['.'] t := by
    rw [replaceAll_dot_space, if_neg fun both => absurd both.1 (by decide)]
  have whole : v.concat c ++ ' ' :: t = v ++ c :: ' ' :: t := by simp
  have last : (v.concat c).getLast? = Option.some c := by simp
  rw [whole, replaceAll_dot_space_append inFront stops, replaceAll_dot_space, last]
  by_cases dot : c = '.'
  · subst dot
    simp
  · rw [if_neg fun both => dot both.1, space, if_neg fun same => dot (Option.some.inj same)]
    simp

/-! ## The words of a path, put side by side -/

/-- The words with something between each two. -/
def joinWith (between : Text → Text → Text) : List Text → Text
  | [] => []
  | [w] => w
  | w :: w' :: ws => w ++ (between w w' ++ joinWith between (w' :: ws))

/-- A space, unless a dot follows. -/
def spaceBeforeWord (_ w' : Text) : Text :=
  if w'.head? = some '.' then [] else [' ']

/-- A space, unless a dot stands on one side. -/
def spaceBetweenWords (w w' : Text) : Text :=
  if w.getLast? = some '.' ∨ w'.head? = some '.' then [] else [' ']

theorem intercalate_space_eq (ws : List Text) :
    [' '].intercalate ws = joinWith (fun _ _ => [' ']) ws := by
  induction ws with
  | nil => rfl
  | cons w ws ih =>
      cases ws with
      | nil => simp [joinWith]
      | cons w' ws =>
          rw [intercalate_cons_of_ne_nil _ _ (List.cons_ne_nil w' ws), ih]
          simp [joinWith]

theorem head?_joinWith {between : Text → Text → Text} {w : Text} (some : w ≠ []) (ws : List Text) :
    (joinWith between (w :: ws)).head? = w.head? := by
  cases ws with
  | nil => rfl
  | cons w' ws => rw [joinWith, List.head?_append_of_ne_nil _ some]

/-- Every word has a character, and no blank. -/
theorem visible_of_mem_words {t w : Text} (member : w ∈ words t) : Visible w ∧ w ≠ [] := by
  rcases List.mem_filter.mp member with ⟨isPiece, some⟩
  refine ⟨fun c inside => not_cut_of_mem_splitOn isPiece inside, fun none => ?_⟩
  rw [none] at some
  cases some

section Passes

variable {ws : List Text} (each : ∀ w ∈ ws, Visible w ∧ w ≠ [])
include each

theorem replaceAll_space_dot_joinWith :
    replaceAll " .".toList ['.'] (joinWith (fun _ _ => [' ']) ws) =
      joinWith spaceBeforeWord ws := by
  induction ws with
  | nil => rfl
  | cons w ws ih =>
      have here := (each w List.mem_cons_self).1
      have others := ih fun w' member => each w' (List.mem_cons_of_mem w member)
      cases ws with
      | nil =>
          have alone := replaceAll_space_dot_append here []
          rw [List.append_nil] at alone
          exact alone.trans (List.append_nil w)
      | cons w' ws =>
          have some := (each w' (by simp)).2
          have spaced : joinWith (fun _ _ => [' ']) (w :: w' :: ws) =
              w ++ ' ' :: joinWith (fun _ _ => [' ']) (w' :: ws) := rfl
          rw [spaced, replaceAll_space_dot_append here, replaceAll_space_dot, head?_joinWith some,
            others, joinWith, spaceBeforeWord]
          by_cases dot : w'.head? = Option.some '.'
          · simp [dot]
          · simp [dot]

theorem replaceAll_dot_space_joinWith :
    replaceAll ". ".toList ['.'] (joinWith spaceBeforeWord ws) = joinWith spaceBetweenWords ws := by
  induction ws with
  | nil => rfl
  | cons w ws ih =>
      have here := each w List.mem_cons_self
      have others := ih fun w' member => each w' (List.mem_cons_of_mem w member)
      cases ws with
      | nil =>
          have alone := replaceAll_dot_space_append (t := []) here.1 (by simp)
          rw [List.append_nil] at alone
          exact alone.trans (List.append_nil w)
      | cons w' ws =>
          have some := (each w' (by simp)).2
          rw [joinWith, joinWith, ← others, spaceBeforeWord, spaceBetweenWords]
          by_cases dot : w'.head? = Option.some '.'
          · have stops : (joinWith spaceBeforeWord (w' :: ws)).head? ≠ Option.some ' ' := by
              rw [head?_joinWith some, dot]
              decide
            rw [if_pos dot, if_pos (Or.inr dot), List.nil_append, List.nil_append,
              replaceAll_dot_space_append here.1 stops]
          · have spaced :=
              replaceAll_dot_space_append_space here.1 here.2 (joinWith spaceBeforeWord (w' :: ws))
            rw [if_neg dot, List.singleton_append, spaced]
            simp [dot]

end Passes

/-- The word at a visible character, where a stretch without blanks stands in front
or none. -/
theorem exists_words {c : Char} (shown : isBlank c = false) (t : Text) :
    ∃ u ws, ∀ v, Visible v → words (v ++ c :: t) = (v ++ c :: u) :: ws := by
  rcases List.exists_cons_of_ne_nil (splitOn_ne_nil isBlank t) with ⟨u, pieces, cut⟩
  refine ⟨u, pieces.filter fun word => !word.isEmpty, fun v visible => ?_⟩
  have pieces : splitOn isBlank (v ++ c :: t) = (v ++ c :: u) :: pieces := by
    induction v with
    | nil => simp [splitOn, shown, cut]
    | cons d v ih =>
        rw [List.cons_append, splitOn, ih fun e member => visible e (List.mem_cons_of_mem d member)]
        simp [visible d List.mem_cons_self]
  simp [words, pieces]

theorem joinWith_append_cons (v u : Text) (c : Char) (ws : List Text) :
    joinWith spaceBetweenWords ((v ++ c :: u) :: ws) =
      v ++ joinWith spaceBetweenWords ((c :: u) :: ws) := by
  cases ws with
  | nil => rfl
  | cons w ws =>
      rw [joinWith, joinWith, spaceBetweenWords, spaceBetweenWords,
        List.getLast?_append_of_ne_nil _ (List.cons_ne_nil c u), List.append_assoc]

end Text

namespace HeaderStatement

open Text (Blank Visible joinWith spaceBetweenWords unspaced words)

theorem canonicalPath_eq (path : Text) :
    canonicalPath path = joinWith spaceBetweenWords (words path) := by
  have each : ∀ w ∈ words path, Visible w ∧ w ≠ [] := fun w => Text.visible_of_mem_words
  rw [canonicalPath, Text.singleSpaced, Text.intercalate_space_eq,
    Text.replaceAll_space_dot_joinWith each, Text.replaceAll_dot_space_joinWith each]

theorem canonicalPath_of_visible {v : Text} (visible : Visible v) (some : v ≠ []) :
    canonicalPath v = v := by
  rw [canonicalPath_eq, Text.words_of_visible visible some]
  rfl

/-- A gap becomes a space, or nothing at a dot. -/
theorem canonicalPath_gap {v gap : Text} (visible : Visible v) (some : v ≠ []) (blank : Blank gap)
    {c : Char} (shown : isBlank c = false) (t : Text) :
    canonicalPath (v ++ (gap ++ c :: t)) =
      v ++ ((if gap = [] ∨ v.getLast? = Option.some '.' ∨ c = '.' then [] else [' ']) ++
        canonicalPath (c :: t)) := by
  rcases Text.exists_words shown t with ⟨u, ws, cut⟩
  have alone : words (c :: t) = (c :: u) :: ws := cut [] fun d member => nomatch member
  rw [canonicalPath_eq, canonicalPath_eq, alone]
  by_cases none : gap = []
  · rw [none, List.nil_append, cut v visible, Text.joinWith_append_cons, if_pos (Or.inl rfl),
      List.nil_append]
  · rw [Text.words_append blank none, Text.words_of_visible visible some, alone,
      List.singleton_append, joinWith, spaceBetweenWords]
    simp [none]

/-- A name with steps behind it has no space at all. -/
theorem canonicalPath_steps {v : Text} (visible : Visible v) (some : v ≠ []) {steps : List Text}
    (each : ∀ s ∈ steps, IsStep s) :
    canonicalPath (v ++ List.flatten steps) = v ++ unspaced (List.flatten steps) := by
  induction steps generalizing v with
  | nil => simpa [unspaced] using canonicalPath_of_visible visible some
  | cons s steps ih =>
      rcases each s List.mem_cons_self with ⟨gap, gap', w, rfl, blank, blank', last⟩
      have others : ∀ s ∈ steps, IsStep s := fun s member => each s (List.mem_cons_of_mem _ member)
      have seen : Visible w ∧ w ≠ [] := by
        rcases last with isName | rfl
        · exact ⟨visible_of_isName isName, isName.1⟩
        · decide
      have rest := ih seen.1 seen.2 others
      rcases List.exists_cons_of_ne_nil seen.2 with ⟨c, w', rfl⟩
      have whole : v ++ List.flatten ((gap ++ '.' :: (gap' ++ c :: w')) :: steps) =
          v ++ (gap ++ '.' :: (gap' ++ c :: (w' ++ List.flatten steps))) := by simp
      have dot := canonicalPath_gap (v := ['.']) (by decide) (by decide) blank'
        (seen.1 c List.mem_cons_self)
        (w' ++ List.flatten steps)
      rw [whole, canonicalPath_gap visible some blank (by decide), if_pos (Or.inr (Or.inr rfl)),
        List.nil_append]
      have atDot : gap' = [] ∨ ['.'].getLast? = Option.some '.' ∨ c = '.' := Or.inr (Or.inl rfl)
      rw [if_pos atDot, List.nil_append, List.singleton_append] at dot
      have step : unspaced (gap ++ '.' :: (gap' ++ c :: w')) = '.' :: c :: w' := by
        have parts : gap ++ '.' :: (gap' ++ c :: w') = gap ++ (['.'] ++ (gap' ++ c :: w')) := rfl
        rw [parts, Text.unspaced_append, Text.unspaced_append, Text.unspaced_append,
          Text.unspaced_of_blank blank, Text.unspaced_of_blank blank',
          Text.unspaced_of_visible seen.1, Text.unspaced_of_visible (by decide)]
        rfl
      rw [dot, ← List.cons_append, rest, List.flatten_cons, Text.unspaced_append, step]
      simp

/-- The canonical path has the word `static` and a space, if the word is there, and
behind it the names and the dots. -/
theorem canonicalPath_of_parts {lead name : Text} {steps : List Text} (isLead : IsStaticLead lead)
    (isName : IsName name) (each : ∀ s ∈ steps, IsStep s) :
    canonicalPath (lead ++ (name ++ List.flatten steps)) =
      (if lead = [] then [] else "static ".toList) ++
        (name ++ unspaced (List.flatten steps)) := by
  have named := canonicalPath_steps (visible_of_isName isName) isName.1 each
  rcases isLead with rfl | ⟨gap, rfl, some, blank⟩
  · simpa using named
  · rcases List.exists_cons_of_ne_nil isName.1 with ⟨c, w, rfl⟩
    have first := isName.2 c List.mem_cons_self
    have noDot : c ≠ '.' := fun same => by
      rw [same] at first
      exact absurd first (by decide)
    have gaps := canonicalPath_gap (v := "static".toList) (by decide) (by decide) blank
      (Character.not_isBlank_of_isNamePart first) (w ++ List.flatten steps)
    have apart : ¬(gap = [] ∨ "static".toList.getLast? = Option.some '.' ∨ c = '.') := by
      rintro (none | last | dot)
      · exact some none
      · exact absurd last (by decide)
      · exact noDot dot
    rw [if_neg apart] at gaps
    rw [if_neg (by simp), List.append_assoc]
    exact gaps.trans (by rw [← List.cons_append, named]; rfl)

end HeaderStatement
end Testwright
