import Testwright.Settings.ExtractionPolicy
import Testwright.Surface.ClassSurface
import Testwright.Text.Nesting

namespace Testwright

/-!
Type texts and the types they stand for.

A type text is cut from the outside in: the array brackets behind it, then the
part between the first opening and the last closing angle bracket, whose
top-level pieces are type texts again (`TypeTree.ofText`).  Each name on the
way is resolved in the scope of the class (`NameScope.resolve`).  Resolution
never fails: a name that no rule explains stays as it is written.
-/

/-- Where the names of a class come from. -/
structure NameScope where
  package : Option Text
  imports : List Text

namespace NameScope

/-- The scope that the members of a class stand in. -/
def ofSurface (surface : ClassSurface) : NameScope where
  package := surface.package
  imports := surface.imports

/-- Names that are understood without an import. -/
def wellKnown : List Text :=
  ["Boolean".toList, "Byte".toList, "CharSequence".toList, "Character".toList, "Class".toList,
    "Comparable".toList, "Double".toList, "Enum".toList, "Error".toList, "Exception".toList,
    "Float".toList, "IllegalArgumentException".toList, "IllegalStateException".toList,
    "Integer".toList, "Iterable".toList, "Long".toList, "Math".toList,
    "NullPointerException".toList, "Number".toList, "Object".toList, "Runnable".toList,
    "RuntimeException".toList, "Short".toList, "String".toList, "StringBuffer".toList,
    "StringBuilder".toList, "System".toList, "Thread".toList, "Throwable".toList,
    "UnsupportedOperationException".toList, "Void".toList]

/-- A type variable is a capital, or a capital and a digit. -/
def isVariable : Text → Bool
  | [c] => c.isUpper
  | [c, d] => c.isUpper && d.isDigit
  | _ => false

/-- Whether the import is a single, not static one of the name. -/
def covers (imported name : Text) : Bool :=
  (Text.dropStart? "static ".toList imported).isNone && Text.afterLast '.' imported == name

/-- The resolution of a name that is no wildcard.  The rules are tried in this
order: `void` and primitives, type variables, dotted names, imports, well-known
names, the package. -/
def resolveName (policy : ExtractionPolicy) (scope : NameScope) (name : Text) : Text :=
  if name = "void".toList ∨ TypeTree.primitives.contains name then
    name
  else if policy.eraseVariables && isVariable name then
    "Object".toList
  else if name.any (· == '.') then
    name
  else
    match scope.imports.find? (fun imported => covers imported name) with
    | some imported => if policy.qualifyImported then imported else name
    | none =>
        if wellKnown.contains name then
          name
        else
          match scope.package with
          | some package => if policy.qualifyPackage then package ++ '.' :: name else name
          | none => name

/-- The words that bound a wildcard. -/
def boundWords : List Text :=
  ["extends".toList, "super".toList]

/-- The resolution of a name given as its words.  A wildcard with a bound is
resolved in the bound; the bound word may stand right behind the question
mark. -/
def resolveWords (policy : ExtractionPolicy) (scope : NameScope) : List Text → Text
  | [] => resolveName policy scope []
  | [word] =>
      if word.head? = some '?' then ['?'] else resolveName policy scope word
  | word :: next :: rest =>
      if word.head? = some '?' then
        if boundWords.contains word.tail then
          '?' :: ' ' :: (word.tail ++ ' ' :: resolveWords policy scope (next :: rest))
        else if word.tail.isEmpty && boundWords.contains next && !rest.isEmpty then
          '?' :: ' ' :: (next ++ ' ' :: resolveWords policy scope rest)
        else
          ['?']
      else
        resolveName policy scope ([' '].intercalate (word :: next :: rest))

/-- The name that a source may use for the type, whatever blanks stand between
its words. -/
def resolve (policy : ExtractionPolicy) (scope : NameScope) (name : Text) : Text :=
  resolveWords policy scope (Text.words name)

end NameScope

namespace TypeTree

/-- A text that ends with a bracket pair, without it. -/
def bracketLayer? (t : Text) : Option Text := do
  let inner ← Text.dropFinal? [']'] t
  let rest ← Text.dropFinal? ['['] (Text.trimEnd inner)
  return Text.trimEnd rest

/-- A text that ends with three dots or a bracket pair, without them. -/
def arrayLayer? (t : Text) : Option Text :=
  match Text.dropFinal? "...".toList t with
  | some rest => some (Text.trimEnd rest)
  | none => bracketLayer? t

/-- The name and the nonempty argument texts of a text with angle brackets. -/
def argumentTexts? (t : Text) : Option (Text × List Text) :=
  match Text.cutAt? '<' t with
  | none => none
  | some opened =>
      match Text.cutAtLast? '>' opened.2 with
      | none => none
      | some closed => some (opened.1, (Text.topLevelPieces closed.1).filter (!·.isEmpty))

theorem length_peel_le (layer? : Text → Option Text) (t : Text) :
    (Text.peel layer? t).1.length ≤ t.length := by
  fun_induction Text.peel layer? t with
  | case1 => simp
  | case2 t rest _ shorter _ ih => exact Nat.le_trans ih (Nat.le_of_lt shorter)
  | case3 => simp

theorem length_lt_of_argumentTexts? {t : Text} {parts : Text × List Text} {piece : Text}
    (found : argumentTexts? t = some parts) (member : piece ∈ parts.2) :
    piece.length < t.length := by
  simp only [argumentTexts?] at found
  split at found
  · simp at found
  · rename_i opened atOpen
    split at found
    · simp at found
    · rename_i closed atClose
      simp only [Option.some.injEq] at found
      subst found
      have inPieces : piece ∈ Text.topLevelPieces closed.1 := (List.mem_filter.mp member).1
      have short := Text.length_le_of_mem_topLevelPieces inPieces
      have whole := congrArg List.length (Text.cutAt?_eq_some atOpen)
      have inner := congrArg List.length (Text.cutAtLast?_eq_some atClose)
      simp only [List.length_append, List.length_cons] at whole inner
      omega

/-- The type that a text without leading keywords stands for. -/
def ofText (policy : ExtractionPolicy) (scope : NameScope) (text : Text) : TypeTree :=
  let peeled := Text.peel arrayLayer? (Text.trim text)
  match _found : argumentTexts? peeled.1 with
  | none => (named (scope.resolve policy peeled.1)).withDimensions peeled.2
  | some parts =>
      ((named (scope.resolve policy parts.1)).withArguments
        (parts.2.attach.map fun piece => ofText policy scope piece.1)).withDimensions peeled.2
termination_by text.length
decreasing_by
  have inPeeled := length_lt_of_argumentTexts? _found piece.2
  have inTrimmed : peeled.1.length ≤ (Text.trim text).length := length_peel_le arrayLayer? _
  have inText := Text.length_trim_le text
  omega

/-- The type that a text stands for, leading `final`s aside.  The empty text
and `void` stand for none. -/
def read? (policy : ExtractionPolicy) (scope : NameScope) (raw : Text) : Option TypeTree :=
  let text := Text.trim (Text.dropKeywords "final".toList (Text.trim raw))
  if text.isEmpty || text == "void".toList then none else some (ofText policy scope text)

end TypeTree
end Testwright
