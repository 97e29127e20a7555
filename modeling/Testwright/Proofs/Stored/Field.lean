import Testwright.Stored.Json

namespace Testwright
namespace Json

/-!
# Values written as JSON and read back

`IsLossless` ties a way to write values to a way to read them.  It says that what
fits is read back from what is written of it, and that nothing is read that does
not fit.  So what was read, from whatever it was read, can be written and read
once more.  The property passes from items to their list and from a value to one
that may be missing.

An object is read field by field, by name.  Where a name is looked up, other
fields do not matter, and a field that may be missing may as well be null.
`IsStoredForm` puts this together for values that are stored as objects.
-/

variable {α : Type} {toJson : α → Json} {ofJson? : Json → Option α} {Fits : α → Prop}

/-- What fits is read back, and what is read fits. -/
structure IsLossless (toJson : α → Json) (ofJson? : Json → Option α) (Fits : α → Prop) : Prop where
  recovers : ∀ {value}, Fits value → ofJson? (toJson value) = some value
  fits : ∀ {json value}, ofJson? json = some value → Fits value

@[simp] theorem text?_string (text : Text) : (string text).text? = some text := rfl

@[simp] theorem bool?_bool (value : Bool) : (bool value).bool? = some value := rfl

theorem isLossless_string : IsLossless string text? fun _ => True :=
  ⟨fun _ => rfl, fun _ => trivial⟩

theorem isLossless_natural : IsLossless natural count? (· < UInt64.size) where
  recovers fits := if_pos fits
  fits := by
    intro json count found
    unfold count? at found
    split at found
    · split at found
      · next small =>
          rcases Option.some.inj found with rfl
          exact small
      · cases found
    · cases found

/-- The items of a list are read in their order, and all of them. -/
theorem IsLossless.list (lossless : IsLossless toJson ofJson? Fits) :
    IsLossless (ofList toJson) (list? ofJson?) fun values => ∀ value ∈ values, Fits value where
  recovers := by
    intro values fits
    change (values.map toJson).mapM ofJson? = some values
    induction values with
    | nil => rfl
    | cons value values ih =>
        rcases List.forall_mem_cons.mp fits with ⟨first, others⟩
        simp [lossless.recovers first, ih others]
  fits := by
    intro json values found
    cases json with
    | array items =>
        change items.mapM ofJson? = some values at found
        induction items generalizing values with
        | nil =>
            rcases Option.some.inj found with rfl
            exact List.forall_mem_nil _
        | cons item items ih =>
            simp only [List.mapM_cons, Option.bind_eq_bind, Option.bind_eq_some_iff,
              Option.pure_def, Option.some.injEq] at found
            rcases found with ⟨value, first, others, rest, rfl⟩
            exact List.forall_mem_cons.mpr ⟨lossless.fits first, ih rest⟩
    | _ => cases found

theorem IsLossless.fits_nullable (lossless : IsLossless toJson ofJson? Fits) {json : Json}
    {value : Option α} (found : nullable? ofJson? json = some value) :
    ∀ inner ∈ value, Fits inner := by
  intro inner inside
  unfold nullable? at found
  split at found
  · rcases Option.some.inj found with rfl
    cases inside
  · rcases Option.map_eq_some_iff.mp found with ⟨value, read, rfl⟩
    rcases Option.some.inj inside with rfl
    exact lossless.fits read

/-- A value that may be missing is told from one that is missing, as none is
written as null. -/
theorem IsLossless.option (lossless : IsLossless toJson ofJson? Fits)
    (present : ∀ value, toJson value ≠ null) :
    IsLossless (ofOption toJson) (nullable? ofJson?) fun value => ∀ inner ∈ value, Fits inner where
  recovers := by
    intro value fits
    cases value with
    | none => rfl
    | some inner =>
        have back := lossless.recovers (fits inner rfl)
        change nullable? ofJson? (toJson inner) = some (some inner)
        unfold nullable?
        split
        · next isNull => exact absurd isNull (present inner)
        · rw [back]
          rfl
  fits := lossless.fits_nullable

/-! ## Fields -/

/-- A field that may be missing is null then. -/
theorem optional_eq (value? : Json → Option α) (key : String) (fields : List (Text × Json)) :
    optional value? key fields = nullable? value? ((field? key fields).getD null) := by
  unfold optional
  cases field? key fields <;> rfl

theorem field?_cons (key name : String) (json : Json) (fields : List (Text × Json)) :
    field? key ((name.toList, json) :: fields) =
      if key = name then some json else field? key fields := by
  by_cases same : key = name
  · simp [field?, same]
  · have other : (key.toList == name.toList) = false :=
      beq_eq_false_iff_ne.mpr fun equal => same (String.toList_inj.mp equal)
    simp [field?, List.lookup_cons, same, other]

theorem required_cons (value? : Json → Option α) (key name : String) (json : Json)
    (fields : List (Text × Json)) :
    required value? key ((name.toList, json) :: fields) =
      if key = name then value? json else required value? key fields := by
  unfold required
  rw [field?_cons]
  split <;> rfl

theorem optional_cons (value? : Json → Option α) (key name : String) (json : Json)
    (fields : List (Text × Json)) :
    optional value? key ((name.toList, json) :: fields) =
      if key = name then nullable? value? json else optional value? key fields := by
  rw [optional_eq, optional_eq, field?_cons]
  split <;> rfl

/-- Fields as they are written. -/
def named (fields : List (String × Json)) : List (Text × Json) :=
  fields.map fun field => (field.1.toList, field.2)

@[simp] theorem fields?_ofFields (fields : List (String × Json)) :
    (ofFields fields).fields? = some (named fields) :=
  rfl

@[simp] theorem required_named_cons (value? : Json → Option α) (key name : String) (json : Json)
    (fields : List (String × Json)) :
    required value? key (named ((name, json) :: fields)) =
      if key = name then value? json else required value? key (named fields) :=
  required_cons value? key name json (named fields)

@[simp] theorem optional_named_cons (value? : Json → Option α) (key name : String) (json : Json)
    (fields : List (String × Json)) :
    optional value? key (named ((name, json) :: fields)) =
      if key = name then nullable? value? json else optional value? key (named fields) :=
  optional_cons value? key name json (named fields)

/-- A field of another name does not matter, wherever it stands. -/
theorem field?_insert {key : String} {name : Text} (other : name ≠ key.toList)
    (front : List (Text × Json)) (json : Json) (back : List (Text × Json)) :
    field? key (front ++ (name, json) :: back) = field? key (front ++ back) := by
  have skipped : (key.toList == name) = false := by simpa using Ne.symm other
  unfold field?
  induction front with
  | nil => simp [List.lookup_cons, skipped]
  | cons first front ih =>
      rcases first with ⟨ahead, value⟩
      simp [List.lookup_cons, ih]

theorem required_insert (value? : Json → Option α) {key : String} {name : Text}
    (other : name ≠ key.toList) (front : List (Text × Json)) (json : Json)
    (back : List (Text × Json)) :
    required value? key (front ++ (name, json) :: back) = required value? key (front ++ back) := by
  rw [required, required, field?_insert other]

section Read

variable (lossless : IsLossless toJson ofJson? Fits) {key : String} {fields : List (Text × Json)}
include lossless

theorem IsLossless.fits_required {value : α} (found : required ofJson? key fields = some value) :
    Fits value := by
  rcases Option.bind_eq_some_iff.mp found with ⟨json, -, read⟩
  exact lossless.fits read

theorem IsLossless.fits_optional {value : Option α}
    (found : optional ofJson? key fields = some value) :
    ∀ inner ∈ value, Fits inner := by
  rw [optional_eq] at found
  exact lossless.fits_nullable found

end Read

/-! ## Objects -/

/-- Fields that no reader of these names tells apart: each name leads to the same value,
or it may be missing and leads to null in one of them. -/
structure AreAlike (names mayMiss : List String) (fields fields' : List (Text × Json)) : Prop where
  needed : ∀ name ∈ names, name ∉ mayMiss → field? name fields = field? name fields'
  missable : ∀ name ∈ names, name ∈ mayMiss →
    (field? name fields).getD null = (field? name fields').getD null

section Alike

variable {names mayMiss : List String} {fields fields' : List (Text × Json)}

theorem AreAlike.required_eq (alike : AreAlike names mayMiss fields fields')
    (value? : Json → Option α) {key : String} (known : key ∈ names) (needed : key ∉ mayMiss) :
    required value? key fields = required value? key fields' := by
  rw [required, required, alike.needed key known needed]

theorem AreAlike.optional_eq (alike : AreAlike names mayMiss fields fields')
    (value? : Json → Option α) {key : String} (known : key ∈ names) (missable : key ∈ mayMiss) :
    optional value? key fields = optional value? key fields' := by
  rw [Json.optional_eq, Json.optional_eq, alike.missable key known missable]

theorem areAlike_insert {name : Text} (new : ∀ known ∈ names, name ≠ known.toList)
    (front : List (Text × Json)) (json : Json) (back : List (Text × Json)) :
    AreAlike names mayMiss (front ++ (name, json) :: back) (front ++ back) where
  needed known member _ := field?_insert (new known member) front json back
  missable known member _ := by rw [field?_insert (new known member) front json back]

theorem areAlike_cons_null {name : String} (mayBeMissing : name ∈ mayMiss)
    (missing : field? name fields = none) :
    AreAlike names mayMiss ((name.toList, null) :: fields) fields where
  needed known _ needed := by
    have other : known ≠ name := fun same => needed (same ▸ mayBeMissing)
    rw [field?_cons, if_neg other]
  missable known _ _ := by
    rw [field?_cons]
    split
    · next same =>
        rw [same, missing]
        rfl
    · rfl

end Alike

/-- How values are stored as objects, with fields of these names, some of which may be
missing: what fits is read back; what was read is read back, whatever it was read
from; fields of other names do not matter; and a missing field is the same as null. -/
structure IsStoredForm (toJson : α → Json) (ofJson? : Json → Option α) (Fits : α → Prop)
    (names mayMiss : List String) : Prop where
  recovers : ∀ value, Fits value → ofJson? (toJson value) = some value
  settles : ∀ json value, ofJson? json = some value → ofJson? (toJson value) = some value
  ignores : ∀ front name json back, (∀ known ∈ names, name ≠ known.toList) →
    ofJson? (.object (front ++ (name, json) :: back)) = ofJson? (.object (front ++ back))
  completes : ∀ name ∈ mayMiss, ∀ fields, field? name fields = none →
    ofJson? (.object ((name.toList, null) :: fields)) = ofJson? (.object fields)

/-- A lossless reader that looks its fields up by name makes a stored form. -/
theorem IsLossless.isStoredForm (lossless : IsLossless toJson ofJson? Fits)
    {names mayMiss : List String}
    (byName : ∀ {fields fields'}, AreAlike names mayMiss fields fields' →
      ofJson? (.object fields) = ofJson? (.object fields')) :
    IsStoredForm toJson ofJson? Fits names mayMiss where
  recovers _ := lossless.recovers
  settles _ _ read := lossless.recovers (lossless.fits read)
  ignores front _ json back new := byName (areAlike_insert new front json back)
  completes _ member _ missing := byName (areAlike_cons_null member missing)

end Json
end Testwright
