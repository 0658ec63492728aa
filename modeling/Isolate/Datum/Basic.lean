import Isolate.Number.Text
import Isolate.Text.Quoted

/-!
# Plain values

A `Datum` is a value from outside that is not a formula: a number given by a caller, a column of
samples, or whatever stands where a formula was expected. A plain value has the name of its type,
a text, a truth value, and for some values a whole number it is equal to.
-/

namespace Isolate

/-- A plain value. -/
inductive Datum where
  | null
  | bool (value : Bool)
  | int (value : Int)
  | real (value : Float)
  | text (value : String)
  | list (items : List Datum)
  | record (fields : List (String × Datum))
deriving Inhabited

namespace Datum

/-! ## Equality -/

mutual

/-- Whether two plain values are the same. -/
def same : Datum → Datum → Bool
  | null, null => true
  | bool a, bool b => a == b
  | int a, int b => a == b
  | real a, real b => decide (a = b)
  | text a, text b => a == b
  | list as, list bs => sameItems as bs
  | record as, record bs => sameFields as bs
  | _, _ => false

/-- Whether two lists hold the same plain values. -/
def sameItems : List Datum → List Datum → Bool
  | [], [] => true
  | a :: as, b :: bs => same a b && sameItems as bs
  | _, _ => false

/-- Whether two records hold the same fields in the same order. -/
def sameFields : List (String × Datum) → List (String × Datum) → Bool
  | [], [] => true
  | (k, a) :: as, (l, b) :: bs => k == l && same a b && sameFields as bs
  | _, _ => false

end

mutual

theorem same_self : ∀ a, same a a = true
  | null => rfl
  | bool _ => by simp [same]
  | int _ => by simp [same]
  | real _ => by simp [same]
  | text _ => by simp [same]
  | list as => by simpa [same] using sameItems_self as
  | record as => by simpa [same] using sameFields_self as

theorem sameItems_self : ∀ as, sameItems as as = true
  | [] => rfl
  | a :: as => by simp [sameItems, same_self a, sameItems_self as]

theorem sameFields_self : ∀ as, sameFields as as = true
  | [] => rfl
  | (k, a) :: as => by simp [sameFields, same_self a, sameFields_self as]

end

mutual

theorem eq_of_same : ∀ {a b : Datum}, same a b = true → a = b
  | null, b, h => by cases b <;> simp_all [same]
  | bool _, b, h => by cases b <;> simp_all [same]
  | int _, b, h => by cases b <;> simp_all [same]
  | real _, b, h => by cases b <;> simp_all [same]
  | text _, b, h => by cases b <;> simp_all [same]
  | list as, b, h => by
    cases b with
    | list bs => rw [@eq_of_sameItems as bs (by simpa [same] using h)]
    | _ => simp [same] at h
  | record as, b, h => by
    cases b with
    | record bs => rw [@eq_of_sameFields as bs (by simpa [same] using h)]
    | _ => simp [same] at h

theorem eq_of_sameItems : ∀ {as bs : List Datum}, sameItems as bs = true → as = bs
  | [], bs, h => by cases bs <;> simp_all [sameItems]
  | a :: as, bs, h => by
    cases bs with
    | nil => simp [sameItems] at h
    | cons b bs =>
      simp only [sameItems, Bool.and_eq_true] at h
      rw [eq_of_same h.1, eq_of_sameItems h.2]

theorem eq_of_sameFields : ∀ {as bs : List (String × Datum)}, sameFields as bs = true → as = bs
  | [], bs, h => by cases bs <;> simp_all [sameFields]
  | (k, a) :: as, bs, h => by
    cases bs with
    | nil => simp [sameFields] at h
    | cons b bs =>
      obtain ⟨l, b⟩ := b
      simp only [sameFields, Bool.and_eq_true, beq_iff_eq] at h
      rw [h.1.1, eq_of_same h.1.2, eq_of_sameFields h.2]

end

instance : DecidableEq Datum := fun a b =>
  decidable_of_iff (same a b = true) ⟨eq_of_same, fun h => h ▸ same_self a⟩

/-! ## Type, truth and text -/

/-- The name of a value's type. -/
def typeName : Datum → String
  | null => "NoneType"
  | bool _ => "bool"
  | int _ => "int"
  | real _ => "float"
  | text _ => "str"
  | list _ => "list"
  | record _ => "dict"

/-- Nothing, zero and what is empty are false; every other value is true. -/
def truth : Datum → Bool
  | null => false
  | bool b => b
  | int n => n != 0
  | real x => x != 0
  | text s => s != ""
  | list items => !items.isEmpty
  | record fields => !fields.isEmpty

mutual

/-- A value as text. -/
def shown : Datum → String
  | null => "None"
  | bool true => "True"
  | bool false => "False"
  | int n => Int.repr n
  | real x => Number.exact x
  | text s => Text.quoted s
  | list items => "[" ++ ", ".intercalate (shownItems items) ++ "]"
  | record fields => "\x7b" ++ ", ".intercalate (shownFields fields) ++ "\x7d"

/-- The texts of the values in a list. -/
def shownItems : List Datum → List String
  | [] => []
  | item :: rest => shown item :: shownItems rest

/-- The texts of the fields of a record. -/
def shownFields : List (String × Datum) → List String
  | [] => []
  | (name, value) :: rest => (Text.quoted name ++ ": " ++ shown value) :: shownFields rest

end

/-- The whole number that a value is equal to; the truth values are zero and one. -/
def whole? : Datum → Option Int
  | bool b => some (if b then 1 else 0)
  | int n => some n
  | real x => Binary64.integer? x
  | _ => none

end Datum

end Isolate
