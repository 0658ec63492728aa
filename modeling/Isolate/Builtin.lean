import Isolate.Fault

/-!
# The table of functions

A formula applies functions of one argument, each with a number (`code`) and a name. Nine of them
have an evaluation rule (`hasRule`); the others are names only.

* `ofCode?`, `ofName?` - look a function up;
* `ofDatum?` - the function that a plain value identifies, as its code;
* `check` - the function that a plain value identifies, provided that it can be evaluated;
* `Unsupported` - the codes that do not pass this check, and why.
-/

namespace Isolate

/-- A named function of one argument. -/
inductive Builtin where
  | sin | cos | tan | asin | acos | atan
  | sec | cosec | cot
  | sinh | cosh | tanh | asinh | acosh | atanh | sech | csch | coth
  | sqrt | exp | ln | log | log2 | erf | erfc
deriving Repr, DecidableEq

namespace Builtin

/-- Every function, in the order of the codes. -/
def all : List Builtin :=
  [sin, cos, tan, asin, acos, atan, sec, cosec, cot, sinh, cosh, tanh, asinh, acosh, atanh, sech,
    csch, coth, sqrt, exp, ln, log, log2, erf, erfc]

/-- The number of a function; the codes start from one. -/
def code : Builtin → Int
  | sin => 1 | cos => 2 | tan => 3 | asin => 4 | acos => 5 | atan => 6
  | sec => 7 | cosec => 8 | cot => 9
  | sinh => 10 | cosh => 11 | tanh => 12 | asinh => 13 | acosh => 14 | atanh => 15
  | sech => 16 | csch => 17 | coth => 18
  | sqrt => 19 | exp => 20 | ln => 21 | log => 22 | log2 => 23 | erf => 24 | erfc => 25

/-- The name of a function. -/
def name : Builtin → String
  | sin => "sin" | cos => "cos" | tan => "tan" | asin => "asin" | acos => "acos" | atan => "atan"
  | sec => "sec" | cosec => "cosec" | cot => "cot"
  | sinh => "sinh" | cosh => "cosh" | tanh => "tanh"
  | asinh => "asinh" | acosh => "acosh" | atanh => "atanh"
  | sech => "sech" | csch => "csch" | coth => "coth"
  | sqrt => "sqrt" | exp => "exp" | ln => "ln" | log => "log" | log2 => "log2"
  | erf => "erf" | erfc => "erfc"

/-- The functions that can be evaluated. -/
def hasRule : Builtin → Bool
  | sin | cos | tan | asin | acos | atan | sqrt | exp | ln => true
  | _ => false

/-! ## Look-up -/

/-- The function with a code. -/
def ofCode? (code : Int) : Option Builtin :=
  all.find? (·.code == code)

/-- The function with a name, in any case. -/
def ofName? (name : String) : Option Builtin :=
  all.find? (·.name == name.toLower)

/-- The function that a plain value is the code of. -/
def ofDatum? (d : Datum) : Option Builtin :=
  d.whole?.bind ofCode?

/-- The function with a name, or a refusal of the name as given. -/
def named (name : String) : Except Fault Builtin :=
  match ofName? name with
  | some f => .ok f
  | none => .error (.unsupported (.text name))

/-- The function that a plain value is the code of, whether it can be evaluated or not. -/
def coded (d : Datum) : Except Fault Builtin :=
  match ofDatum? d with
  | some f => .ok f
  | none => .error (.unsupported d)

/-- The function that a plain value is the code of, if it can be evaluated. A function without a
rule is refused by its name, anything else as it is. -/
def check (d : Datum) : Except Fault Builtin :=
  match ofDatum? d with
  | some f => if f.hasRule then .ok f else .error (.unsupported (.text f.name))
  | none => .error (.unsupported d)

@[simp] theorem ofCode?_code (f : Builtin) : ofCode? f.code = some f := by
  cases f <;> rfl

theorem code_of_ofCode? {n : Int} {f : Builtin} (h : ofCode? n = some f) : f.code = n := by
  have := List.find?_some h
  simpa using this

@[simp] theorem ofDatum?_int (n : Int) : ofDatum? (.int n) = ofCode? n := rfl

/-- A check succeeds exactly for the codes of the functions with a rule. -/
theorem check_eq_ok_iff {n : Int} {f : Builtin} :
    check (.int n) = .ok f ↔ f.code = n ∧ f.hasRule = true := by
  constructor
  · intro h
    simp only [check, ofDatum?_int] at h
    split at h
    · rename_i g hg
      split at h
      · rename_i hr
        obtain rfl : g = f := by simpa using h
        exact ⟨code_of_ofCode? hg, hr⟩
      · simp at h
    · simp at h
  · rintro ⟨rfl, hr⟩
    simp [check, hr]

/-- Without a rule, a function is refused by its name. -/
theorem check_code (f : Builtin) :
    check (.int f.code)
      = if f.hasRule then .ok f else .error (.unsupported (.text f.name)) := by
  rw [check, ofDatum?_int, ofCode?_code]

/-- A code that is not in the table is refused as it is. -/
theorem check_of_unknown {id : Int} (h : ∀ f : Builtin, f.code ≠ id) :
    check (.int id) = .error (.unsupported (.int id)) := by
  have hnone : ofCode? id = none := by
    cases hf : ofCode? id with
    | none => rfl
    | some f => exact absurd (code_of_ofCode? hf) (h f)
  rw [check, ofDatum?_int, hnone]

/-- The codes of no function that can be evaluated, and the fault that says so. -/
inductive Unsupported : Int → Fault → Prop
  /-- A function of the table has no rule. It is called by its name. -/
  | noRule (f : Builtin) :
      f.hasRule = false → Unsupported f.code (.unsupported (.text f.name))
  /-- A function is not in the table. It is called by its code. -/
  | unknown {id : Int} :
      (∀ f : Builtin, f.code ≠ id) → Unsupported id (.unsupported (.int id))

/-- A check fails exactly for the other codes. -/
theorem check_eq_error_iff {id : Int} {fault : Fault} :
    check (.int id) = .error fault ↔ Unsupported id fault := by
  constructor
  · intro h
    by_cases hknown : ∃ f : Builtin, f.code = id
    · obtain ⟨f, rfl⟩ := hknown
      rw [check_code] at h
      split at h
      · exact absurd h (by simp)
      · rename_i hrule
        obtain rfl := Except.error.inj h
        exact .noRule f (by simpa using hrule)
    · have hunknown : ∀ f : Builtin, f.code ≠ id := fun f hf => hknown ⟨f, hf⟩
      rw [check_of_unknown hunknown] at h
      obtain rfl := Except.error.inj h
      exact .unknown hunknown
  · rintro (⟨f, hrule⟩ | hunknown)
    · simp [check_code, hrule]
    · exact check_of_unknown hunknown

end Builtin

end Isolate
