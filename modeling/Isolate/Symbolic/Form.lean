import Isolate.Builtin
import Isolate.Symbolic.Scalar

/-!
# Canonical forms

A `Form` is a formula in symbols whose sums and products are collected: the terms of a sum have
different items, each with a constant weight, and the factors of a product different bases, each
with an exponent. A number is the weight of the item one, a difference is a sum with a negative
weight, a quotient a product with a negative exponent, and a power alone a product of one factor.

* `Form` - the type, with its decidable equality;
* `Form.occurrences`, `Form.scalars`, `Form.functions` - the symbols, the constants and the
  functions of a form;
* `Form.key`, `Key.order` - an order of forms, in which the factors of a product stand.

The operations that keep forms collected are in `Isolate.Symbolic.Collect`.
-/

namespace Isolate.Symbolic

/-- An item with a constant weight. -/
structure Weighted (α : Type) where
  weight : Scalar
  item : α

/-- A base with an exponent. -/
structure Powered (α : Type) where
  base : α
  exponent : α

/-- An irrational number with a name. -/
inductive NamedNumber where
  /-- The base of natural exponentials. -/
  | euler
  /-- Half a turn. -/
  | pi
deriving DecidableEq, Inhabited

/-- A formula in symbols. -/
inductive Form where
  | scalar (value : Scalar)
  | named (number : NamedNumber)
  | symbol (name : String)
  | sum (terms : List (Weighted Form))
  | product (coefficient : Scalar) (factors : List (Powered Form))
  | apply (f : Builtin) (argument : Form)
deriving Inhabited

namespace Form

/-! ## Equality -/

mutual

/-- Whether two forms are the same. -/
def same : Form → Form → Bool
  | scalar c, scalar d => c == d
  | named c, named d => c == d
  | symbol a, symbol b => a == b
  | sum ts, sum us => sameTerms ts us
  | product c fs, product d gs => c == d && sameFactors fs gs
  | apply f a, apply g b => f == g && same a b
  | _, _ => false

/-- Whether two lists of terms are the same. -/
def sameTerms : List (Weighted Form) → List (Weighted Form) → Bool
  | [], [] => true
  | ⟨c, a⟩ :: ts, ⟨d, b⟩ :: us => c == d && same a b && sameTerms ts us
  | _, _ => false

/-- Whether two lists of factors are the same. -/
def sameFactors : List (Powered Form) → List (Powered Form) → Bool
  | [], [] => true
  | ⟨a, e⟩ :: fs, ⟨b, g⟩ :: gs => same a b && same e g && sameFactors fs gs
  | _, _ => false

end

mutual

theorem same_self : ∀ a, same a a = true
  | scalar _ => by simp [same]
  | named _ => by simp [same]
  | symbol _ => by simp [same]
  | sum ts => by simpa [same] using sameTerms_self ts
  | product _ fs => by simpa [same] using sameFactors_self fs
  | apply _ a => by simpa [same] using same_self a

theorem sameTerms_self : ∀ ts, sameTerms ts ts = true
  | [] => rfl
  | ⟨_, a⟩ :: ts => by simp [sameTerms, same_self a, sameTerms_self ts]

theorem sameFactors_self : ∀ fs, sameFactors fs fs = true
  | [] => rfl
  | ⟨a, e⟩ :: fs => by simp [sameFactors, same_self a, same_self e, sameFactors_self fs]

end

mutual

theorem eq_of_same : ∀ {a b : Form}, same a b = true → a = b
  | scalar _, b, h => by cases b <;> simp_all [same]
  | named _, b, h => by cases b <;> simp_all [same]
  | symbol _, b, h => by cases b <;> simp_all [same]
  | sum ts, b, h => by
    cases b with
    | sum us => rw [@eq_of_sameTerms ts us (by simpa [same] using h)]
    | _ => simp [same] at h
  | product c fs, b, h => by
    cases b with
    | product d gs =>
      simp only [same, Bool.and_eq_true, beq_iff_eq] at h
      rw [h.1, eq_of_sameFactors h.2]
    | _ => simp [same] at h
  | apply f a, b, h => by
    cases b with
    | apply g b =>
      simp only [same, Bool.and_eq_true, beq_iff_eq] at h
      rw [h.1, eq_of_same h.2]
    | _ => simp [same] at h

theorem eq_of_sameTerms : ∀ {ts us : List (Weighted Form)}, sameTerms ts us = true → ts = us
  | [], us, h => by cases us <;> simp_all [sameTerms]
  | ⟨c, a⟩ :: ts, us, h => by
    cases us with
    | nil => simp [sameTerms] at h
    | cons u us =>
      obtain ⟨d, b⟩ := u
      simp only [sameTerms, Bool.and_eq_true, beq_iff_eq] at h
      rw [h.1.1, eq_of_same h.1.2, eq_of_sameTerms h.2]

theorem eq_of_sameFactors : ∀ {fs gs : List (Powered Form)}, sameFactors fs gs = true → fs = gs
  | [], gs, h => by cases gs <;> simp_all [sameFactors]
  | ⟨a, e⟩ :: fs, gs, h => by
    cases gs with
    | nil => simp [sameFactors] at h
    | cons g gs =>
      obtain ⟨b, g⟩ := g
      simp only [sameFactors, Bool.and_eq_true] at h
      rw [eq_of_same h.1.1, eq_of_same h.1.2, eq_of_sameFactors h.2]

end

instance : DecidableEq Form := fun a b =>
  decidable_of_iff (same a b = true) ⟨eq_of_same, fun h => h ▸ same_self a⟩

/-! ## Parts -/

/-- One. -/
def one : Form := scalar .one

/-- The base of natural exponentials. -/
def euler : Form := named .euler

/-- Half a turn. -/
def pi : Form := named .pi

/-- The constant that a form is. -/
def scalar? : Form → Option Scalar
  | scalar c => some c
  | _ => none

/-- The whole number that a form is. -/
def integer? (a : Form) : Option Int := a.scalar?.bind Scalar.integer?

mutual

/-- The symbols of a form, from left to right. -/
def occurrences : Form → List String
  | scalar _ => []
  | named _ => []
  | symbol name => [name]
  | sum terms => termOccurrences terms
  | product _ factors => factorOccurrences factors
  | apply _ argument => occurrences argument

/-- The symbols of some terms. -/
def termOccurrences : List (Weighted Form) → List String
  | [] => []
  | ⟨_, a⟩ :: rest => occurrences a ++ termOccurrences rest

/-- The symbols of some factors. -/
def factorOccurrences : List (Powered Form) → List String
  | [] => []
  | ⟨b, e⟩ :: rest => occurrences b ++ (occurrences e ++ factorOccurrences rest)

end

mutual

/-- The constants of a form, from left to right. -/
def scalars : Form → List Scalar
  | scalar c => [c]
  | named _ => []
  | symbol _ => []
  | sum terms => termScalars terms
  | product c factors => c :: factorScalars factors
  | apply _ argument => scalars argument

/-- The constants of some terms. -/
def termScalars : List (Weighted Form) → List Scalar
  | [] => []
  | ⟨c, a⟩ :: rest => c :: (scalars a ++ termScalars rest)

/-- The constants of some factors. -/
def factorScalars : List (Powered Form) → List Scalar
  | [] => []
  | ⟨b, e⟩ :: rest => scalars b ++ (scalars e ++ factorScalars rest)

end

/-- Whether an exponent makes a power a square root or the inverse of one. -/
def isHalf (exponent : Option Scalar) : Bool :=
  exponent == some (.exact (1 / 2)) || exponent == some (.exact (-1 / 2))

mutual

/-- The functions that a form applies, from left to right; square roots and exponentials are
powers. -/
def functions : Form → List Builtin
  | scalar _ => []
  | named _ => []
  | symbol _ => []
  | sum terms => termFunctions terms
  | product _ factors => factorFunctions factors
  | apply f argument => f :: functions argument

/-- The functions that some terms apply. -/
def termFunctions : List (Weighted Form) → List Builtin
  | [] => []
  | ⟨_, a⟩ :: rest => functions a ++ termFunctions rest

/-- The functions that some factors apply. -/
def factorFunctions : List (Powered Form) → List Builtin
  | [] => []
  | ⟨b, e⟩ :: rest =>
    (if same b euler then (if same e one then [] else [.exp])
      else if isHalf e.scalar? then [.sqrt] else [])
      ++ (functions b ++ (functions e ++ factorFunctions rest))

end

end Form

/-! ## Order -/

/-- What a form is ordered by: the rank of its kind and a label, its parts, its exponent, and its
constant coefficient. -/
inductive Key where
  | node (rank : Nat) (label : String) (parts exponent : List Key) (value : Scalar)
deriving Inhabited

namespace Key

/-- The rank of a constant. -/
def scalarRank : Nat := 1

/-- The rank of a named number. -/
def namedRank : NamedNumber → Nat
  | .euler => 2
  | .pi => 3

/-- The rank of a symbol. -/
def symbolRank : Nat := 4

/-- The rank of a product of several factors. -/
def productRank : Nat := 5

/-- The rank of a sum. -/
def sumRank : Nat := 6

/-- The rank of a power of a power. -/
def powerRank : Nat := 7

/-- The key of a constant. -/
def ofScalar (c : Scalar) : Key := node scalarRank "" [] [] c

/-- The exponent one. -/
def first : List Key := [ofScalar .one]

/-- The key of a form with another constant coefficient. -/
def weighted (c : Scalar) : Key → Key
  | node rank label parts exponent _ => node rank label parts exponent c

/-- The rank of a function: exponentials, logarithms and the common trigonometric functions come
before the others. -/
def functionRank : Builtin → Nat
  | .exp => 10
  | .ln => 11
  | .sin => 20
  | .cos => 21
  | .tan => 22
  | .cot => 23
  | _ => 10000

/-- The key of a power, by the keys of base and exponent. -/
def raised : Key → Key → Key
  | node rank label parts [node _ _ _ _ (.exact q)] value, e =>
    if q = 1 then node rank label parts [e] value
    else node powerRank "" [node rank label parts [ofScalar (.exact q)] value] [e] .one
  | node rank label [] [] value, e => node rank label [ofScalar value] [e] .one
  | base, e => node powerRank "" [base] [e] .one

mutual

/-- The order of keys: by rank and label, then by the number of parts and part by part, then by
exponent and coefficient. -/
def order : Key → Key → Ordering
  | node r l ps es c, node s m qs gs d =>
    (compare r s).then <| (compare ps.length qs.length).then <| (compare l m).then <|
      (orderAll ps qs).then <| (orderAll es gs).then (c.order d)

/-- The order of lists of keys, key by key. -/
def orderAll : List Key → List Key → Ordering
  | [], [] => .eq
  | [], _ :: _ => .lt
  | _ :: _, [] => .gt
  | a :: as, b :: bs => (order a b).then (orderAll as bs)

end

end Key

namespace Form

mutual

/-- The key of a form. -/
def key : Form → Key
  | scalar c => .ofScalar c
  | named c => .node (Key.namedRank c) "" [] Key.first .one
  | symbol name => .node Key.symbolRank name [] Key.first .one
  | sum terms => .node Key.sumRank "" (termKeys terms) Key.first .one
  | product c factors =>
    match factorKeys factors with
    | [k] => k.weighted c
    | ks => .node Key.productRank "" ks Key.first c
  | apply f argument => .node (Key.functionRank f) f.name [key argument] Key.first .one

/-- The keys of some terms. -/
def termKeys : List (Weighted Form) → List Key
  | [] => []
  | ⟨c, a⟩ :: rest => (key a).weighted c :: termKeys rest

/-- The keys of some factors; an exponential counts as a function of its exponent. -/
def factorKeys : List (Powered Form) → List Key
  | [] => []
  | ⟨b, e⟩ :: rest =>
    (if same b euler && !same e one then
        .node (Key.functionRank .exp) Builtin.exp.name [key e] Key.first .one
      else Key.raised (key b) (key e)) :: factorKeys rest

end

/-- The key of a factor. -/
def factorKey (f : Powered Form) : Key := key (product .one [f])

end Form

end Isolate.Symbolic
