import Isolate.Proofs.Symbolic.Order
import Mathlib.Algebra.BigOperators.Finsupp.Basic
import Mathlib.Data.Finsupp.Order
import Mathlib.Data.List.DropRight
import Mathlib.Data.List.ToFinsupp

/-!
# Exponents as functions

The exponents of a product are a function of the number of the symbol that is zero almost
everywhere.  A list without a zero at the end is determined by its function, and the operations on
lists are the ones on functions.

* `Exponents.powers` - the function;
* `Exponents.Trimmed` - no zero stands at the end;
* `Exponents.eq_of_powers_eq` - trimmed lists with the same function are the same.
-/

namespace Isolate.Symbolic

namespace Exponents

/-- The exponent of every symbol. -/
noncomputable def powers (m : Exponents) : ℕ →₀ ℕ := List.toFinsupp m

/-- No zero stands at the end. -/
def Trimmed (m : Exponents) : Prop := m.getLast? ≠ some 0

variable {m n : Exponents}

theorem powers_apply (m : Exponents) (i : ℕ) : m.powers i = m.getD i 0 := List.toFinsupp_apply m i

theorem powers_nil : powers [] = 0 := List.toFinsupp_nil

/-! ## Trimmed lists -/

theorem trimmed_nil : Trimmed [] := by simp [Trimmed]

theorem trimmed_cons {e : ℕ} : Trimmed (e :: m) ↔ if m = [] then e ≠ 0 else Trimmed m := by
  cases m <;> simp [Trimmed, List.getLast?_cons]

theorem trim_concat_zero (m : Exponents) : trim (m ++ [0]) = m.trim := by
  simp [trim]

theorem trim_concat {e : ℕ} (he : e ≠ 0) (m : Exponents) : trim (m ++ [e]) = m ++ [e] := by
  simp [trim, he]

theorem trimmed_trim (m : Exponents) : m.trim.Trimmed := by
  induction m using List.reverseRecOn with
  | nil => exact trimmed_nil
  | append_singleton m e ih =>
    by_cases he : e = 0
    · rwa [he, trim_concat_zero]
    · simpa [trim_concat he, Trimmed] using he

theorem powers_concat_zero (m : Exponents) : powers (m ++ [0]) = m.powers := by
  ext i
  rw [powers_apply, powers_apply]
  induction m generalizing i with
  | nil => cases i <;> simp
  | cons e m ih =>
    cases i with
    | zero => rfl
    | succ i => exact ih i

theorem powers_trim (m : Exponents) : m.trim.powers = m.powers := by
  induction m using List.reverseRecOn with
  | nil => rfl
  | append_singleton m e ih =>
    by_cases he : e = 0
    · rw [he, trim_concat_zero, ih, powers_concat_zero]
    · rw [trim_concat he]

/-- A trimmed list goes no further than the last symbol that it needs. -/
theorem length_le_of_powers_eq (hm : m.Trimmed) (h : m.powers = n.powers) :
    m.length ≤ n.length := by
  by_contra hlt
  have hne : m ≠ [] := by rintro rfl; simp at hlt
  have hlast : m.getD (m.length - 1) 0 = 0 := by
    rw [← powers_apply, h, powers_apply, List.getD_eq_default _ _ (by omega)]
  refine hm ?_
  rw [List.getLast?_eq_getElem?, ← hlast, List.getD_eq_getElem?_getD,
    List.getElem?_eq_getElem (by have := List.length_pos_iff.2 hne; omega)]
  rfl

/-- **A trimmed list is determined by its function.** -/
theorem eq_of_powers_eq (hm : m.Trimmed) (hn : n.Trimmed) (h : m.powers = n.powers) : m = n := by
  have hlength : m.length = n.length :=
    le_antisymm (length_le_of_powers_eq hm h) (length_le_of_powers_eq hn h.symm)
  refine List.ext_getElem hlength fun i hi hi' => ?_
  have hpowers := DFunLike.congr_fun h i
  rwa [powers_apply, powers_apply, List.getD_eq_getElem _ _ hi, List.getD_eq_getElem _ _ hi']
    at hpowers

/-! ## Operations -/

theorem powers_add (m n : Exponents) : (m.add n).powers = m.powers + n.powers := by
  ext i
  simp only [Finsupp.add_apply, powers_apply]
  induction m generalizing n i with
  | nil => simp [add]
  | cons a m ih =>
    cases n with
    | nil => simp [add]
    | cons b n =>
      cases i with
      | zero => rfl
      | succ i => simpa [add] using ih n i

theorem trimmed_add (hm : m.Trimmed) (hn : n.Trimmed) : (m.add n).Trimmed := by
  induction m generalizing n with
  | nil => exact hn
  | cons a m ih =>
    cases n with
    | nil => exact hm
    | cons b n =>
      rw [trimmed_cons] at hm hn
      rw [add, trimmed_cons]
      cases m with
      | nil =>
        cases n with
        | nil => simp_all [add]
        | cons _ _ => simpa [add] using hn
      | cons c m =>
        have hm' : Trimmed (c :: m) := by simpa using hm
        cases n with
        | nil => simpa [add] using hm'
        | cons d n => exact ih hm' (by simpa using hn)

theorem powers_common (m n : Exponents) (i : ℕ) :
    (m.common n).powers i = min (m.powers i) (n.powers i) := by
  rw [common, powers_trim, powers_apply, powers_apply, powers_apply]
  induction m generalizing n i with
  | nil => simp
  | cons a m ih =>
    cases n with
    | nil => simp
    | cons b n =>
      cases i with
      | zero => rfl
      | succ i => simpa using ih n i

theorem powers_common_le (m n : Exponents) :
    (m.common n).powers ≤ m.powers ∧ (m.common n).powers ≤ n.powers :=
  ⟨fun i => (powers_common m n i).le.trans (min_le_left _ _),
    fun i => (powers_common m n i).le.trans (min_le_right _ _)⟩

theorem powers_sub (m n : Exponents) : (m.sub n).powers = m.powers - n.powers := by
  ext i
  rw [sub, powers_trim, Finsupp.tsub_apply, powers_apply, powers_apply, powers_apply]
  induction m generalizing n i with
  | nil => cases n <;> simp [differences]
  | cons a m ih =>
    cases n with
    | nil => simp [differences]
    | cons b n =>
      cases i with
      | zero => rfl
      | succ i => simpa [differences] using ih n i

theorem trimmed_sub (m n : Exponents) : (m.sub n).Trimmed := trimmed_trim _

theorem powers_map_mul (k : ℕ) (m : Exponents) : powers (m.map (k * ·)) = k • m.powers := by
  ext i
  simp only [powers_apply, Finsupp.smul_apply, smul_eq_mul, List.getD_eq_getElem?_getD,
    List.getElem?_map]
  cases m[i]? <;> simp

theorem trimmed_map_mul {k : ℕ} (hk : k ≠ 0) (hm : m.Trimmed) : Trimmed (m.map (k * ·)) := by
  simp only [Trimmed, List.getLast?_map] at hm ⊢
  cases hlast : m.getLast? with
  | none => simp
  | some e => simp_all

/-- The exponents of a symbol alone. -/
theorem powers_symbol (index : ℕ) :
    powers (List.replicate index 0 ++ [1]) = Finsupp.single index 1 := by
  ext i
  rw [powers_apply, Finsupp.single_apply]
  induction index generalizing i with
  | zero => cases i <;> simp
  | succ index ih =>
    cases i with
    | zero => simp [List.replicate_succ]
    | succ i => simpa [List.replicate_succ] using ih i

end Exponents

end Isolate.Symbolic
