import Isolate.Proofs.Number.Numeral
import Isolate.Proofs.Number.Rounding

/-!
# Constants read back

The text of a constant is a sign and a numeral.  Nothing about it has to be made plain before it is
read, the numeral stands for a decimal that reads back as the magnitude of the constant, and the
double with that sign and that magnitude is the constant again.  Zeros are written without a sign,
so of the two zeros only one is read.

* `read?_of_isUnsigned` - how a text of a sign and a numeral is read;
* `exists_numeral_constant` - the numeral of a constant;
* `constant_round_trip` - **constants read back**, and no two numbers have the same text.
-/

namespace Isolate.Number

open Binary64 Decimal

/-! ## Plain texts -/

theorem exists_ofNat_of_isDigit {c : Char} (h : c.isDigit = true) :
    ∃ k < 10, c = Char.ofNat (48 + k) := by
  have hdigit : 48 ≤ c.toNat ∧ c.toNat ≤ 57 := Char.isDigit_iff_toNat.1 h
  refine ⟨c.toNat - 48, by omega, ?_⟩
  rw [Nat.add_sub_cancel' hdigit.1, Char.ofNat_toNat]

/-- The characters of numerals are plain. -/
theorem plainChar_of_isNumeralChar {c : Char} (h : isNumeralChar c = true) : plainChar c = c := by
  have hdigits : ∀ k < 10, plainChar (Char.ofNat (48 + k)) = Char.ofNat (48 + k) := by decide
  simp only [isNumeralChar, Bool.or_eq_true, beq_iff_eq] at h
  obtain (((h | rfl) | rfl) | rfl) | rfl := h
  · obtain ⟨k, hk, rfl⟩ := exists_ofNat_of_isDigit h
    exact hdigits k hk
  all_goals decide

theorem strip_of_ne_space {cs : List Char} (h : ∀ c ∈ cs, c ≠ ' ') : strip cs = cs := by
  have hdrop : ∀ ds : List Char, (∀ c ∈ ds, c ≠ ' ') → ds.dropWhile (· = ' ') = ds := by
    intro ds hds
    have hhead : ∀ c ∈ ds.head?, decide (c = ' ') = false := fun c hc =>
      decide_eq_false (hds c (List.mem_of_mem_head? hc))
    have hnone : ∀ c ∈ ([] : List Char), decide (c = ' ') = true := by simp
    exact (span_append ds hnone hhead).2
  rw [strip, hdrop cs h, hdrop cs.reverse (by simpa using h), List.reverse_reverse]

theorem dropSeparators?_of_ne_underscore {cs : List Char} (h : ∀ c ∈ cs, c ≠ '_')
    (afterDigit : Bool) : dropSeparators? afterDigit cs = some cs := by
  induction cs generalizing afterDigit with
  | nil => simp [dropSeparators?]
  | cons c cs ih =>
    obtain ⟨hc, hcs⟩ := List.forall_mem_cons.1 h
    simp [dropSeparators?, hc, ih hcs]

/-- Nothing about a numeral has to be made plain. -/
theorem plain?_of_isNumeralChar {s : String} (h : ∀ c ∈ s.toList, isNumeralChar c = true) :
    plain? s = some s.toList := by
  have hplain : s.toList.map plainChar = s.toList :=
    (List.map_congr_left fun c hc => plainChar_of_isNumeralChar (h c hc)).trans (List.map_id _)
  have hspace : ∀ c ∈ s.toList, c ≠ ' ' := by
    rintro c hc rfl
    exact absurd (h _ hc) (by decide)
  have hunderscore : ∀ c ∈ s.toList, c ≠ '_' := by
    rintro c hc rfl
    exact absurd (h _ hc) (by decide)
  rw [plain?, hplain, strip_of_ne_space hspace, dropSeparators?_of_ne_underscore hunderscore]

/-! ## Numbers read from numerals -/

/-- What begins with a digit is not a word. -/
theorem readUnsigned?_of_isUnsigned (negative : Bool) {cs : List Char} (h : IsUnsigned cs) :
    readUnsigned? negative cs
      = (readDecimal? cs).map fun d => ofMagnitude negative (nearest d.num d.den) := by
  obtain ⟨⟨c, hc, hdigit⟩, -⟩ := h
  obtain ⟨rest, rfl⟩ := List.head?_eq_some_iff.1 hc
  have hword : ∀ w : String, w.toList.head? = some 'i' ∨ w.toList.head? = some 'n' →
      String.ofList ((c :: rest).map Char.toLower) ≠ w := by
    rintro w hw rfl
    rw [String.toList_ofList, List.map_cons, List.head?_cons] at hw
    have hlower : ∀ k < 10, (Char.ofNat (48 + k)).toLower ≠ 'i' ∧
        (Char.ofNat (48 + k)).toLower ≠ 'n' := by decide
    obtain ⟨k, hk, rfl⟩ := exists_ofNat_of_isDigit hdigit
    obtain ⟨hi, hn⟩ := hlower k hk
    simp [hi, hn] at hw
  simp only [readUnsigned?, hword "inf" (.inl rfl), hword "infinity" (.inl rfl),
    hword "nan" (.inr rfl), or_self, if_false, magnitude_eq_nearest]

/-- A text of a sign and a numeral. -/
theorem read?_of_isUnsigned {s : String} {negative : Bool} {cs : List Char}
    (hs : s.toList = (sign negative).toList ++ cs) (h : IsUnsigned cs) :
    read? s = (readDecimal? cs).map fun d => ofMagnitude negative (nearest d.num d.den) := by
  have hsign : ∀ c ∈ (sign negative).toList, isNumeralChar c = true := by
    cases negative <;> simp [sign, isNumeralChar]
  have hchars : ∀ c ∈ s.toList, isNumeralChar c = true := by
    rw [hs]
    exact List.forall_mem_append.2 ⟨hsign, h.2⟩
  rw [read?, plain?_of_isNumeralChar hchars, hs]
  simp only [splitSign_sign_append negative h, readUnsigned?_of_isUnsigned negative h]

/-! ## The numeral of a constant -/

theorem rational?_eq_valueOf {x : Float} {negative : Bool} {m : Nat}
    (h : classify x = .finite negative m) :
    rational? x = some (if negative then -valueOf m else valueOf m) := by
  rw [rational?_of_classify h]
  cases negative with
  | false => rfl
  | true => exact congrArg some (neg_div _ _)

/-- A finite double is the one made of its sign and its magnitude. -/
theorem ofMagnitude_of_classify {x : Float} {negative : Bool} {m : Nat}
    (h : classify x = .finite negative m) : ofMagnitude negative m = x := by
  rw [ofMagnitude, Nat.add_comm, ← toNat_toBits_of_classify h, UInt64.ofNat_toNat,
    Float.ofBits_toBits]

/-- A whole number has the sign of the double, unless it is zero, and its magnitude. -/
theorem whole_of_classify {x : Float} {negative : Bool} {m : Nat} {n : Int}
    (hc : classify x = .finite negative m) (hn : integer? x = some n) :
    decide (n < 0) = (negative && decide (m ≠ 0)) ∧ (n.natAbs : ℚ) = valueOf m := by
  have hvalue : (n : ℚ) = if negative then -valueOf m else valueOf m := by
    rw [integer?_eq_some_iff, rational?_eq_valueOf hc] at hn
    exact (Option.some.inj hn).symm
  have hnonneg := valueOf_nonneg m
  have hneg : n < 0 ↔ negative = true ∧ m ≠ 0 := by
    rw [← Int.cast_lt_zero (R := ℚ), hvalue, ← valueOf_pos_iff]
    cases negative with
    | false => simpa using hnonneg
    | true => simp
  constructor
  · rw [Bool.eq_iff_iff, Bool.and_eq_true, decide_eq_true_iff, decide_eq_true_iff]
    exact hneg
  · rw [Nat.cast_natAbs, Int.cast_abs, hvalue]
    cases negative with
    | false => exact abs_of_nonneg hnonneg
    | true => exact (abs_neg _).trans (abs_of_nonneg hnonneg)

/-- **The text of a constant is a numeral that reads back as its magnitude.** -/
theorem exists_numeral_constant {x : Float} {negative : Bool} {m : Nat}
    (hc : classify x = .finite negative m) :
    ∃ cs d, (constant x).toList = (sign (negative && decide (m ≠ 0))).toList ++ cs ∧
      IsUnsigned cs ∧ readDecimal? cs = some d ∧ d.readsBack m = true := by
  cases hi : integer? x with
  | some n =>
    obtain ⟨hsign, hvalue⟩ := whole_of_classify hc hi
    obtain ⟨d, hread, hd⟩ := exists_readDecimal?_toDigits n.natAbs
    have hback : d.readsBack m = true :=
      readsBack_of_value_eq (hd.trans (hvalue.trans (value_exact m).symm)) (readsBack_exact m)
    rw [constant_of_integer? hi, toList_repr, hsign]
    exact ⟨_, d, rfl, isUnsigned_toDigits _, hread, hback⟩
  | none =>
    obtain ⟨negative', m', hc', hm, htext⟩ :=
      exists_constant_of_integer?_eq_none (isFinite_of_classify hc) hi
    obtain ⟨rfl, rfl⟩ := Class.finite.inj (hc.symm.trans hc')
    have hne := coefficient_shortest_ne_zero hm
    obtain ⟨d, hread, hd⟩ := exists_readDecimal?_text layout hne
    rw [htext, String.toList_append, decide_eq_true hm, Bool.and_true]
    exact ⟨_, d, rfl, (isUnsigned_text layout hne).1, hread,
      readsBack_of_value_eq hd (readsBack_shortest m)⟩

/-! ## Zeros -/

theorem classify_zero : classify 0.0 = .finite false 0 := by decide +kernel

theorem classify_neg_zero : classify (-0.0) = .finite true 0 := by decide +kernel

/-- The double with the sign of a constant is the constant again, or a zero in place of a zero. -/
theorem ofMagnitude_constant_sign {x : Float} {negative : Bool} {m : Nat}
    (hc : classify x = .finite negative m) :
    classify (ofMagnitude (negative && decide (m ≠ 0)) m)
        = .finite (negative && decide (m ≠ 0)) m ∧
      rational? (ofMagnitude (negative && decide (m ≠ 0)) m) = rational? x := by
  by_cases hm : m = 0
  · subst hm
    rw [decide_eq_false (by simp), Bool.and_false, ofMagnitude_of_classify classify_zero]
    refine ⟨classify_zero, ?_⟩
    rw [rational?_eq_valueOf classify_zero, rational?_eq_valueOf hc, valueOf_zero, neg_zero,
      ite_self, ite_self]
  · rw [decide_eq_true hm, Bool.and_true, ofMagnitude_of_classify hc]
    exact ⟨hc, rfl⟩

/-- A double is zero if its value is. -/
theorem eq_zero_of_rational? {x : Float} (h : rational? x = some 0) : x = 0.0 ∨ x = -0.0 := by
  obtain ⟨negative, m, hc⟩ := exists_classify_of_rational? h
  have hm : m = 0 := by
    rw [rational?_eq_valueOf hc, Option.some.injEq] at h
    by_contra hne
    have hpos := valueOf_pos_iff.2 hne
    cases negative with
    | false => exact hpos.ne' h
    | true => exact hpos.ne' (neg_eq_zero.1 h)
  rw [hm] at hc
  cases negative with
  | false => exact .inl (eq_of_classify hc classify_zero)
  | true => exact .inr (eq_of_classify hc classify_neg_zero)

/-- Only the two zeros are different doubles that are the same number. -/
theorem rational?_eq_iff {x y : Float} (hx : isFinite x = true) :
    rational? x = rational? y ↔ x = y ∨ x = 0.0 ∧ y = -0.0 ∨ x = -0.0 ∧ y = 0.0 := by
  have hzero : rational? 0.0 = some 0 := by
    rw [rational?_eq_valueOf classify_zero, valueOf_zero]
    rfl
  have hnegZero : rational? (-0.0) = some 0 := by
    rw [rational?_eq_valueOf classify_neg_zero, valueOf_zero]
    rfl
  constructor
  · intro h
    obtain ⟨q, hq⟩ := isSome_rational?_of_isFinite hx
    by_cases hne : q = 0
    · rw [hne] at hq
      rcases eq_zero_of_rational? hq with rfl | rfl <;>
        rcases eq_zero_of_rational? (h ▸ hq) with rfl | rfl <;> simp
    · exact .inl (eq_of_rational? hq (h ▸ hq) hne)
  · rintro (rfl | ⟨rfl, rfl⟩ | ⟨rfl, rfl⟩)
    · rfl
    · rw [hzero, hnegZero]
    · rw [hzero, hnegZero]

/-! ## The round trip -/

/-- What is read from the text of a constant. -/
theorem exists_read?_constant {x : Float} (hx : isFinite x = true) :
    ∃ negative cs d m y,
      (constant x).toList = (sign negative).toList ++ cs ∧ readDecimal? cs = some d ∧
      d.RoundsTo m ∧ classify y = .finite negative m ∧
      read? (constant x) = some y ∧ rational? y = rational? x := by
  obtain ⟨negative, m, hc⟩ := exists_classify_of_isFinite hx
  obtain ⟨cs, d, htext, hcs, hread, hback⟩ := exists_numeral_constant hc
  obtain ⟨hclass, hvalue⟩ := ofMagnitude_constant_sign hc
  refine ⟨_, cs, d, m, _, htext, hread, roundsTo_iff_readsBack.2 hback, hclass, ?_, hvalue⟩
  rw [read?_of_isUnsigned htext hcs, hread, Option.map_some,
    nearest_eq_of_readsBack hback (lt_infinity_of_classify hc)]

/-- A number that is not whole has a text of its own kind. -/
theorem constant_ne_of_not_whole {x y : Float} {n : Int} (hx : isFinite x = true)
    (hwhole : ∀ k : Int, rational? x ≠ some (k : ℚ)) (hy : rational? y = some (n : ℚ)) :
    constant y ≠ constant x := by
  have hi : integer? x = none :=
    Option.eq_none_iff_forall_ne_some.2 fun k hk => hwhole k (integer?_eq_some_iff.1 hk)
  obtain ⟨_, _, _, hm, htext⟩ := exists_constant_of_integer?_eq_none hx hi
  rw [constant_of_integer? (integer?_eq_some_iff.2 hy), htext]
  exact repr_ne_exact hm

/-- **Constants read back.** Let `x` be any finite double.

* Its text is a sign and a numeral, the decimal that the numeral stands for is rounded to a finite
  magnitude, and the double of that sign and magnitude is the one that is read from the text and is
  the same number as `x`.
* So of all finite doubles, only the two zeros share a text.
* If `x` is a whole number, the text is its decimal digits, however many, with a minus sign for a
  negative number and nothing else.
* If `x` is not a whole number, no whole number has its text. -/
theorem constant_round_trip {x : Float} (hx : isFinite x = true) :
    (∃ negative cs d m y,
      (constant x).toList = (sign negative).toList ++ cs ∧ readDecimal? cs = some d ∧
      d.RoundsTo m ∧ classify y = .finite negative m ∧
      read? (constant x) = some y ∧ rational? y = rational? x) ∧
    (∀ y, isFinite y = true →
      (constant x = constant y ↔ x = y ∨ x = 0.0 ∧ y = -0.0 ∨ x = -0.0 ∧ y = 0.0)) ∧
    (∀ n : Int, rational? x = some (n : ℚ) →
      constant x = Int.repr n ∧ ∀ c ∈ (constant x).toList, c = '-' ∨ c.isDigit = true) ∧
    ((∀ n : Int, rational? x ≠ some (n : ℚ)) →
      ∀ y, ∀ n : Int, rational? y = some (n : ℚ) → constant y ≠ constant x) := by
  refine ⟨exists_read?_constant hx, fun y hy => ?_, fun n hn => ?_, fun hwhole y n hy => ?_⟩
  · rw [constant_eq_iff hx hy, rational?_eq_iff hx]
  · have htext : constant x = Int.repr n := constant_of_integer? (integer?_eq_some_iff.2 hn)
    rw [htext]
    exact ⟨rfl, isDigit_repr n⟩
  · exact constant_ne_of_not_whole hx hwhole hy

/-- A tenth is not a double; the double nearest to it is written as a tenth, and read back. -/
theorem constant_round_trip_tenth :
    isFinite 0.1 = true ∧ read? (constant 0.1) = some 0.1 ∧
      ∀ y, ∀ n : Int, rational? y = some (n : ℚ) → constant y ≠ constant 0.1 := by
  have hfinite : isFinite 0.1 = true := by decide +kernel
  have hfraction : integer? 0.1 = none := by decide +kernel
  have hzero : (0.1 : Float) ≠ 0.0 ∧ (0.1 : Float) ≠ -0.0 := by decide +kernel
  obtain ⟨⟨_, _, _, _, y, -, -, -, -, hread, hvalue⟩, -, -, hkind⟩ := constant_round_trip hfinite
  refine ⟨hfinite, ?_, hkind fun n hn => ?_⟩
  · rcases (rational?_eq_iff hfinite).1 hvalue.symm with hy | ⟨hy, -⟩ | ⟨hy, -⟩
    · rw [hread, hy]
    · exact absurd hy hzero.1
    · exact absurd hy hzero.2
  · rw [integer?_eq_some_iff.2 hn] at hfraction
    exact absurd hfraction (by simp)

end Isolate.Number
