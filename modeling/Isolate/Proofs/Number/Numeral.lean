import Isolate.Number.Reading
import Isolate.Number.Text
import Isolate.Proofs.Number.Shortest

/-!
# Numerals read back

The digits of a decimal are laid out with a point or with an exponent, and trailing zeros are
dropped; what is read from the layout is a decimal of the same value (`exists_readDecimal?_text`).
So two constants have the same text exactly if they are the same number: a whole number is written
with its digits alone, and any other number with a point or an exponent and a decimal that reads
back as no other magnitude.

* `constant_eq_iff` - **constants with the same text are the same number**;
* `exists_constant`, `exists_head_constant` - the characters of a constant, and the first of them.
-/

namespace Isolate.Number

open Binary64 Decimal

/-! ## Digits -/

/-- The value of some digits. -/
def digitsValue (ds : List Char) : Nat := Nat.ofDigitChars 10 ds 0

theorem digitsValue_append_zeros (ds : List Char) (k : Nat) :
    digitsValue (ds ++ List.replicate k '0') = digitsValue ds * 10 ^ k := by
  rw [digitsValue, Nat.ofDigitChars_append, Nat.ofDigitChars_replicate_zero, mul_comm]
  rfl

theorem digitsValue_zeros_append (ds : List Char) (k : Nat) :
    digitsValue (List.replicate k '0' ++ ds) = digitsValue ds := by
  rw [digitsValue, Nat.ofDigitChars_append, Nat.ofDigitChars_replicate_zero, mul_zero]
  rfl

theorem isDigit_toDigits (n : Nat) : ∀ c ∈ Nat.toDigits 10 n, c.isDigit = true :=
  fun _ hc => Nat.isDigit_of_mem_toDigits (by decide) (by decide) hc

theorem isDigit_zeros (k : Nat) : ∀ c ∈ List.replicate k '0', c.isDigit = true := by
  intro c hc
  rw [List.eq_of_mem_replicate hc]
  rfl

theorem isDigit_append {ds es : List Char} (hd : ∀ c ∈ ds, c.isDigit = true)
    (he : ∀ c ∈ es, c.isDigit = true) : ∀ c ∈ ds ++ es, c.isDigit = true :=
  List.forall_mem_append.2 ⟨hd, he⟩

theorem readDigits?_of_isDigit {ds : List Char} (hne : ds ≠ []) (hd : ∀ c ∈ ds, c.isDigit = true) :
    readDigits? ds = some (digitsValue ds) :=
  if_pos ⟨hne, List.all_eq_true.2 hd⟩

/-- A run of characters of a class ends where another character begins. -/
theorem span_append {p : Char → Bool} (rest : List Char) {cs : List Char}
    (hcs : ∀ c ∈ cs, p c = true) (hrest : ∀ c ∈ rest.head?, p c = false) :
    (cs ++ rest).takeWhile p = cs ∧ (cs ++ rest).dropWhile p = rest := by
  rw [List.takeWhile_append_of_pos hcs, List.dropWhile_append_of_pos hcs]
  cases rest with
  | nil => simp
  | cons c rest =>
    have hc : p c = false := hrest c rfl
    rw [List.takeWhile_cons_of_neg (by simp [hc]), List.dropWhile_cons_of_neg (by simp [hc])]
    exact ⟨List.append_nil cs, rfl⟩

/-- Dropped zeros are made up for by a power of ten. -/
theorem exists_trimZeros (ds : List Char) :
    ∃ k, ds = trimZeros ds ++ List.replicate k '0' := by
  refine ⟨(ds.reverse.takeWhile (· = '0')).length, ?_⟩
  have hzeros : (ds.reverse.takeWhile (· = '0')).reverse
      = List.replicate (ds.reverse.takeWhile (· = '0')).length '0' := by
    rw [List.eq_replicate_iff]
    refine ⟨List.length_reverse, fun c hc => ?_⟩
    simpa using List.all_eq_true.1 List.all_takeWhile c (List.mem_reverse.1 hc)
  rw [← hzeros, trimZeros, ← List.reverse_append, List.takeWhile_append_dropWhile,
    List.reverse_reverse]

theorem isDigit_trimZeros {ds : List Char} (hd : ∀ c ∈ ds, c.isDigit = true) :
    ∀ c ∈ trimZeros ds, c.isDigit = true := by
  obtain ⟨k, hk⟩ := exists_trimZeros ds
  intro c hc
  exact hd c (hk ▸ List.mem_append_left _ hc)

/-! ## Reading the parts of a numeral -/

theorem readExponent?_exponentText (width : Nat) (e : Int) :
    readExponent? (exponentText width e).toList = some e := by
  generalize hdigits : List.replicate (width - (Nat.toDigits 10 e.natAbs).length) '0'
    ++ Nat.toDigits 10 e.natAbs = digits
  have hread : readDigits? digits = some e.natAbs := by
    rw [← hdigits, readDigits?_of_isDigit (by simp [Nat.toDigits_ne_nil])
      (isDigit_append (isDigit_zeros _) (isDigit_toDigits _)), digitsValue_zeros_append,
      digitsValue, Nat.ofDigitChars_ten_toDigits]
  rw [exponentText, String.toList_append, String.toList_ofList, hdigits]
  by_cases he : e < 0
  · rw [if_pos he]
    simp only [String.reduceToList, List.cons_append, List.nil_append, readExponent?, splitSign,
      hread, true_or, if_true, Option.map_some, Int.ofNat_eq_natCast]
    congr 1
    omega
  · rw [if_neg he]
    simp only [String.reduceToList, List.cons_append, List.nil_append, readExponent?, splitSign,
      hread, true_or, if_true, Option.map_some, Int.ofNat_eq_natCast, Bool.false_eq_true, if_false]
    congr 1
    omega

/-- The value of digits of which the leading one stands for a power of ten. -/
def placedValue (ds : List Char) (e : Int) : ℚ :=
  digitsValue ds * (10 : ℚ) ^ (e + 1 - ds.length)

/-- Zeros at the end change nothing. -/
theorem placedValue_append_zeros (ds : List Char) (k : Nat) (e : Int) :
    placedValue (ds ++ List.replicate k '0') e = placedValue ds e := by
  rw [placedValue, placedValue, digitsValue_append_zeros, Nat.cast_mul, Nat.cast_pow,
    Nat.cast_ofNat, mul_assoc, ← zpow_natCast, ← zpow_add₀ (by norm_num)]
  congr 2
  rw [List.length_append, List.length_replicate]
  omega

/-- Zeros in front move the leading digit. -/
theorem placedValue_zeros_append (ds : List Char) (k : Nat) (e : Int) :
    placedValue (List.replicate k '0' ++ ds) (e + k) = placedValue ds e := by
  rw [placedValue, placedValue, digitsValue_zeros_append]
  congr 2
  rw [List.length_append, List.length_replicate]
  omega

/-- A numeral with a point: the leading digit is as far from the point as there are digits in front
of it. -/
theorem exists_readDecimal?_point (whole fraction rest : List Char) {e : Int}
    (hw : ∀ c ∈ whole, c.isDigit = true) (hf : ∀ c ∈ fraction, c.isDigit = true)
    (hne : whole ≠ []) (hrest : ∀ c ∈ rest.head?, c.isDigit = false)
    (he : readExponent? rest = some e) :
    ∃ d, readDecimal? (whole ++ '.' :: (fraction ++ rest)) = some d ∧
      d.value = placedValue (whole ++ fraction) (e + whole.length - 1) := by
  obtain ⟨hwhole, hafter⟩ := span_append ('.' :: (fraction ++ rest)) hw (by simp)
  obtain ⟨hfraction, hend⟩ := span_append rest hf hrest
  have hdigits := readDigits?_of_isDigit (List.append_ne_nil_of_left_ne_nil hne fraction)
    (isDigit_append hw hf)
  refine ⟨⟨digitsValue (whole ++ fraction), e - fraction.length⟩, ?_, ?_⟩
  · simp only [readDecimal?, hwhole, hafter, hfraction, hend, hdigits, he]
    rfl
  · simp only [value, placedValue, List.length_append]
    congr 2
    omega

/-- A numeral without a point. -/
theorem exists_readDecimal?_plain {whole rest : List Char} {e : Int}
    (hw : ∀ c ∈ whole, c.isDigit = true) (hne : whole ≠ [])
    (hrest : ∀ c ∈ rest.head?, c.isDigit = false ∧ c ≠ '.') (he : readExponent? rest = some e) :
    ∃ d, readDecimal? (whole ++ rest) = some d ∧
      d.value = placedValue whole (e + whole.length - 1) := by
  obtain ⟨hwhole, hafter⟩ := span_append rest hw fun c hc => (hrest c hc).1
  have hdigits := readDigits?_of_isDigit hne hw
  refine ⟨⟨digitsValue whole, e⟩, ?_, ?_⟩
  · simp only [readDecimal?, hwhole, hafter]
    cases rest with
    | nil => simp [hdigits, he]
    | cons c rest =>
      have hc : c ≠ '.' := (hrest c rfl).2
      simp [hc, hdigits, he]
  · simp only [value, placedValue]
    congr 2
    omega

/-- The digits of a natural number. -/
theorem exists_readDecimal?_toDigits (n : Nat) :
    ∃ d, readDecimal? (Nat.toDigits 10 n) = some d ∧ d.value = n := by
  obtain ⟨d, hread, hvalue⟩ :=
    exists_readDecimal?_plain (isDigit_toDigits n) Nat.toDigits_ne_nil (by simp)
      (rfl : readExponent? [] = some 0)
  have hplace : (0 : Int) + (Nat.toDigits 10 n).length - 1 + 1 - (Nat.toDigits 10 n).length
      = 0 := by omega
  rw [List.append_nil] at hread
  refine ⟨d, hread, hvalue.trans ?_⟩
  rw [placedValue, hplace, zpow_zero, mul_one, digitsValue, Nat.ofDigitChars_ten_toDigits]

/-! ## Layouts -/

theorem exists_readDecimal?_positional {ds : List Char} (hd : ∀ c ∈ ds, c.isDigit = true)
    (e : Int) :
    ∃ d, readDecimal? (positional ds e).toList = some d ∧ d.value = placedValue ds e := by
  rw [positional]
  by_cases he : e < 0
  · -- as many zeros stand in front as the leading digit is away from the point
    obtain ⟨d, hread, hvalue⟩ := exists_readDecimal?_point ['0'] _ []
      (by simp [Char.isDigit]) (isDigit_append (isDigit_zeros ((-e).toNat - 1)) hd) (by simp)
      (by simp) rfl
    rw [if_pos he, String.toList_ofList]
    refine ⟨d, by simpa using hread, hvalue.trans ?_⟩
    have hzeros := placedValue_zeros_append ds ((-e).toNat - 1 + 1) e
    rw [List.replicate_succ, List.cons_append,
      show e + (((-e).toNat - 1 + 1 : Nat) : Int) = 0 by omega] at hzeros
    exact hzeros
  · rw [if_neg he, String.toList_ofList]
    have hdigits := isDigit_append hd (isDigit_zeros (e.toNat + 1 - ds.length))
    have hplaced := placedValue_append_zeros ds (e.toNat + 1 - ds.length) e
    have hlength : ((ds ++ List.replicate (e.toNat + 1 - ds.length) '0').take
        (e.toNat + 1)).length = e.toNat + 1 := by
      rw [List.length_take, List.length_append, List.length_replicate]
      omega
    rw [← hplaced]
    generalize ds ++ List.replicate (e.toNat + 1 - ds.length) '0' = padded at hdigits hlength ⊢
    have hwhole : ∀ c ∈ padded.take (e.toNat + 1), c.isDigit = true :=
      fun c hc => hdigits c (List.mem_of_mem_take hc)
    have hfraction : ∀ c ∈ padded.drop (e.toNat + 1), c.isDigit = true :=
      fun c hc => hdigits c (List.mem_of_mem_drop hc)
    have hne : padded.take (e.toNat + 1) ≠ [] :=
      List.ne_nil_of_length_pos (by rw [hlength]; exact Nat.succ_pos _)
    have hleading : (0 : Int) + ((padded.take (e.toNat + 1)).length : Int) - 1 = e := by
      rw [hlength]
      omega
    by_cases hnil : padded.drop (e.toNat + 1) = []
    · -- one zero stands after the point
      obtain ⟨d, hread, hvalue⟩ := exists_readDecimal?_point _ ['0'] [] hwhole
        (by simp [Char.isDigit]) hne (by simp) rfl
      have htake : padded.take (e.toNat + 1) = padded := by
        rw [← List.append_nil (padded.take _), ← hnil, List.take_append_drop]
      rw [if_pos hnil]
      refine ⟨d, by simpa using hread, hvalue.trans ?_⟩
      rw [hleading, htake]
      exact placedValue_append_zeros padded 1 e
    · obtain ⟨d, hread, hvalue⟩ :=
        exists_readDecimal?_point _ _ [] hwhole hfraction hne (by simp) rfl
      rw [if_neg hnil]
      refine ⟨d, by simpa using hread, hvalue.trans ?_⟩
      rw [hleading, List.take_append_drop]

theorem head?_exponentText (width : Nat) (e : Int) :
    (exponentText width e).toList.head? = some 'e' := by
  rw [exponentText, String.toList_append]
  split <;> rfl

theorem exists_readDecimal?_scientific {ds : List Char} (hne : ds ≠ [])
    (hd : ∀ c ∈ ds, c.isDigit = true) (width : Nat) (e : Int) :
    ∃ d, readDecimal? (scientific width ds e).toList = some d ∧ d.value = placedValue ds e := by
  have hexponent := readExponent?_exponentText width e
  have hhead := head?_exponentText width e
  have hleading : e + ((1 : Nat) : Int) - 1 = e := by omega
  match ds, hne with
  | [c], _ =>
    obtain ⟨d, hread, hvalue⟩ := exists_readDecimal?_plain hd (by simp)
      (by simp [hhead, Char.isDigit]) hexponent
    rw [scientific, String.toList_append, String.toList_ofList]
    exact ⟨d, hread, hvalue.trans (by rw [List.length_singleton, hleading])⟩
  | c :: c' :: rest, _ =>
    obtain ⟨hc, hrest⟩ := List.forall_mem_cons.1 hd
    obtain ⟨d, hread, hvalue⟩ := exists_readDecimal?_point [c] (c' :: rest) _
      (by simpa using hc) hrest (by simp) (by simp [hhead, Char.isDigit]) hexponent
    simp only [scientific, String.toList_append, String.toList_ofList]
    refine ⟨d, hread, hvalue.trans ?_⟩
    rw [List.length_singleton, hleading]
    rfl

/-- A number other than zero has a digit other than zero. -/
theorem trimZeros_toDigits_ne_nil {n : Nat} (h : n ≠ 0) : trimZeros (Nat.toDigits 10 n) ≠ [] := by
  intro hnil
  obtain ⟨k, hk⟩ := exists_trimZeros (Nat.toDigits 10 n)
  have hvalue : digitsValue (Nat.toDigits 10 n) = n := Nat.ofDigitChars_ten_toDigits
  rw [hk, digitsValue_append_zeros, hnil] at hvalue
  exact h (by simpa [digitsValue] using hvalue.symm)

/-- **What is read from the text of a decimal has the same value.** -/
theorem exists_readDecimal?_text (l : Layout) {d : Decimal} (hd : d.coefficient ≠ 0) :
    ∃ d', readDecimal? (l.text d).toList = some d' ∧ d'.value = d.value := by
  have hne := trimZeros_toDigits_ne_nil hd
  set digits := Nat.toDigits 10 d.coefficient with hdigits
  obtain ⟨k, hk⟩ := exists_trimZeros digits
  have htrim : ∀ c ∈ trimZeros digits, c.isDigit = true := isDigit_trimZeros (isDigit_toDigits _)
  have hvalue : digitsValue digits = d.coefficient := Nat.ofDigitChars_ten_toDigits
  have hplaced : placedValue (trimZeros digits) (d.exponent + Int.ofNat digits.length - 1)
      = d.value := by
    rw [← placedValue_append_zeros _ k, ← hk, placedValue, value, hvalue]
    congr 2
    simp
  rw [Layout.text]
  simp only [← hdigits, ← hplaced]
  split
  · exact exists_readDecimal?_positional htrim _
  · exact exists_readDecimal?_scientific hne htrim _ _

/-! ## Characters -/

/-- The characters of numerals. -/
def isNumeralChar (c : Char) : Bool :=
  c.isDigit || c == '.' || c == '-' || c == '+' || c == 'e'

/-- A numeral without a sign: a digit, and then characters of numerals. -/
def IsUnsigned (cs : List Char) : Prop :=
  (∃ c ∈ cs.head?, c.isDigit = true) ∧ ∀ c ∈ cs, isNumeralChar c = true

theorem isNumeralChar_of_isDigit {c : Char} (h : c.isDigit = true) : isNumeralChar c = true := by
  simp [isNumeralChar, h]

theorem isUnsigned_of_digits (ds rest : List Char) (hne : ds ≠ [])
    (hd : ∀ c ∈ ds, c.isDigit = true) (hrest : ∀ c ∈ rest, isNumeralChar c = true) :
    IsUnsigned (ds ++ rest) := by
  constructor
  · cases ds with
    | nil => exact absurd rfl hne
    | cons c ds => exact ⟨c, rfl, hd c (List.mem_cons_self ..)⟩
  · exact List.forall_mem_append.2 ⟨fun c hc => isNumeralChar_of_isDigit (hd c hc), hrest⟩

theorem isUnsigned_toDigits (n : Nat) : IsUnsigned (Nat.toDigits 10 n) := by
  simpa using isUnsigned_of_digits _ [] Nat.toDigits_ne_nil (isDigit_toDigits n) (by simp)

theorem isNumeralChar_point {ds : List Char} (hd : ∀ c ∈ ds, c.isDigit = true) :
    ∀ c ∈ '.' :: ds, isNumeralChar c = true :=
  List.forall_mem_cons.2 ⟨rfl, fun c hc => isNumeralChar_of_isDigit (hd c hc)⟩

theorem isNumeralChar_exponentText (width : Nat) (e : Int) :
    ∀ c ∈ (exponentText width e).toList, isNumeralChar c = true := by
  have hdigits := isDigit_append (isDigit_zeros (width - (Nat.toDigits 10 e.natAbs).length))
    (isDigit_toDigits e.natAbs)
  rw [exponentText, String.toList_append, String.toList_ofList]
  refine List.forall_mem_append.2 ⟨?_, fun c hc => isNumeralChar_of_isDigit (hdigits c hc)⟩
  split <;> simp [isNumeralChar]

/-- In positional notation there is a point. -/
theorem isUnsigned_positional {ds : List Char} (hd : ∀ c ∈ ds, c.isDigit = true) (e : Int) :
    IsUnsigned (positional ds e).toList ∧ '.' ∈ (positional ds e).toList := by
  rw [positional]
  by_cases he : e < 0
  · rw [if_pos he, String.toList_ofList]
    refine ⟨?_, by simp⟩
    exact isUnsigned_of_digits ['0'] _ (by simp) (by simp [Char.isDigit])
      (isNumeralChar_point (isDigit_append (isDigit_zeros _) hd))
  · rw [if_neg he, String.toList_ofList]
    have hdigits := isDigit_append hd (isDigit_zeros (e.toNat + 1 - ds.length))
    refine ⟨isUnsigned_of_digits _ _ ?_ (fun c hc => hdigits c (List.mem_of_mem_take hc))
      (isNumeralChar_point ?_), by simp⟩
    · refine List.ne_nil_of_length_pos ?_
      rw [List.length_take, List.length_append, List.length_replicate]
      omega
    · split
      · simp [Char.isDigit]
      · exact fun c hc => hdigits c (List.mem_of_mem_drop hc)

/-- In scientific notation there is the mark of the exponent. -/
theorem isUnsigned_scientific {ds : List Char} (hne : ds ≠ []) (hd : ∀ c ∈ ds, c.isDigit = true)
    (width : Nat) (e : Int) :
    IsUnsigned (scientific width ds e).toList ∧ 'e' ∈ (scientific width ds e).toList := by
  have hexponent := isNumeralChar_exponentText width e
  have hmark : 'e' ∈ (exponentText width e).toList :=
    List.mem_of_mem_head? (head?_exponentText width e)
  match ds, hne with
  | [c], _ =>
    rw [scientific, String.toList_append, String.toList_ofList]
    exact ⟨isUnsigned_of_digits _ _ (by simp) hd hexponent, List.mem_append_right _ hmark⟩
  | c :: c' :: rest, _ =>
    obtain ⟨hc, hrest⟩ := List.forall_mem_cons.1 hd
    simp only [scientific, String.toList_append, String.toList_ofList]
    refine ⟨?_, List.mem_append_right _ hmark⟩
    exact isUnsigned_of_digits [c] _ (by simp) (by simpa using hc)
      (List.forall_mem_append.2 ⟨isNumeralChar_point hrest, hexponent⟩)

/-- The text of a decimal is a numeral with a point or an exponent. -/
theorem isUnsigned_text (l : Layout) {d : Decimal} (hd : d.coefficient ≠ 0) :
    IsUnsigned (l.text d).toList ∧ ('.' ∈ (l.text d).toList ∨ 'e' ∈ (l.text d).toList) := by
  rw [Layout.text]
  split
  · obtain ⟨hunsigned, hpoint⟩ := isUnsigned_positional (isDigit_trimZeros (isDigit_toDigits _)) _
    exact ⟨hunsigned, .inl hpoint⟩
  · obtain ⟨hunsigned, hmark⟩ := isUnsigned_scientific (trimZeros_toDigits_ne_nil hd)
      (isDigit_trimZeros (isDigit_toDigits _)) _ _
    exact ⟨hunsigned, .inr hmark⟩

/-! ## Constants -/

theorem exact_of_classify {x : Float} {negative : Bool} {m : Nat} (hm : m ≠ 0)
    (h : classify x = .finite negative m) :
    exact x = sign negative ++ layout.text (shortest m) := by
  cases m with
  | zero => exact absurd rfl hm
  | succ m => simp only [exact, h]

/-- A number that is not whole is written exactly. -/
theorem exists_constant_of_integer?_eq_none {x : Float} (hx : isFinite x = true)
    (hi : integer? x = none) :
    ∃ negative m, classify x = .finite negative m ∧ m ≠ 0 ∧
      constant x = sign negative ++ layout.text (shortest m) := by
  obtain ⟨negative, m, hc⟩ := exists_classify_of_isFinite hx
  have hm : m ≠ 0 := by
    rintro rfl
    have hzero : integer? x = some 0 := by
      rw [integer?_eq_some_iff, rational?_of_classify hc, steps_zero, Nat.cast_zero, neg_zero,
        ite_self, zero_div, Int.cast_zero]
    rw [hzero] at hi
    exact absurd hi (by simp)
  refine ⟨negative, m, hc, hm, ?_⟩
  rw [constant, hi]
  exact exact_of_classify hm hc

theorem constant_of_integer? {x : Float} {n : Int} (h : integer? x = some n) :
    constant x = Int.repr n := by
  rw [constant, h]

theorem toList_repr (n : Int) :
    (Int.repr n).toList = (sign (decide (n < 0))).toList ++ Nat.toDigits 10 n.natAbs := by
  cases n with
  | ofNat n => simp [Int.repr, Nat.repr, sign]
  | negSucc n => simp [Int.repr, Nat.repr, sign, Int.natAbs_negSucc]

/-- A whole number is written with its digits, and a minus sign if it is negative. -/
theorem isDigit_repr (n : Int) : ∀ c ∈ (Int.repr n).toList, c = '-' ∨ c.isDigit = true := by
  rw [toList_repr]
  refine List.forall_mem_append.2 ⟨fun c hc => .inl ?_, fun c hc => .inr ?_⟩
  · cases hn : decide (n < 0) <;> simp_all [sign]
  · exact isDigit_toDigits _ c hc

/-- A sign, and then a numeral without one. -/
theorem exists_constant {x : Float} (hx : isFinite x = true) :
    ∃ negative cs, (constant x).toList = (sign negative).toList ++ cs ∧ IsUnsigned cs := by
  cases hi : integer? x with
  | some n =>
    rw [constant_of_integer? hi, toList_repr]
    exact ⟨_, _, rfl, isUnsigned_toDigits _⟩
  | none =>
    obtain ⟨negative, m, hc, hm, htext⟩ := exists_constant_of_integer?_eq_none hx hi
    rw [htext, String.toList_append]
    exact ⟨negative, _, rfl, (isUnsigned_text layout (coefficient_shortest_ne_zero hm)).1⟩

theorem isAlpha_of_isDigit {c : Char} (h : c.isDigit = true) : c.isAlpha = false := by
  have hdigit : 48 ≤ c.toNat ∧ c.toNat ≤ 57 := Char.isDigit_iff_toNat.1 h
  have hupper : c.isUpper = false := decide_eq_false fun hle => by
    have hle' : 65 ≤ c.toNat := UInt32.le_iff_toNat_le.1 hle.1
    omega
  have hlower : c.isLower = false := by
    refine Bool.and_eq_false_iff.2 (.inl (decide_eq_false fun hle => ?_))
    have hle' : 97 ≤ c.toNat := UInt32.le_iff_toNat_le.1 hle
    omega
  exact Bool.or_eq_false_iff.2 ⟨hupper, hlower⟩

/-- A constant begins with a digit or a minus sign, not with a letter. -/
theorem exists_head_constant {x : Float} (hx : isFinite x = true) :
    ∃ c rest, (constant x).toList = c :: rest ∧ c.isAlpha = false := by
  obtain ⟨negative, cs, htext, ⟨d, hd, hdigit⟩, -⟩ := exists_constant hx
  rw [htext]
  cases negative with
  | true => exact ⟨'-', cs, rfl, rfl⟩
  | false =>
    cases cs with
    | nil => exact absurd hd (by simp)
    | cons c rest =>
      obtain rfl : c = d := by simpa using hd
      exact ⟨c, rest, rfl, isAlpha_of_isDigit hdigit⟩

/-- The sign of a numeral can be told from the rest of it. -/
theorem splitSign_sign_append (negative : Bool) {cs : List Char} (h : IsUnsigned cs) :
    splitSign ((sign negative).toList ++ cs) = (negative, cs) := by
  obtain ⟨⟨c, hc, hdigit⟩, _⟩ := h
  cases cs with
  | nil => simp at hc
  | cons c' cs =>
    obtain rfl : c' = c := by simpa using hc
    cases negative with
    | true => rfl
    | false =>
      have hminus : c' ≠ '-' := by
        rintro rfl
        exact absurd hdigit (by decide)
      have hplus : c' ≠ '+' := by
        rintro rfl
        exact absurd hdigit (by decide)
      simp [sign, splitSign, hminus, hplus]

theorem eq_of_sign_append {negative negative' : Bool} {cs ds : List Char} (hcs : IsUnsigned cs)
    (hds : IsUnsigned ds)
    (h : (sign negative).toList ++ cs = (sign negative').toList ++ ds) :
    negative = negative' ∧ cs = ds := by
  have hsplit := congrArg splitSign h
  rw [splitSign_sign_append negative hcs, splitSign_sign_append negative' hds] at hsplit
  exact Prod.mk.inj hsplit

theorem repr_inj {n n' : Int} (h : Int.repr n = Int.repr n') : n = n' := by
  rw [← String.toList_inj, toList_repr, toList_repr] at h
  obtain ⟨hsign, hdigits⟩ := eq_of_sign_append (isUnsigned_toDigits _) (isUnsigned_toDigits _) h
  have habs : n.natAbs = n'.natAbs := by
    have hvalue := congrArg digitsValue hdigits
    simpa only [digitsValue, Nat.ofDigitChars_ten_toDigits] using hvalue
  rw [decide_eq_decide] at hsign
  omega

/-- The exact texts of two magnitudes are different. -/
theorem eq_of_text_shortest {m m' : Nat} (hm : m ≠ 0) (hm' : m' ≠ 0)
    (h : layout.text (shortest m) = layout.text (shortest m')) : m = m' := by
  obtain ⟨d, hread, hvalue⟩ := exists_readDecimal?_text layout (coefficient_shortest_ne_zero hm)
  obtain ⟨d', hread', hvalue'⟩ := exists_readDecimal?_text layout (coefficient_shortest_ne_zero hm')
  rw [h, hread'] at hread
  obtain rfl := Option.some.inj hread
  exact eq_of_readsBack (readsBack_shortest m) (readsBack_shortest m') (hvalue.symm.trans hvalue')

/-- A whole number is written without a point and without an exponent. -/
theorem repr_ne_exact {n : Int} {negative : Bool} {m : Nat} (hm : m ≠ 0) :
    Int.repr n ≠ sign negative ++ layout.text (shortest m) := by
  intro h
  have hmark := (isUnsigned_text layout (coefficient_shortest_ne_zero hm)).2
  have hmem : ∀ c ∈ (layout.text (shortest m)).toList, c ∈ (Int.repr n).toList := by
    intro c hc
    rw [h, String.toList_append]
    exact List.mem_append_right _ hc
  rcases hmark with hpoint | hexponent
  · exact absurd (isDigit_repr n _ (hmem _ hpoint)) (by decide)
  · exact absurd (isDigit_repr n _ (hmem _ hexponent)) (by decide)

/-- **Constants with the same text are the same number.** -/
theorem constant_eq_iff {x y : Float} (hx : isFinite x = true) (hy : isFinite y = true) :
    constant x = constant y ↔ rational? x = rational? y := by
  constructor
  · intro h
    cases hix : integer? x with
    | some n =>
      rw [constant_of_integer? hix] at h
      cases hiy : integer? y with
      | some n' =>
        rw [constant_of_integer? hiy] at h
        rw [integer?_eq_some_iff.1 hix, integer?_eq_some_iff.1 hiy, repr_inj h]
      | none =>
        obtain ⟨_, _, _, hm, htext⟩ := exists_constant_of_integer?_eq_none hy hiy
        exact absurd (h.trans htext) (repr_ne_exact hm)
    | none =>
      obtain ⟨negative, m, hc, hm, htext⟩ := exists_constant_of_integer?_eq_none hx hix
      cases hiy : integer? y with
      | some n' =>
        rw [constant_of_integer? hiy] at h
        exact absurd (h.symm.trans htext) (repr_ne_exact hm)
      | none =>
        obtain ⟨negative', m', hc', hm', htext'⟩ := exists_constant_of_integer?_eq_none hy hiy
        have hunsigned := (isUnsigned_text layout (coefficient_shortest_ne_zero hm)).1
        have hunsigned' := (isUnsigned_text layout (coefficient_shortest_ne_zero hm')).1
        rw [htext, htext', ← String.toList_inj, String.toList_append, String.toList_append] at h
        obtain ⟨rfl, hsame⟩ := eq_of_sign_append hunsigned hunsigned' h
        obtain rfl := eq_of_text_shortest hm hm' (String.toList_inj.1 hsame)
        rw [rational?_of_classify hc, rational?_of_classify hc']
  · intro h
    obtain ⟨q, hq⟩ := isSome_rational?_of_isFinite hx
    have hq' : rational? y = some q := h ▸ hq
    cases hix : integer? x with
    | some n =>
      have hiy : integer? y = some n := integer?_eq_some_iff.2 (h ▸ integer?_eq_some_iff.1 hix)
      rw [constant_of_integer? hix, constant_of_integer? hiy]
    | none =>
      obtain ⟨negative, m, hc, hm, htext⟩ := exists_constant_of_integer?_eq_none hx hix
      have hiy : integer? y = none := by
        rw [Option.eq_none_iff_forall_ne_some] at hix ⊢
        intro n hn
        exact hix n (integer?_eq_some_iff.2 (h ▸ integer?_eq_some_iff.1 hn))
      have hne : q ≠ 0 := by
        rintro rfl
        exact absurd (integer?_eq_some_iff.2 (by simpa using hq) : integer? x = some 0)
          (by simp [hix])
      rw [htext, constant, hiy]
      exact (exact_of_classify hm (classify_eq_of_rational? hq hq' hne ▸ hc)).symm

end Isolate.Number
