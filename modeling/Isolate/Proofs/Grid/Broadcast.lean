import Isolate.Proofs.Outcome
import Isolate.Grid.Basic
import Mathlib.Data.List.Forall2

/-!
# Broadcasting as a least upper bound

Dimensions *stretch* to others if broadcasting with those adds nothing to them (`Stretches`).  This
is a partial order, and the common dimensions of two arrays are the least that both stretch to
(`stretches_iff_of_broadcast`, `exists_broadcast`).  So neither the order nor the bracketing of a
broadcast matters: the common dimensions of any number of arrays exist exactly if all stretch to
some dimensions, and are the least such (`broadcastAll?_eq_some_iff`, `exists_broadcastAll`).

An element of an array stays what it is however far the array is stretched, and in whatever steps
(`project_project`); so an elementwise operation takes it from the elements of its operands
(`get_of_zipWith`).  Nor does it matter if the elements are listed along a single axis in between
(`get_reshape_flat`).
-/

namespace Isolate

/-- Dimensions that an array can be stretched to, last axis first. -/
def Stretches (d D : List Nat) : Prop := broadcast? d D = some D

/-! ## The order -/

theorem commonLength?_eq_right_iff {a b : Nat} : commonLength? a b = some b ↔ a = b ∨ a = 1 := by
  unfold commonLength?
  by_cases hab : a = b
  · simp [hab]
  · by_cases ha : a = 1
    · simp [ha]
    · by_cases hb : b = 1
      · simp [ha, hb]
      · simp [hab, ha, hb]

/-- An array without dimensions stretches to any. -/
theorem stretches_nil (D : List Nat) : Stretches [] D := by
  simp [Stretches, broadcast?]

theorem stretches_nil_iff {d : List Nat} : Stretches d [] ↔ d = [] := by
  cases d with
  | nil => simp [stretches_nil]
  | cons a as => simp [Stretches, broadcast?]

theorem stretches_cons_iff {a b : Nat} {as bs : List Nat} :
    Stretches (a :: as) (b :: bs) ↔ (a = b ∨ a = 1) ∧ Stretches as bs := by
  rw [← commonLength?_eq_right_iff]
  simp only [Stretches, broadcast?]
  cases commonLength? a b with
  | none => simp
  | some length =>
    cases broadcast? as bs with
    | none => simp
    | some rest => simp

theorem stretches_refl (d : List Nat) : Stretches d d := by
  induction d with
  | nil => exact stretches_nil []
  | cons a as ih => exact stretches_cons_iff.2 ⟨.inl rfl, ih⟩

theorem stretches_trans {c d e : List Nat} (hcd : Stretches c d) (hde : Stretches d e) :
    Stretches c e := by
  induction c generalizing d e with
  | nil => exact stretches_nil e
  | cons a as ih =>
    cases d with
    | nil => exact absurd (stretches_nil_iff.1 hcd) (by simp)
    | cons b bs =>
      cases e with
      | nil => exact absurd (stretches_nil_iff.1 hde) (by simp)
      | cons x xs =>
        obtain ⟨hab, has⟩ := stretches_cons_iff.1 hcd
        obtain ⟨hbx, hbs⟩ := stretches_cons_iff.1 hde
        refine stretches_cons_iff.2 ⟨?_, ih has hbs⟩
        rcases hab with rfl | rfl
        · exact hbx
        · exact .inr rfl

theorem stretches_antisymm {c d : List Nat} (hcd : Stretches c d) (hdc : Stretches d c) :
    c = d := by
  induction c generalizing d with
  | nil => exact (stretches_nil_iff.1 hdc).symm
  | cons a as ih =>
    cases d with
    | nil => exact stretches_nil_iff.1 hcd
    | cons b bs =>
      obtain ⟨hab, has⟩ := stretches_cons_iff.1 hcd
      obtain ⟨hba, hbs⟩ := stretches_cons_iff.1 hdc
      obtain rfl := ih has hbs
      have : a = b := by omega
      rw [this]

/-! ## Two arrays -/

theorem le_of_commonLength {a b c : Nat} (h : commonLength? a b = some c) :
    (a = c ∨ a = 1) ∧ (b = c ∨ b = 1) := by
  unfold commonLength? at h
  split at h
  · have := Option.some.inj h
    omega
  · split at h
    · have := Option.some.inj h
      omega
    · split at h
      · have := Option.some.inj h
        omega
      · exact absurd h (by simp)

theorem exists_commonLength {a b c : Nat} (ha : a = c ∨ a = 1) (hb : b = c ∨ b = 1) :
    ∃ length, commonLength? a b = some length ∧ (length = c ∨ length = 1) := by
  unfold commonLength?
  by_cases hab : a = b
  · exact ⟨a, by simp [hab], ha⟩
  · by_cases ha1 : a = 1
    · exact ⟨b, by simp [ha1], hb⟩
    · exact ⟨a, by rw [if_neg hab, if_neg ha1, if_pos (by omega)], ha⟩

/-- Both arrays stretch to their common dimensions. -/
theorem stretches_of_broadcast {d e c : List Nat} (h : broadcast? d e = some c) :
    Stretches d c ∧ Stretches e c := by
  induction d generalizing e c with
  | nil =>
    obtain rfl : e = c := by simpa [broadcast?] using h
    exact ⟨stretches_nil e, stretches_refl e⟩
  | cons a as ih =>
    cases e with
    | nil =>
      obtain rfl : a :: as = c := by simpa [broadcast?] using h
      exact ⟨stretches_refl _, stretches_nil _⟩
    | cons b bs =>
      simp only [broadcast?, Option.bind_eq_bind, Option.bind_eq_some_iff] at h
      obtain ⟨length, hlength, rest, hrest, hc⟩ := h
      obtain rfl := Option.some.inj hc
      obtain ⟨ha, hb⟩ := le_of_commonLength hlength
      obtain ⟨has, hbs⟩ := ih hrest
      exact ⟨stretches_cons_iff.2 ⟨ha, has⟩, stretches_cons_iff.2 ⟨hb, hbs⟩⟩

/-- Arrays that stretch to the same dimensions have common dimensions, and those stretch too. -/
theorem exists_broadcast {d e D : List Nat} (hd : Stretches d D) (he : Stretches e D) :
    ∃ c, broadcast? d e = some c ∧ Stretches c D := by
  induction d generalizing e D with
  | nil => exact ⟨e, by simp [broadcast?], he⟩
  | cons a as ih =>
    cases e with
    | nil => exact ⟨a :: as, by simp [broadcast?], hd⟩
    | cons b bs =>
      cases D with
      | nil => exact absurd (stretches_nil_iff.1 hd) (by simp)
      | cons x xs =>
        obtain ⟨hax, has⟩ := stretches_cons_iff.1 hd
        obtain ⟨hbx, hbs⟩ := stretches_cons_iff.1 he
        obtain ⟨length, hlength, hle⟩ := exists_commonLength hax hbx
        obtain ⟨rest, hrest, hstretch⟩ := ih has hbs
        refine ⟨length :: rest, ?_, stretches_cons_iff.2 ⟨hle, hstretch⟩⟩
        simp [broadcast?, hlength, hrest]

/-- **The common dimensions are the least that both arrays stretch to.** -/
theorem stretches_iff_of_broadcast {d e c D : List Nat} (h : broadcast? d e = some c) :
    Stretches c D ↔ Stretches d D ∧ Stretches e D := by
  obtain ⟨hd, he⟩ := stretches_of_broadcast h
  constructor
  · intro hc
    exact ⟨stretches_trans hd hc, stretches_trans he hc⟩
  · rintro ⟨hdD, heD⟩
    obtain ⟨c', hc', hstretch⟩ := exists_broadcast hdD heD
    obtain rfl := Option.some.inj (h.symm.trans hc')
    exact hstretch

/-! ## Any number of arrays -/

/-- All of some dimensions stretch to the same. -/
def StretchAll (shapes : List (List Nat)) (D : List Nat) : Prop := ∀ d ∈ shapes, Stretches d D

/-- The least dimensions that some dimensions all stretch to. -/
structure IsCommon (shapes : List (List Nat)) (D : List Nat) : Prop where
  all : StretchAll shapes D
  least : ∀ {D'}, StretchAll shapes D' → Stretches D D'

theorem stretchAll_cons {d : List Nat} {shapes : List (List Nat)} {D : List Nat} :
    StretchAll (d :: shapes) D ↔ Stretches d D ∧ StretchAll shapes D :=
  List.forall_mem_cons

theorem stretchAll_append {shapes others : List (List Nat)} {D : List Nat} :
    StretchAll (shapes ++ others) D ↔ StretchAll shapes D ∧ StretchAll others D :=
  List.forall_mem_append

theorem isCommon_unique {shapes : List (List Nat)} {D D' : List Nat} (h : IsCommon shapes D)
    (h' : IsCommon shapes D') : D = D' :=
  stretches_antisymm (h.least h'.all) (h'.least h.all)

/-- What broadcasting one after the other comes to: common dimensions exactly if there are any. -/
theorem foldlM_broadcast (shapes : List (List Nat)) (start : List Nat) :
    (∀ D, shapes.foldlM broadcast? start = some D → IsCommon (start :: shapes) D) ∧
      ∀ D, StretchAll (start :: shapes) D → ∃ c, shapes.foldlM broadcast? start = some c := by
  induction shapes generalizing start with
  | nil =>
    refine ⟨fun D h => ?_, fun D _ => ⟨start, rfl⟩⟩
    obtain rfl : start = D := by simpa using h
    exact ⟨stretchAll_cons.2 ⟨stretches_refl start, fun _ h => absurd h List.not_mem_nil⟩,
      fun h => (stretchAll_cons.1 h).1⟩
  | cons d shapes ih =>
    -- the first two can be replaced by their common dimensions
    have hreplace : ∀ {c D}, broadcast? start d = some c →
        (StretchAll (c :: shapes) D ↔ StretchAll (start :: d :: shapes) D) := by
      intro c D hc
      simp only [stretchAll_cons, stretches_iff_of_broadcast hc, and_assoc]
    refine ⟨fun D h => ?_, fun D h => ?_⟩
    · rw [List.foldlM_cons, Option.bind_eq_bind, Option.bind_eq_some_iff] at h
      obtain ⟨c, hc, h⟩ := h
      have hD := (ih c).1 D h
      exact ⟨(hreplace hc).1 hD.all, fun h' => hD.least ((hreplace hc).2 h')⟩
    · obtain ⟨hstart, hrest⟩ := stretchAll_cons.1 h
      obtain ⟨c, hc, _⟩ := exists_broadcast hstart (stretchAll_cons.1 hrest).1
      obtain ⟨c', hc'⟩ := (ih c).2 D ((hreplace hc).2 h)
      exact ⟨c', by rw [List.foldlM_cons, Option.bind_eq_bind, hc, Option.bind_some, hc']⟩

/-- **Arrays have common dimensions if they all stretch to the same.** -/
theorem exists_broadcastAll {shapes : List (List Nat)} {D : List Nat} (h : StretchAll shapes D) :
    ∃ c, broadcastAll? shapes = some c :=
  (foldlM_broadcast shapes []).2 D (stretchAll_cons.2 ⟨stretches_nil D, h⟩)

/-- **The common dimensions are the least that all arrays stretch to.** -/
theorem broadcastAll?_eq_some_iff {shapes : List (List Nat)} {D : List Nat} :
    broadcastAll? shapes = some D ↔ IsCommon shapes D := by
  have hsome : ∀ {c}, broadcastAll? shapes = some c → IsCommon shapes c := by
    intro c hc
    have h := (foldlM_broadcast shapes []).1 c hc
    exact ⟨(stretchAll_cons.1 h.all).2,
      fun h' => h.least (stretchAll_cons.2 ⟨stretches_nil _, h'⟩)⟩
  refine ⟨hsome, fun h => ?_⟩
  obtain ⟨c, hc⟩ := exists_broadcastAll h.all
  rw [hc, isCommon_unique h (hsome hc)]

/-! ## Elements -/

/-- Stretching in two steps reaches the same element as stretching in one. -/
theorem project_project {d D : List Nat} (h : Stretches d D) (index : List Nat) :
    project d (project D index) = project d index := by
  induction d generalizing D index with
  | nil => simp [project]
  | cons a as ih =>
    cases D with
    | nil => exact absurd (stretches_nil_iff.1 h) (by simp)
    | cons b bs =>
      obtain ⟨hab, has⟩ := stretches_cons_iff.1 h
      cases index with
      | nil => simp [project]
      | cons i index =>
        have hrest := ih has index
        simp only [project] at hrest
        simp only [project, List.zipWith_cons_cons, hrest]
        rcases hab with rfl | rfl
        · by_cases ha : a = 1 <;> simp [ha]
        · simp

/-- The indices of an array with some dimensions. -/
def IsIndex (dims index : List Nat) : Prop := List.Forall₂ (· < ·) index dims

/-- An array is read at its own indices as it is. -/
theorem project_of_isIndex {dims index : List Nat} (h : IsIndex dims index) :
    project dims index = index := by
  induction h with
  | nil => rfl
  | @cons i length index dims hi _ ih =>
    have hrest : List.zipWith (fun length i => if length = 1 then 0 else i) dims index = index := ih
    simp only [project, List.zipWith_cons_cons, hrest]
    by_cases hlength : length = 1
    · have : i = 0 := by omega
      simp [hlength, this]
    · simp [hlength]

/-- The element that an index leads to in an array is one of that array. -/
theorem isIndex_project {d D index : List Nat} (h : Stretches d D) (hindex : IsIndex D index) :
    IsIndex d (project d index) := by
  induction d generalizing D index with
  | nil => exact .nil
  | cons a as ih =>
    cases hindex with
    | nil => exact absurd (stretches_nil_iff.1 h) (by simp)
    | @cons i length index D hi hindex =>
      obtain ⟨hlength, hstretch⟩ := stretches_cons_iff.1 h
      refine .cons ?_ (ih hstretch hindex)
      show (if a = 1 then 0 else i) < a
      split
      · omega
      · omega

namespace Grid

variable {α β γ : Type}

@[simp] theorem get_scalar (a : α) (index : List Nat) : (scalar a).get index = a := rfl

/-- An array is a single element if it has no dimensions. -/
theorem toScalar_eq_ok_iff {g : Grid α} {a : α} :
    g.toScalar = .ok a ↔ g.dims = [] ∧ g.entry [] = a := by
  unfold toScalar
  by_cases hdims : g.dims = []
  · simp [hdims]
  · simp [hdims]

/-- An elementwise operation succeeds exactly if its operands have common dimensions, and has those.
-/
theorem exists_of_zipWith {f : α → β → γ} {g : Grid α} {h : Grid β} {k : Grid γ}
    (hk : zipWith f g h = .ok k) : broadcast? g.dims h.dims = some k.dims := by
  unfold zipWith at hk
  split at hk
  · rename_i dims hdims
    obtain rfl := Except.ok.inj hk
    exact hdims
  · exact absurd hk (by simp)

/-- **An elementwise operation works on elements**, at every index of any larger array. -/
theorem get_of_zipWith {f : α → β → γ} {g : Grid α} {h : Grid β} {k : Grid γ}
    (hk : zipWith f g h = .ok k) (index : List Nat) :
    k.get index = f (g.get index) (h.get index) := by
  unfold zipWith at hk
  split at hk
  · rename_i dims hdims
    obtain rfl := Except.ok.inj hk
    obtain ⟨hg, hh⟩ := stretches_of_broadcast hdims
    simp only [get, project_project hg, project_project hh]
  · exact absurd hk (by simp)

/-- Operands that stretch to the same dimensions can be combined, and so does the result. -/
theorem exists_zipWith (f : α → β → γ) {g : Grid α} {h : Grid β} {D : List Nat}
    (hg : Stretches g.dims D) (hh : Stretches h.dims D) :
    ∃ k, zipWith f g h = .ok k ∧ Stretches k.dims D := by
  obtain ⟨c, hc, hstretch⟩ := exists_broadcast hg hh
  exact ⟨⟨c, fun index => f (g.get index) (h.get index)⟩, by simp [zipWith, hc], hstretch⟩

theorem expand_of_stretches {g : Grid α} {D : List Nat} (h : Stretches g.dims D) :
    g.expand D = .ok ⟨D, g.get⟩ :=
  if_pos h

/-! ## Elements in order -/

/-- Fewer elements stand before an index than there are. -/
theorem offset_lt_size {dims index : List Nat} (h : IsIndex dims index) :
    offset dims index < size dims := by
  induction h with
  | nil => exact Nat.one_pos
  | @cons i length index dims hi _ ih =>
    have hrest : length * (offset dims index + 1) ≤ length * size dims :=
      Nat.mul_le_mul_left length ih
    calc i + length * offset dims index
        < length + length * offset dims index := Nat.add_lt_add_right hi _
      _ = length * (offset dims index + 1) := by rw [Nat.mul_succ, Nat.add_comm]
      _ ≤ length * size dims := hrest

/-- **The number of elements before an index leads back to it.** -/
theorem indexAt_offset {dims index : List Nat} (h : IsIndex dims index) :
    indexAt dims (offset dims index) = index := by
  induction h with
  | nil => rfl
  | @cons i length index dims hi _ ih =>
    have hpos : 0 < length := Nat.zero_lt_of_lt hi
    rw [offset, indexAt, Nat.add_mul_mod_self_left, Nat.mod_eq_of_lt hi,
      Nat.add_mul_div_left _ _ hpos, Nat.div_eq_of_lt hi, Nat.zero_add, ih]

theorem offset_singleton (length i : Nat) : offset [length] [i] = i := by simp [offset]

/-- **A function of the elements along one axis is a function of every element**: to list them
there, and to put them under the same dimensions again, leaves each where it is. -/
theorem entry_reshape_flat (f : α → β) (g : Grid α) {index : List Nat}
    (h : IsIndex g.dims index) :
    ((g.flat.map f).reshape g.dims).entry index = (g.map f).entry index := by
  have hplace : indexAt [size g.dims] (offset g.dims index) = [offset g.dims index] := by
    rw [indexAt, indexAt, Nat.mod_eq_of_lt (offset_lt_size h)]
  show f (g.entry (indexAt g.dims
    (offset [size g.dims] (indexAt [size g.dims] (offset g.dims index))))) = f (g.entry index)
  rw [hplace, offset_singleton, indexAt_offset h]

/-- So it is at every index of any larger array. -/
theorem get_reshape_flat (f : α → β) (g : Grid α) {D index : List Nat} (h : Stretches g.dims D)
    (hindex : IsIndex D index) :
    ((g.flat.map f).reshape g.dims).get index = f (g.get index) :=
  entry_reshape_flat f g (isIndex_project h hindex)

end Grid

end Isolate
