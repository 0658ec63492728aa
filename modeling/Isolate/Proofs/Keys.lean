import Isolate.Proofs.Outcome
import Isolate.Tree.Names
import Mathlib.Data.List.Induction
import Mathlib.Data.List.Pairwise
import Mathlib.Data.List.Perm.Basic
import Mathlib.Data.Rat.Defs
import Mathlib.Algebra.Order.Ring.Unbundled.Rat
import Mathlib.Data.String.Basic

/-!
# Names as keys

Names are looked up in sets and dictionaries, which take names that are the same for one
(`Name.isSame`): texts that are equal, and numbers of one value.

* `isSame_self`, `isSame_comm`, `isSame_congr` - being the same is an equivalence;
* `foldl_addTo` - adding names to a set one by one leaves every name once, at its first place;
* `pairwise_findIdx_distinct`, `getElem?_findIdx_distinct` - what "at its first place" means;
* `foldl_countIn` - counting names one by one gives each of them the number of its uses;
* `sorted?_spec`, `exists_sorted?_iff` - names in order, and which names have an order;
* `exists_sorted?_texts`, `distinct_of_texts` - the same for texts alone.
-/

namespace Isolate.Name

-- Sums start from the built-in zero, whatever else is imported.
attribute [local instance (2000)] Zero.ofOfNat0

variable {n m : Name} {names : List Name}

/-! ## Names that are the same -/

@[simp] theorem isSame_self (n : Name) : n.isSame n = true := by
  unfold isSame
  cases n.number? <;> simp

theorem isSame_comm (n m : Name) : n.isSame m = m.isSame n := by
  unfold isSame
  cases n.number? <;> cases m.number? <;> simp only [Bool.beq_comm]

/-- Two names are the same if they are equal or numbers of one value. -/
theorem isSame_iff : n.isSame m = true ↔ n = m ∨ n.number?.isSome ∧ n.number? = m.number? := by
  unfold isSame
  cases hn : n.number? with
  | none => simp
  | some x =>
    cases hm : m.number? with
    | none =>
      have hne : n ≠ m := fun h => by simp [h, hm] at hn
      simp [hne]
    | some y =>
      have heq : n = m → x = y := fun h => by simpa [h, hm] using hn.symm
      simpa using heq

theorem number?_of_isSame (h : n.isSame m = true) : n.number? = m.number? := by
  rcases isSame_iff.1 h with rfl | ⟨-, h⟩
  · rfl
  · exact h

/-- Texts are no numbers. -/
theorem text?_of_number?_isSome (h : n.number?.isSome) : n.text? = none := by
  cases n with
  | text name => cases h
  | other d => rfl

theorem text?_of_isSame (h : n.isSame m = true) : n.text? = m.text? := by
  rcases isSame_iff.1 h with rfl | ⟨hn, h⟩
  · rfl
  · rw [text?_of_number?_isSome hn, text?_of_number?_isSome (h ▸ hn)]

/-- Names that are the same are the same as others alike. -/
theorem isSame_congr (h : n.isSame m = true) (k : Name) : n.isSame k = m.isSame k := by
  rcases isSame_iff.1 h with rfl | ⟨hn, h⟩
  · rfl
  · obtain ⟨x, hx⟩ := Option.isSome_iff_exists.1 hn
    have hm : m.number? = some x := h ▸ hx
    unfold isSame
    rw [hx, hm]
    -- the value decides unless `k` is no number, and then it is neither of the two
    cases hk : k.number? with
    | some y => rfl
    | none =>
      have hnk : n ≠ k := fun h => by simp [h, hk] at hx
      have hmk : m ≠ k := fun h => by simp [h, hk] at hm
      simp [hnk, hmk]

@[simp] theorem isSame_text (name : String) (m : Name) :
    (text name).isSame m = (text name == m) := by
  unfold isSame number?
  rfl

/-! ## Names among others -/

@[simp] theorem isAmong_nil (n : Name) : n.isAmong [] = false := rfl

@[simp] theorem isAmong_cons (n m : Name) (names : List Name) :
    n.isAmong (m :: names) = (n.isSame m || n.isAmong names) := rfl

@[simp] theorem isAmong_append (n : Name) (names others : List Name) :
    n.isAmong (names ++ others) = (n.isAmong names || n.isAmong others) :=
  List.any_append

theorem isAmong_iff : n.isAmong names = true ↔ ∃ m ∈ names, n.isSame m = true :=
  List.any_eq_true

theorem isAmong_of_mem (h : n ∈ names) : n.isAmong names = true :=
  isAmong_iff.2 ⟨n, h, isSame_self n⟩

theorem isAmong_congr (h : n.isSame m = true) (names : List Name) :
    n.isAmong names = m.isAmong names := by
  rw [isAmong, isAmong, funext (isSame_congr h)]

theorem isAmong_perm {others : List Name} (h : names.Perm others) (n : Name) :
    n.isAmong names = n.isAmong others := by
  rw [Bool.eq_iff_iff, isAmong_iff, isAmong_iff]
  simp only [h.mem_iff]

/-- Something that can only be done with names that can all be looked up. -/
def ifKeys {α : Type} (names : List Name) (next : α) : Except Fault α :=
  match names.find? (!·.isKey) with
  | some n => .error (.notKey n)
  | none => .ok next

theorem ifKeys_eq_ok_iff {α : Type} {next a : α} :
    ifKeys names next = .ok a ↔ (∀ n ∈ names, n.isKey = true) ∧ a = next := by
  have hnone : names.find? (!·.isKey) = none ↔ ∀ n ∈ names, n.isKey = true := by
    simp [List.find?_eq_none]
  rw [ifKeys, ← hnone]
  cases names.find? (!·.isKey) with
  | some n => simp
  | none => simp [eq_comm]

/-- Doing something with one name after the other stops at the first that cannot be looked up. -/
theorem foldlM_ifKey {σ : Type} (f : Name → σ → σ) (s : σ) (names : List Name) :
    names.foldlM (fun s n => n.ifKey (f n s)) s
      = ifKeys names (names.foldl (fun s n => f n s) s) := by
  induction names generalizing s with
  | nil => rfl
  | cons n names ih =>
    rw [List.foldlM_cons, ifKey, ifKeys, List.find?_cons]
    cases n.isKey with
    | true => exact ih (f n s)
    | false => rfl

/-! ## Each once -/

theorem mem_of_mem_distinct (h : n ∈ distinct names) : n ∈ names := by
  induction names with
  | nil => exact h
  | cons m names ih =>
    rw [distinct] at h
    rcases List.mem_cons.1 h with rfl | h
    · exact List.mem_cons_self
    · exact List.mem_cons_of_mem _ (ih (List.mem_of_mem_filter h))

/-- A name that is left out has been met before. -/
theorem isAmong_distinct (n : Name) (names : List Name) :
    n.isAmong (distinct names) = n.isAmong names := by
  induction names with
  | nil => rfl
  | cons m names ih =>
    rw [distinct, isAmong_cons, isAmong_cons, ← ih]
    cases h : n.isSame m with
    | true => rfl
    | false =>
      rw [Bool.false_or, Bool.false_or, Bool.eq_iff_iff, isAmong_iff, isAmong_iff]
      refine exists_congr fun k => ?_
      rw [List.mem_filter]
      refine ⟨fun hk => ⟨hk.1.1, hk.2⟩, fun hk => ⟨⟨hk.1, ?_⟩, hk.2⟩⟩
      rw [isSame_comm, ← isSame_congr hk.2, h]
      rfl

theorem pairwise_distinct (names : List Name) :
    (distinct names).Pairwise fun n m => n.isSame m = false := by
  induction names with
  | nil => exact .nil
  | cons n names ih =>
    rw [distinct, List.pairwise_cons]
    refine ⟨fun m hm => ?_, ih.filter _⟩
    simpa using (List.mem_filter.1 hm).2

/-- **Adding names one by one** leaves every name once, at its first place. -/
theorem foldl_addTo (set names : List Name) :
    names.foldl (fun set n => n.addTo set) set
      = set ++ (distinct names).filter fun n => !n.isAmong set := by
  induction names generalizing set with
  | nil => exact (List.append_nil set).symm
  | cons n names ih =>
    rw [List.foldl_cons, ih, distinct, addTo]
    by_cases hn : n.isAmong set = true
    · -- what is the same as `n` is among the set like `n` itself
      rw [if_pos hn, List.filter_cons_of_neg (by simp [hn]), List.filter_filter]
      refine congrArg (set ++ ·) (List.filter_congr fun m _ => ?_)
      cases hm : n.isSame m with
      | true => simp [← isAmong_congr hm, hn]
      | false => simp
    · rw [if_neg hn, List.filter_cons_of_pos (by simpa using hn), List.filter_filter,
        List.append_assoc, List.singleton_append]
      refine congrArg (set ++ n :: ·) (List.filter_congr fun m _ => ?_)
      simp [isSame_comm m n]

theorem foldl_addTo_nil (names : List Name) :
    names.foldl (fun set n => n.addTo set) [] = distinct names := by
  rw [foldl_addTo, List.nil_append]
  exact List.filter_eq_self.2 fun _ _ => rfl

theorem distinct_concat (names : List Name) (n : Name) :
    distinct (names ++ [n]) = n.addTo (distinct names) := by
  rw [← foldl_addTo_nil, ← foldl_addTo_nil, List.foldl_append, List.foldl_cons, List.foldl_nil]

/-- Without repetitions every name stays. -/
theorem distinct_of_pairwise (h : names.Pairwise fun n m => n.isSame m = false) :
    distinct names = names := by
  induction names with
  | nil => rfl
  | cons n names ih =>
    obtain ⟨hn, h⟩ := List.pairwise_cons.1 h
    rw [distinct, ih h, List.filter_eq_self.2 fun m hm => by simp [hn m hm]]

theorem findIdx_cons_of_ne (h : n.isSame m = false) (names : List Name) :
    (m :: names).findIdx n.isSame = names.findIdx n.isSame + 1 := by
  rw [List.findIdx_cons, h, cond_false]

/-- The names that are left stand in the order of their first places. -/
theorem pairwise_findIdx_distinct (names : List Name) :
    (distinct names).Pairwise fun n m => names.findIdx n.isSame < names.findIdx m.isSame := by
  induction names with
  | nil => exact .nil
  | cons k names ih =>
    have hother : ∀ m ∈ (distinct names).filter fun m => !k.isSame m, m.isSame k = false := by
      intro m hm
      rw [isSame_comm]
      simpa using (List.mem_filter.1 hm).2
    rw [distinct, List.pairwise_cons]
    constructor
    · intro m hm
      rw [findIdx_cons_of_ne (hother m hm), List.findIdx_cons, isSame_self, cond_true]
      exact Nat.succ_pos _
    · refine (ih.filter _).imp_of_mem fun hn hm hlt => ?_
      rw [findIdx_cons_of_ne (hother _ hn), findIdx_cons_of_ne (hother _ hm)]
      exact Nat.succ_lt_succ hlt

/-- A name that is left is the one at its first place. -/
theorem getElem?_findIdx_distinct (h : n ∈ distinct names) :
    names[names.findIdx n.isSame]? = some n := by
  induction names with
  | nil => exact absurd h List.not_mem_nil
  | cons k names ih =>
    rw [distinct] at h
    rcases List.mem_cons.1 h with rfl | h
    · rw [List.findIdx_cons, isSame_self, cond_true, List.getElem?_cons_zero]
    · obtain ⟨h, hother⟩ := List.mem_filter.1 h
      have hne : n.isSame k = false := by
        rw [isSame_comm]
        simpa using hother
      rw [findIdx_cons_of_ne hne, List.getElem?_cons_succ, ih h]

/-! ## Counts -/

/-- A name is counted under the one that it is the same as. -/
theorem countIn_map {keys : List Name} {uses : Name → Nat}
    (hkeys : keys.Pairwise fun n m => n.isSame m = false)
    (hnew : n.isAmong keys = false → uses n = 0) :
    n.countIn (keys.map fun k => (k, uses k))
      = (n.addTo keys).map fun k => (k, uses k + if k.isSame n = true then 1 else 0) := by
  induction keys with
  | nil => simp [countIn, addTo, hnew rfl]
  | cons k keys ih =>
    obtain ⟨hk, hkeys⟩ := List.pairwise_cons.1 hkeys
    rw [List.map_cons, countIn, isSame_comm]
    cases h : k.isSame n with
    | true =>
      have hrest : ∀ m ∈ keys,
          (m, uses m) = (m, uses m + if m.isSame n = true then 1 else 0) := by
        intro m hm
        rw [isSame_comm, ← isSame_congr h, hk m hm, if_neg Bool.false_ne_true, Nat.add_zero]
      rw [if_pos rfl, addTo, if_pos (by simp [isSame_comm n, h]), List.map_cons, if_pos h,
        List.map_congr_left hrest]
    | false =>
      have hadd : n.addTo (k :: keys) = k :: n.addTo keys := by
        rw [addTo, addTo, isAmong_cons, isSame_comm, h, Bool.false_or]
        split
        · rfl
        · rfl
      rw [if_neg Bool.false_ne_true, hadd, List.map_cons, h, if_neg Bool.false_ne_true,
        Nat.add_zero, ih hkeys fun hn => hnew (by simp [isSame_comm n, h, hn])]

/-- **Counting names one by one** gives each of them the number of its uses. -/
theorem foldl_countIn (names : List Name) :
    names.foldl (fun counts n => n.countIn counts) []
      = (distinct names).map fun n => (n, names.countP n.isSame) := by
  induction names using List.reverseRecOn with
  | nil => rfl
  | append_singleton names n ih =>
    have hnew : n.isAmong (distinct names) = false → names.countP n.isSame = 0 := by
      rw [isAmong_distinct, isAmong, List.any_eq_false]
      exact List.countP_eq_zero.2
    rw [List.foldl_append, List.foldl_cons, List.foldl_nil, ih, distinct_concat,
      countIn_map (pairwise_distinct names) hnew]
    simp only [List.countP_append, List.countP_singleton]

theorem sum_countIn (n : Name) (counts : List (Name × Nat)) :
    ((n.countIn counts).map Prod.snd).sum = (counts.map Prod.snd).sum + 1 := by
  induction counts with
  | nil => rfl
  | cons entry counts ih =>
    rw [countIn]
    split
    · simp only [List.map_cons, List.sum_cons]
      omega
    · simp only [List.map_cons, List.sum_cons, ih]
      omega

/-- Every use is counted once. -/
theorem sum_countP_distinct (names : List Name) :
    ((distinct names).map fun n => names.countP n.isSame).sum = names.length := by
  have htotal : ∀ (names : List Name) (counts : List (Name × Nat)),
      ((names.foldl (fun counts n => n.countIn counts) counts).map Prod.snd).sum
        = (counts.map Prod.snd).sum + names.length := by
    intro names
    induction names with
    | nil => exact fun counts => rfl
    | cons n names ih =>
      intro counts
      rw [List.foldl_cons, ih, sum_countIn, List.length_cons]
      omega
  have hcounted := htotal names []
  rw [foldl_countIn, List.map_map] at hcounted
  exact hcounted.trans (Nat.zero_add _)

/-! ## Names in order -/

section Order

variable {α : Type} [LinearOrder α]

/-- Both names have a key, and that of the first is the smaller one. -/
def BeforeBy (key : Name → Option α) (n m : Name) : Prop :=
  ∃ a b, key n = some a ∧ key m = some b ∧ a < b

/-- Different names that have a key, sorted by it. -/
theorem pairwise_mergeSort_of_key {key : Name → Option α} {le : Name → Name → Bool} (absent : α)
    (hle : ∀ n m, le n m = true ↔ (key n).getD absent ≤ (key m).getD absent)
    (hkey : ∀ n ∈ names, (key n).isSome = true)
    (hsame : ∀ n m, (key n).isSome = true → key n = key m → n.isSame m = true)
    (hdifferent : names.Pairwise fun n m => n.isSame m = false) :
    (names.mergeSort le).Pairwise (BeforeBy key) := by
  have hperm := List.mergeSort_perm names le
  have hnever : (names.mergeSort le).Pairwise fun n m => n.isSame m = false :=
    (hperm.pairwise_iff fun h => by rwa [isSame_comm]).2 hdifferent
  have htrans : ∀ n m k, le n m = true → le m k = true → le n k = true := fun n m k hnm hmk =>
    (hle n k).2 (((hle n m).1 hnm).trans ((hle m k).1 hmk))
  have htotal : ∀ n m, (le n m || le m n) = true := fun n m => by
    rw [Bool.or_eq_true, hle, hle]
    exact le_total _ _
  have hsorted := List.pairwise_mergeSort htrans htotal names
  refine (hsorted.and hnever).imp_of_mem fun {n m} hn hm h => ?_
  obtain ⟨a, ha⟩ := Option.isSome_iff_exists.1 (hkey n (hperm.mem_iff.1 hn))
  obtain ⟨b, hb⟩ := Option.isSome_iff_exists.1 (hkey m (hperm.mem_iff.1 hm))
  have hab : a ≤ b := by simpa [ha, hb] using (hle n m).1 h.1
  refine ⟨a, b, ha, hb, lt_of_le_of_ne hab fun heq => ?_⟩
  rw [hsame n m (by rw [ha]; rfl) (by rw [ha, hb, heq])] at h
  exact absurd h.2 Bool.true_eq_false.mp

/-- Different keys are in one order or the other. -/
theorem beforeBy_or_beforeBy (key : Name → Option α) (hn : (key n).isSome = true)
    (hm : (key m).isSome = true) (hne : key n ≠ key m) : BeforeBy key n m ∨ BeforeBy key m n := by
  obtain ⟨a, ha⟩ := Option.isSome_iff_exists.1 hn
  obtain ⟨b, hb⟩ := Option.isSome_iff_exists.1 hm
  rw [ha, hb] at hne
  rcases lt_or_gt_of_ne fun h => hne (congrArg some h) with h | h
  · exact .inl ⟨a, b, ha, hb, h⟩
  · exact .inr ⟨b, a, hb, ha, h⟩

end Order

/-- A name comes before another: texts by code point, and numbers by value. -/
def Before (n m : Name) : Prop := BeforeBy text? n m ∨ BeforeBy number? n m

/-- Two names are the same, or one of them comes before the other. -/
def Comparable (n m : Name) : Prop := n.isSame m = true ∨ n.Before m ∨ m.Before n

theorem isSame_of_text? (hn : n.text?.isSome = true) (h : n.text? = m.text?) :
    n.isSame m = true := by
  cases n with
  | other d => cases hn
  | text name =>
    cases m with
    | other d => cases h
    | text name' =>
      obtain rfl := Option.some.inj h
      exact isSame_self _

theorem isSame_of_number? (hn : n.number?.isSome = true) (h : n.number? = m.number?) :
    n.isSame m = true :=
  isSame_iff.2 (.inr ⟨hn, h⟩)

theorem sorted?_distinct (names : List Name) : sorted? (distinct names) = sorted? names := by
  rw [sorted?, sorted?, distinct_of_pairwise (pairwise_distinct names)]

/-- **Sorted names** are the given ones, each before the next. -/
theorem sorted?_spec {each : List Name} (h : sorted? names = some each) :
    each.Pairwise Before ∧ ∀ n : Name, n.isAmong each = n.isAmong names := by
  have hdifferent := pairwise_distinct names
  simp only [sorted?] at h
  split at h
  · rename_i hlength
    obtain rfl := Option.some.inj h
    refine ⟨?_, fun n => isAmong_distinct n names⟩
    cases hnames : distinct names with
    | nil => exact .nil
    | cons k rest =>
      rw [hnames, List.length_cons] at hlength
      obtain rfl : rest = [] := List.length_eq_zero_iff.1 (by omega)
      exact List.pairwise_singleton _ _
  · split at h
    · rename_i htexts
      obtain rfl := Option.some.inj h
      have hsorted := pairwise_mergeSort_of_key "" (fun n m => decide_eq_true_iff)
        (List.all_eq_true.1 htexts) (fun n m => isSame_of_text?) hdifferent
      exact ⟨hsorted.imp .inl, fun n =>
        (isAmong_perm (List.mergeSort_perm ..) n).trans (isAmong_distinct n names)⟩
    · split at h
      · rename_i hnumbers
        obtain rfl := Option.some.inj h
        have hsorted := pairwise_mergeSort_of_key 0 (fun n m => decide_eq_true_iff)
          (List.all_eq_true.1 hnumbers) (fun n m => isSame_of_number?) hdifferent
        exact ⟨hsorted.imp .inr, fun n =>
          (isAmong_perm (List.mergeSort_perm ..) n).trans (isAmong_distinct n names)⟩
      · cases h

theorem Comparable.symm (h : n.Comparable m) : m.Comparable n := by
  rcases h with h | h | h
  · exact .inl (isSame_comm n m ▸ h)
  · exact .inr (.inr h)
  · exact .inr (.inl h)

instance : Std.Symm Comparable := ⟨fun _ _ => Comparable.symm⟩

/-- Names that are the same compare with others alike. -/
theorem Comparable.congr {n' : Name} (hn : n.isSame n' = true) (h : n.Comparable m) :
    n'.Comparable m := by
  rw [Comparable, Before, Before, BeforeBy, BeforeBy, BeforeBy, BeforeBy, isSame_congr hn,
    text?_of_isSame hn, number?_of_isSame hn] at h
  exact h

/-- Names that compare are both texts or neither, and both numbers or neither. -/
theorem Comparable.kinds (h : n.Comparable m) :
    n.text?.isSome = m.text?.isSome ∧ n.number?.isSome = m.number?.isSome := by
  have htexts : ∀ {n m : Name}, BeforeBy text? n m →
      n.text?.isSome = m.text?.isSome ∧ n.number?.isSome = m.number?.isSome := by
    rintro n m ⟨a, b, hn, hm, -⟩
    cases n with
    | other d => cases hn
    | text name =>
      cases m with
      | other d => cases hm
      | text name' => exact ⟨rfl, rfl⟩
  have hnumbers : ∀ {n m : Name}, BeforeBy number? n m →
      n.text?.isSome = m.text?.isSome ∧ n.number?.isSome = m.number?.isSome := by
    rintro n m ⟨x, y, hn, hm, -⟩
    rw [text?_of_number?_isSome (hn ▸ rfl), text?_of_number?_isSome (hm ▸ rfl), hn, hm]
    exact ⟨rfl, rfl⟩
  rcases h with h | (h | h) | (h | h)
  · rw [text?_of_isSame h, number?_of_isSame h]
    exact ⟨rfl, rfl⟩
  · exact htexts h
  · exact hnumbers h
  · exact (htexts h).imp Eq.symm Eq.symm
  · exact (hnumbers h).imp Eq.symm Eq.symm

/-- **Names have an order** if any two of them compare. -/
theorem exists_sorted?_iff :
    (∃ each, sorted? names = some each) ↔ ∀ n ∈ names, ∀ m ∈ names, n.Comparable m := by
  constructor
  · rintro ⟨each, heach⟩ n hn m hm
    obtain ⟨hbefore, hsame⟩ := sorted?_spec heach
    have hpairs : each.Pairwise Comparable := hbefore.imp fun h => .inr (.inl h)
    have hcompare : ∀ k ∈ each, ∀ l ∈ each, k.Comparable l := fun k hk l hl =>
      hpairs.forall_of_forall (fun k _ => .inl (isSame_self k)) hk hl
    obtain ⟨k, hk, hnk⟩ := isAmong_iff.1 (hsame n ▸ isAmong_of_mem hn)
    obtain ⟨l, hl, hml⟩ := isAmong_iff.1 (hsame m ▸ isAmong_of_mem hm)
    rw [isSame_comm] at hnk hml
    exact ((((hcompare k hk l hl).congr hnk).symm).congr hml).symm
  · intro h
    have hmem : ∀ n ∈ distinct names, n ∈ names := fun n => mem_of_mem_distinct
    simp only [sorted?]
    cases hnames : distinct names with
    | nil => exact ⟨_, rfl⟩
    | cons n rest =>
      cases rest with
      | nil => exact ⟨_, rfl⟩
      | cons m rest =>
        have hdifferent := pairwise_distinct names
        rw [hnames] at hdifferent hmem
        have hn := hmem n List.mem_cons_self
        have hm := hmem m (List.mem_cons_of_mem _ List.mem_cons_self)
        have hne : n.isSame m = false := (List.pairwise_cons.1 hdifferent).1 m List.mem_cons_self
        -- two different names that compare are two texts or two numbers, and so are the others
        have hkind : n.text?.isSome = true ∨ n.number?.isSome = true := by
          rcases h n hn m hm with
            h | (⟨a, b, ha, -⟩ | ⟨x, y, hx, -⟩) | (⟨a, b, -, hb, -⟩ | ⟨x, y, -, hy, -⟩)
          · exact absurd h (by simp [hne])
          · exact .inl (ha ▸ rfl)
          · exact .inr (hx ▸ rfl)
          · exact .inl (hb ▸ rfl)
          · exact .inr (hy ▸ rfl)
        rcases hkind with hkind | hkind
        · have htexts : (n :: m :: rest).all (·.text?.isSome) = true :=
            List.all_eq_true.2 fun k hk => (h n hn k (hmem k hk)).kinds.1 ▸ hkind
          rw [htexts]
          exact ⟨_, rfl⟩
        · have hnumbers : (n :: m :: rest).all (·.number?.isSome) = true :=
            List.all_eq_true.2 fun k hk => (h n hn k (hmem k hk)).kinds.2 ▸ hkind
          rw [hnumbers]
          split
          · exact ⟨_, rfl⟩
          · split
            · exact ⟨_, rfl⟩
            · exact ⟨_, rfl⟩

/-- Texts have an order. -/
theorem exists_sorted? (h : ∀ n ∈ names, ∃ text, n = .text text) :
    ∃ each, sorted? names = some each := by
  refine exists_sorted?_iff.2 fun n hn m hm => ?_
  obtain ⟨a, rfl⟩ := h n hn
  obtain ⟨b, rfl⟩ := h m hm
  by_cases hab : a = b
  · exact .inl (hab ▸ isSame_self _)
  · rcases beforeBy_or_beforeBy text? (n := text a) (m := text b) rfl rfl (by simpa using hab)
      with h | h
    · exact .inr (.inl (.inl h))
    · exact .inr (.inr (.inl h))

/-! ## Texts -/

@[simp] theorem isAmong_text (name : String) (names : List Name) :
    (text name).isAmong names = names.contains (text name) := by
  rw [isAmong, funext (isSame_text name), List.any_beq]

@[simp] theorem before_text (a b : String) : (text a).Before (text b) ↔ a < b := by
  constructor
  · rintro (⟨_, _, ha, hb, h⟩ | ⟨_, _, ha, -⟩)
    · obtain rfl := Option.some.inj ha
      obtain rfl := Option.some.inj hb
      exact h
    · cases ha
  · exact fun h => .inl ⟨a, b, rfl, rfl, h⟩

/-- **Texts in order** are texts again, which strictly increase. -/
theorem exists_sorted?_texts (h : ∀ n ∈ names, ∃ text, n = .text text) :
    ∃ texts : List String, sorted? names = some (texts.map .text) ∧ texts.Pairwise (· < ·) ∧
      ∀ name, name ∈ texts ↔ text name ∈ names := by
  obtain ⟨each, hsorted⟩ := exists_sorted? h
  obtain ⟨hbefore, hsame⟩ := sorted?_spec hsorted
  have hsome : ∀ n ∈ each, n.text?.map .text = some n := by
    intro n hn
    obtain ⟨m, hm, hnm⟩ := isAmong_iff.1 (hsame n ▸ isAmong_of_mem hn)
    obtain ⟨name, rfl⟩ := h m hm
    rw [isSame_comm, isSame_text, beq_iff_eq] at hnm
    exact hnm ▸ rfl
  have heach : (each.filterMap text?).map .text = each := by
    rw [List.map_filterMap, List.filterMap_congr hsome, List.filterMap_some]
  refine ⟨each.filterMap text?, by rw [heach, hsorted], ?_, fun name => ?_⟩
  · rw [← heach, List.pairwise_map] at hbefore
    exact hbefore.imp (before_text _ _).1
  · have hname := hsame (text name)
    rw [isAmong_text, isAmong_text, Bool.eq_iff_iff, List.contains_iff_mem,
      List.contains_iff_mem] at hname
    rw [← hname, ← List.mem_map_of_injective (fun _ _ => text.inj), heach]

theorem distinct_of_texts (h : ∀ n ∈ names, ∃ text, n = .text text) :
    distinct names = names.eraseDups := by
  induction names using List.reverseRecOn with
  | nil => rfl
  | append_singleton names n ih =>
    obtain ⟨htexts, hn⟩ := List.forall_mem_append.1 h
    obtain ⟨text, rfl⟩ := hn n (List.mem_singleton_self n)
    rw [distinct_concat, addTo, isAmong_distinct, isAmong_text, ih htexts, List.eraseDups_append]
    by_cases hmem : .text text ∈ names
    · simp [hmem, List.removeAll]
    · simp [hmem, List.removeAll, List.eraseDups_cons]

end Isolate.Name
