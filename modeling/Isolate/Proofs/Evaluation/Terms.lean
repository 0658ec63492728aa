import Isolate.Proofs.Outcome
import Isolate.Evaluation

/-!
# The terms of a sequence, evaluated

The terms of a sequence are evaluated one by one, so they all have a value exactly if each of them
does (`evaluateTerms_eq_ok`, `exists_of_evaluateTerms`).  They are only combined after that; but a
value comes out exactly if one does where each term is combined as soon as it is evaluated
(`combineFrom_cons`).
-/

namespace Isolate.Tree

variable {ν α : Type} {K : Kernel ν α} {columns : Columns α} {terms : List (Signed (Tree ν))}

theorem evaluateTerms_eq_ok {f : Tree ν → α}
    (h : ∀ t ∈ terms, t.item.evaluate K columns = .ok (f t.item)) :
    evaluateTerms K columns terms = .ok (terms.map (·.map f)) := by
  induction terms with
  | nil => rfl
  | cons t terms ih =>
    have ht : evaluate K columns t.item = .ok (f t.item) := h t (List.mem_cons_self ..)
    have hrest := ih fun u hu => h u (List.mem_cons_of_mem _ hu)
    rw [evaluateTerms, ht, ok_bind, hrest, ok_bind]
    rfl

theorem exists_of_evaluateTerms {values : List (Signed α)}
    (h : evaluateTerms K columns terms = .ok values) {t : Signed (Tree ν)} (ht : t ∈ terms) :
    ∃ v, t.item.evaluate K columns = .ok v := by
  induction terms generalizing values with
  | nil => exact absurd ht List.not_mem_nil
  | cons u terms ih =>
    rw [evaluateTerms, bind_eq_ok_iff] at h
    obtain ⟨v, hv, h⟩ := h
    rw [bind_eq_ok_iff] at h
    obtain ⟨others, hothers, _⟩ := h
    rcases List.mem_cons.1 ht with rfl | ht
    · exact ⟨v, hv⟩
    · exact ih hothers ht

/-- Changed terms have the values of the old ones if each of them has. -/
theorem evaluateTerms_map {K' : Kernel ν α} {others : Columns α} {f : Tree ν → Tree ν}
    (h : ∀ t ∈ terms, (f t.item).evaluate K columns = t.item.evaluate K' others) :
    evaluateTerms K columns (terms.map (·.map f)) = evaluateTerms K' others terms := by
  induction terms with
  | nil => rfl
  | cons t terms ih =>
    have ht : (f t.item).evaluate K columns = t.item.evaluate K' others :=
      h t (List.mem_cons_self ..)
    have hrest := ih fun u hu => h u (List.mem_cons_of_mem _ hu)
    rw [List.map_cons, Signed.map, evaluateTerms, evaluateTerms, ht, hrest]

/-- Terms have the same values in another kernel, or under other columns, if each of them has. -/
theorem evaluateTerms_congr {K' : Kernel ν α} {others : Columns α}
    (h : ∀ t ∈ terms, t.item.evaluate K columns = t.item.evaluate K' others) :
    evaluateTerms K columns terms = evaluateTerms K' others terms := by
  have hmap : terms.map (·.map id) = terms := by
    simp [Signed.map]
  rw [← evaluateTerms_map (f := id) h, hmap]

/-! ## Terms combined -/

/-- Some terms evaluated, and then combined with what there is already. -/
def combineFrom (K : Kernel ν α) (columns : Columns α) (kind : SeqKind) (start : Except Fault α)
    (terms : List (Signed (Tree ν))) : Except Fault α := do
  let a ← start
  let values ← evaluateTerms K columns terms
  values.foldlM (K.step kind) a

theorem evaluate_seq (kind : SeqKind) :
    (seq kind terms).evaluate K columns = combineFrom K columns kind (.ok (K.start kind)) terms :=
  rfl

@[simp] theorem combineFrom_nil (kind : SeqKind) (start : Except Fault α) :
    combineFrom K columns kind start [] = start := by
  cases start with
  | error fault => rfl
  | ok a => rfl

/-- The first term can be combined before the others are evaluated.  This only changes what a
refusal says. -/
theorem combineFrom_cons {kind : SeqKind} {t : Signed (Tree ν)} {start : Except Fault α} {v : α} :
    combineFrom K columns kind start (t :: terms) = .ok v ↔
      combineFrom K columns kind
        (do
          let a ← start
          let b ← t.item.evaluate K columns
          K.step kind a ⟨b, t.positive⟩) terms = .ok v := by
  simp only [combineFrom, evaluateTerms, bind_eq_ok_iff, Except.ok.injEq]
  constructor
  · rintro ⟨a, ha, _, ⟨b, hb, others, hothers, rfl⟩, hv⟩
    rw [List.foldlM_cons, bind_eq_ok_iff] at hv
    obtain ⟨c, hc, hv⟩ := hv
    exact ⟨c, ⟨a, ha, b, hb, hc⟩, others, hothers, hv⟩
  · rintro ⟨c, ⟨a, ha, b, hb, hc⟩, others, hothers, hv⟩
    refine ⟨a, ha, _, ⟨b, hb, others, hothers, rfl⟩, ?_⟩
    rw [List.foldlM_cons, bind_eq_ok_iff]
    exact ⟨c, hc, hv⟩

end Isolate.Tree
