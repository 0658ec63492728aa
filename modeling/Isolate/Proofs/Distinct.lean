import Isolate.Tree.Query
import Mathlib.Data.List.Basic
import Mathlib.Data.String.Basic

/-!
# Each once

What is left of a list without its repeats (`nodup_eraseDups`), and the texts of a list in order,
each once: they are its members (`mem_sortedOnce`), and they strictly increase
(`sortedOnce_pairwise`).
-/

namespace Isolate

/-- Without repetitions nothing occurs twice. -/
theorem nodup_eraseDups {α : Type} [BEq α] [LawfulBEq α] (l : List α) : l.eraseDups.Nodup := by
  induction hlength : l.length using Nat.strongRecOn generalizing l with
  | ind n ih =>
    cases l with
    | nil => exact List.nodup_nil
    | cons a l =>
      rw [List.eraseDups_cons]
      refine List.nodup_cons.2 ⟨by simp, ih _ ?_ _ rfl⟩
      have hle := List.length_filter_le (fun b => !b == a) l
      simp only [List.length_cons] at hlength
      omega

theorem mem_sortedOnce {texts : List String} {text : String} :
    text ∈ sortedOnce texts ↔ text ∈ texts := by
  rw [sortedOnce, List.mem_mergeSort, List.mem_eraseDups]

theorem sortedOnce_pairwise (texts : List String) : (sortedOnce texts).Pairwise (· < ·) := by
  rw [sortedOnce]
  have hnodup : (texts.eraseDups.mergeSort fun a b => decide (a ≤ b)).Nodup :=
    (List.mergeSort_perm ..).nodup_iff.2 (nodup_eraseDups texts)
  have htrans : ∀ a b c : String, decide (a ≤ b) = true → decide (b ≤ c) = true →
      decide (a ≤ c) = true := fun a b c hab hbc =>
    decide_eq_true (le_trans (of_decide_eq_true hab) (of_decide_eq_true hbc))
  have htotal : ∀ a b : String, (decide (a ≤ b) || decide (b ≤ a)) = true := fun a b => by
    simpa using le_total a b
  have hsorted := List.pairwise_mergeSort htrans htotal texts.eraseDups
  exact (hsorted.and hnodup).imp fun h => lt_of_le_of_ne (of_decide_eq_true h.1) h.2

end Isolate
