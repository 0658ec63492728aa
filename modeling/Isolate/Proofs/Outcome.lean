import Isolate.Fault

/-!
# Operations that may refuse

An operation that may refuse ends in an `Except Fault α`.  A sequence of operations succeeds exactly
if each of them does on what the one before it gave.
-/

namespace Isolate

variable {α β : Type}

@[simp] theorem ok_bind (a : α) (f : α → Except Fault β) : (Except.ok a >>= f) = f a := rfl

@[simp] theorem error_bind (fault : Fault) (f : α → Except Fault β) :
    (Except.error fault >>= f) = .error fault := rfl

@[simp] theorem bind_eq_ok_iff {x : Except Fault α} {f : α → Except Fault β} {b : β} :
    (x >>= f) = .ok b ↔ ∃ a, x = .ok a ∧ f a = .ok b := by
  cases x with
  | error fault => simp
  | ok a => simp

@[simp] theorem map_eq_ok_iff {x : Except Fault α} {f : α → β} {b : β} :
    x.map f = .ok b ↔ ∃ a, x = .ok a ∧ f a = b := by
  cases x with
  | error fault => simp [Except.map]
  | ok a => simp [Except.map]

@[simp] theorem toOption_eq_some_iff {x : Except Fault α} {a : α} :
    x.toOption = some a ↔ x = .ok a := by
  cases x with
  | error fault => simp [Except.toOption]
  | ok b => simp [Except.toOption]

/-- What a refusal says is forgotten in the answer of two operations, too. -/
theorem toOption_bind (x : Except Fault α) (f : α → Except Fault β) :
    (x >>= f).toOption = x.toOption.bind fun a => (f a).toOption := by
  cases x <;> rfl

/-- Asking one item after the other, where none refuses, is asking all of them. -/
theorem allM_eq_ok {items : List α} {ask : α → Except Fault Bool} {answer : α → Bool}
    (h : ∀ a ∈ items, ask a = .ok (answer a)) : items.allM ask = .ok (items.all answer) := by
  induction items with
  | nil => rfl
  | cons a items ih =>
    have hrest := ih fun b hb => h b (List.mem_cons_of_mem _ hb)
    rw [List.allM, h a (List.mem_cons_self ..), ok_bind, List.all_cons]
    cases answer a with
    | true => exact hrest
    | false => rfl

/-- Operations on one item after the other succeed if each of them does. -/
theorem exists_mapM {items : List α} {f : α → Except Fault β}
    (h : ∀ a ∈ items, ∃ b, f a = .ok b) : ∃ each, items.mapM f = .ok each := by
  induction items with
  | nil => exact ⟨[], rfl⟩
  | cons a items ih =>
    obtain ⟨b, hb⟩ := h a (List.mem_cons_self ..)
    obtain ⟨each, heach⟩ := ih fun c hc => h c (List.mem_cons_of_mem _ hc)
    rw [List.mapM_cons, hb, ok_bind, heach]
    exact ⟨_, rfl⟩

/-- Operations that follow one another succeed if each of them does, whatever it starts from. -/
theorem exists_foldlM {items : List α} {f : β → α → Except Fault β}
    (h : ∀ a ∈ items, ∀ b, ∃ c, f b a = .ok c) (b : β) : ∃ c, items.foldlM f b = .ok c := by
  induction items generalizing b with
  | nil => exact ⟨b, rfl⟩
  | cons a items ih =>
    obtain ⟨c, hc⟩ := h a (List.mem_cons_self ..) b
    rw [List.foldlM_cons, hc, ok_bind]
    exact ih (fun a ha => h a (List.mem_cons_of_mem _ ha)) c

end Isolate
