import Isolate.Tree.Text
import Isolate.Number.Binary64

/-!
# Legible trees

What a tree is written as can be read back only if its constants are finite, its leaves are named by
texts of some restricted form, and no sequence is empty.

* `Tree.Named` - the leaves with a name;
* `Tree.Legible` - trees of finite constants, named leaves and sequences that are not empty.
-/

namespace Isolate

/-- The function that is found for a code has that code. -/
theorem Builtin.ofCode?_of_coded {id : Int} {f : Builtin} (h : Builtin.coded (.int id) = .ok f) :
    Builtin.ofCode? id = some f := by
  simp only [Builtin.coded, Builtin.ofDatum?_int] at h
  split at h
  · rename_i g hg
    rw [hg, Except.ok.inj h]
  · exact absurd h (by simp)

namespace Tree

/-- A variable or a placeholder with a name. -/
inductive Named : Tree Float → Name → Prop
  | var (name : Name) (stored : Option Float) : Named (.var name stored) name
  | hole (name : Name) : Named (.hole name) name

/-- Trees of finite constants and of leaves with names of a certain form, in which no sequence is
empty. -/
inductive Legible (IsName : String → Prop) : Tree Float → Prop
  | const {x : Float} (hx : Binary64.isFinite x = true) : Legible IsName (.const x)
  | named {t : Tree Float} {name : String} (hname : IsName name) (ht : t.Named (.text name)) :
      Legible IsName t
  | seq {kind : SeqKind} {terms : List (Signed (Tree Float))} (hne : terms ≠ [])
      (hterms : ∀ t ∈ terms, Legible IsName t.item) : Legible IsName (.seq kind terms)
  | pow {base exponent : Tree Float} (hbase : Legible IsName base)
      (hexponent : Legible IsName exponent) : Legible IsName (.pow base exponent)
  | fn {id : Int} {argument : Tree Float} (hargument : Legible IsName argument) :
      Legible IsName (.fn id argument)

variable {IsName : String → Prop} {t : Tree Float}

theorem Legible.of_mem_children (h : t.Legible IsName) {c : Tree Float} (hc : c ∈ t.children) :
    c.Legible IsName := by
  cases h with
  | const _ => exact absurd hc List.not_mem_nil
  | named _ ht => cases ht <;> exact absurd hc List.not_mem_nil
  | seq _ hts =>
    obtain ⟨t, ht, rfl⟩ := List.mem_map.1 hc
    exact hts t ht
  | pow hb he =>
    rcases List.mem_cons.1 hc with rfl | hc
    · exact hb
    · obtain rfl := List.mem_singleton.1 hc
      exact he
  | fn ha =>
    obtain rfl := List.mem_singleton.1 hc
    exact ha

theorem Legible.leaf (h : t.Legible IsName) (hleaf : t.children = []) :
    (∃ x, Binary64.isFinite x = true ∧ t = .const x) ∨
      ∃ name, IsName name ∧ t.Named (.text name) := by
  cases h with
  | const hx => exact .inl ⟨_, hx, rfl⟩
  | named hname ht => exact .inr ⟨_, hname, ht⟩
  | seq hne _ => exact absurd hleaf (by simpa [children] using hne)
  | pow _ _ => exact absurd hleaf (List.cons_ne_nil _ _)
  | fn _ => exact absurd hleaf (List.cons_ne_nil _ _)

theorem Legible.oddName? (h : t.Legible IsName) : t.oddName? = none := by
  cases h with
  | named _ ht => cases ht <;> rfl
  | _ => rfl

end Tree

end Isolate
