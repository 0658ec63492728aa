import Isolate.Proofs.Evaluation.Terms
import Isolate.Proofs.Grid.Broadcast
import Isolate.Proofs.Tree.Built
import Isolate.Tree.Binding
import Isolate.Valuation

/-!
# Evaluation element by element

A tree is evaluated over whole arrays, whose dimensions change from node to node.  This file shows
that nothing comes of it but the evaluation of single elements, whatever the operations do to them.

The invariant is `Elementwise`: an operation over some arrays succeeds exactly if their dimensions
stretch to the same, its result stretches no further than they require, and each element of the
result is worked out from the elements of the arrays.  It holds of the leaves, and survives
functions (`Elementwise.mapFlat`), operations of two arrays (`Elementwise.zipWith`) and sequences
(`elementwise_combineFrom`), so it holds of every tree (`elementwise_evaluate`).

* `Elementwise.dims_eq` - the dimensions of an outcome are the common ones of the arrays;
* `result_slice` - under bindings without dimensions, the value is that of single elements;
* `evaluation_elementwise` - **an expression over columns** is evaluated element by element.
-/

namespace Isolate

variable {α : Type}

/-! ## Arrays by name -/

/-- Arrays by name. -/
abbrev Arrays (α : Type) := List (String × Grid α)

namespace Arrays

/-- The dimensions of the arrays. -/
def shapes (arrays : Arrays α) : List (List Nat) := arrays.map (·.2.dims)

/-- The array that a name is bound to. -/
def bound? (arrays : Arrays α) (name : Name) : Option (Grid α) :=
  name.text?.bind fun text => arrays.lookup text

/-- The elements of the arrays at an index of a larger array, each without dimensions. -/
def slice (arrays : Arrays α) (index : List Nat) : Arrays α :=
  arrays.map fun (name, g) => (name, Grid.scalar (g.get index))

/-- The elements of the arrays at an index of a larger array. -/
def elements (arrays : Arrays α) (index : List Nat) : Columns α :=
  fun name => (arrays.lookup name).map fun g => .ok (g.get index)

theorem lookup_map {β γ : Type} (f : β → γ) (name : String) (entries : List (String × β)) :
    (entries.map fun entry => (entry.1, f entry.2)).lookup name = (entries.lookup name).map f := by
  induction entries with
  | nil => rfl
  | cons entry entries ih =>
    obtain ⟨key, b⟩ := entry
    by_cases hkey : name = key
    · simp [hkey]
    · have hne : (name == key) = false := by simpa using hkey
      simp only [List.map_cons, List.lookup_cons, hne, ih]

theorem mem_of_lookup {name : String} {g : Grid α} {arrays : Arrays α}
    (h : arrays.lookup name = some g) : (name, g) ∈ arrays := by
  obtain ⟨before, after, rfl, _⟩ := List.lookup_eq_some_iff.1 h
  exact List.mem_append_right _ (List.mem_cons_self ..)

theorem lookup_slice (arrays : Arrays α) (index : List Nat) (name : String) :
    (arrays.slice index).lookup name
      = (arrays.lookup name).map fun g => Grid.scalar (g.get index) :=
  lookup_map (fun g : Grid α => Grid.scalar (g.get index)) name arrays

/-- Slicing again changes nothing. -/
theorem elements_slice (arrays : Arrays α) (index index' : List Nat) :
    (arrays.slice index).elements index' = arrays.elements index := by
  funext name
  rw [elements, elements, lookup_slice, Option.map_map]
  rfl

end Arrays

namespace Table

theorem columns_ofGrids (arrays : Arrays α) (name : String) :
    (ofGrids arrays).columns name = (arrays.lookup name).map .ok := by
  have hlookup : (ofGrids arrays).lookup name
      = (arrays.lookup name).map fun g => ⟨.ok g.dims, .ok g⟩ :=
    Arrays.lookup_map (fun g : Grid α => Column.mk (.ok g.dims) (.ok g)) name arrays
  rw [columns, hlookup, Option.map_map]
  rfl

theorem mapM_dims_ofGrids (arrays : Arrays α) :
    (ofGrids arrays).mapM (fun entry => entry.2.dims) = .ok arrays.shapes := by
  rw [ofGrids, List.mapM_map]
  exact List.mapM_pure

theorem commonDims_of_some {arrays : Arrays α} {D : List Nat}
    (h : broadcastAll? arrays.shapes = some D) : (ofGrids arrays).commonDims = .ok D := by
  simp only [commonDims, mapM_dims_ofGrids, ok_bind, h]

theorem commonDims_of_none {arrays : Arrays α} (h : broadcastAll? arrays.shapes = none) :
    (ofGrids arrays).commonDims = .error .shapes := by
  simp only [commonDims, mapM_dims_ofGrids, ok_bind, h]

end Table

/-! ## The invariant -/

/-- An outcome is worked out element by element from arrays of some dimensions: it is an array if
those stretch to the same, and then they are what it stretches as far as. -/
structure Elementwise (shapes : List (List Nat)) (element : List Nat → Except Fault α)
    (outcome : Except Fault (Grid α)) : Prop where
  defined : ∀ {D}, StretchAll shapes D → ∃ g, outcome = .ok g ∧ Stretches g.dims D
  covers : ∀ {g}, outcome = .ok g → StretchAll shapes g.dims
  element_eq : ∀ {g}, outcome = .ok g → ∀ {D}, Stretches g.dims D → ∀ {index}, IsIndex D index →
    element index = .ok (g.get index)

namespace Elementwise

variable {shapes others : List (List Nat)} {element element' : List Nat → Except Fault α}
  {outcome outcome' : Except Fault (Grid α)}

/-- **The dimensions of the outcome are the common ones**, if there are any. -/
theorem dims_eq (h : Elementwise shapes element outcome) :
    outcome.toOption.map Grid.dims = broadcastAll? shapes := by
  cases outcome with
  | ok g =>
    refine (broadcastAll?_eq_some_iff.2 ⟨h.covers rfl, fun {D} hD => ?_⟩).symm
    obtain ⟨g', hg', hstretch⟩ := h.defined hD
    obtain rfl := Except.ok.inj hg'
    exact hstretch
  | error fault =>
    cases hD : broadcastAll? shapes with
    | none => rfl
    | some D =>
      obtain ⟨g, hg, _⟩ := h.defined (broadcastAll?_eq_some_iff.1 hD).all
      exact absurd hg (by simp)

/-- Only success and the values matter, not what a refusal says. -/
theorem congr (h : Elementwise shapes element outcome)
    (helement : ∀ index a, element' index = .ok a ↔ element index = .ok a)
    (houtcome : ∀ g, outcome' = .ok g ↔ outcome = .ok g) :
    Elementwise shapes element' outcome' where
  defined := by
    intro D hD
    obtain ⟨g, hg, hstretch⟩ := h.defined hD
    exact ⟨g, (houtcome g).2 hg, hstretch⟩
  covers := fun hg => h.covers ((houtcome _).1 hg)
  element_eq := fun hg _ hD index hindex =>
    (helement index _).2 (h.element_eq ((houtcome _).1 hg) hD hindex)

/-- An array, read as it is. -/
theorem array (g : Grid α) : Elementwise [g.dims] (fun index => .ok (g.get index)) (.ok g) where
  defined := fun hD => ⟨g, rfl, hD g.dims (List.mem_singleton_self _)⟩
  covers := by
    intro k hk d hd
    obtain rfl := Except.ok.inj hk
    obtain rfl := List.mem_singleton.1 hd
    exact stretches_refl _
  element_eq := by
    intro k hk D _ index _
    obtain rfl := Except.ok.inj hk
    rfl

/-- A single number stands in every place, and no array is needed for it. -/
theorem scalar (a : α) : Elementwise [] (fun _ => .ok a) (.ok (Grid.scalar a)) where
  defined := fun _ => ⟨_, rfl, stretches_nil _⟩
  covers := fun _ d hd => absurd hd List.not_mem_nil
  element_eq := by
    intro g hg D _ index _
    obtain rfl := Except.ok.inj hg
    rfl

/-- A function of the elements along one axis. -/
theorem mapFlat (f : α → α) (h : Elementwise shapes element outcome) :
    Elementwise shapes
      (fun index => do
        let a ← element index
        .ok (f a))
      (do
        let g ← outcome
        .ok ((g.flat.map f).reshape g.dims)) where
  defined := by
    intro D hD
    obtain ⟨g, hg, hstretch⟩ := h.defined hD
    exact ⟨(g.flat.map f).reshape g.dims, by rw [hg, ok_bind], hstretch⟩
  covers := by
    intro k hk
    obtain ⟨g, hg, hk⟩ := bind_eq_ok_iff.1 hk
    obtain rfl := Except.ok.inj hk
    have hcovers := h.covers hg
    exact hcovers
  element_eq := by
    intro k hk D hD index hindex
    obtain ⟨g, hg, hk⟩ := bind_eq_ok_iff.1 hk
    obtain rfl := Except.ok.inj hk
    have hstretch : Stretches g.dims D := hD
    rw [h.element_eq hg hstretch hindex, ok_bind, Grid.get_reshape_flat f g hstretch hindex]

/-- An operation on the elements of two arrays, which are stretched against each other. -/
theorem zipWith (f : α → α → α) (h : Elementwise shapes element outcome)
    (h' : Elementwise others element' outcome') :
    Elementwise (shapes ++ others)
      (fun index => do
        let a ← element index
        let b ← element' index
        .ok (f a b))
      (do
        let a ← outcome
        let b ← outcome'
        Grid.zipWith f a b) where
  defined := by
    intro D hD
    obtain ⟨hshapes, hothers⟩ := stretchAll_append.1 hD
    obtain ⟨a, ha, haD⟩ := h.defined hshapes
    obtain ⟨b, hb, hbD⟩ := h'.defined hothers
    rw [ha, ok_bind, hb, ok_bind]
    exact Grid.exists_zipWith f haD hbD
  covers := by
    intro g hg
    obtain ⟨a, ha, hg⟩ := bind_eq_ok_iff.1 hg
    obtain ⟨b, hb, hg⟩ := bind_eq_ok_iff.1 hg
    -- each operand covers its own arrays, and the result covers both operands
    obtain ⟨hag, hbg⟩ := stretches_of_broadcast (Grid.exists_of_zipWith hg)
    exact stretchAll_append.2
      ⟨fun d hd => stretches_trans (h.covers ha d hd) hag,
        fun d hd => stretches_trans (h'.covers hb d hd) hbg⟩
  element_eq := by
    intro g hg D hD index hindex
    obtain ⟨a, ha, hg⟩ := bind_eq_ok_iff.1 hg
    obtain ⟨b, hb, hg⟩ := bind_eq_ok_iff.1 hg
    -- what the result stretches to, its operands stretch to
    obtain ⟨hag, hbg⟩ := stretches_of_broadcast (Grid.exists_of_zipWith hg)
    rw [h.element_eq ha (stretches_trans hag hD) hindex, ok_bind,
      h'.element_eq hb (stretches_trans hbg hD) hindex, ok_bind, Grid.get_of_zipWith hg index]

end Elementwise

/-! ## Terms -/

namespace Arithmetic

/-- What one more signed term does to an element. -/
def operation (A : Arithmetic α) (kind : SeqKind) (positive : Bool) : α → α → α :=
  match kind, positive with
  | .sum, true => A.add
  | .sum, false => A.sub
  | .product, true => A.mul
  | .product, false => A.div

theorem scalars_step (A : Arithmetic α) (kind : SeqKind) (positive : Bool) (total a : α) :
    A.scalars.step kind total ⟨a, positive⟩ = .ok (A.operation kind positive total a) := by
  cases kind <;> cases positive <;> rfl

theorem grids_step (A : Arithmetic α) (kind : SeqKind) (positive : Bool) (total g : Grid α) :
    A.grids.step kind total ⟨g, positive⟩ = Grid.zipWith (A.operation kind positive) total g := by
  cases kind <;> cases positive <;> rfl

theorem grids_start (A : Arithmetic α) (kind : SeqKind) :
    A.grids.start kind = Grid.scalar (A.scalars.start kind) := by
  cases kind <;> rfl

end Arithmetic

/-- Terms are worked out element by element if each of them is. -/
theorem elementwise_combineFrom {A : Arithmetic α} {kind : SeqKind} {columns : Columns (Grid α)}
    {elements : List Nat → Columns α} {terms : List (Signed (Tree α))}
    (shapes : Tree α → List (List Nat))
    (hterms : ∀ t ∈ terms, Elementwise (shapes t.item)
      (fun index => t.item.evaluate A.scalars (elements index)) (t.item.evaluate A.grids columns))
    {done : List (List Nat)} {element : List Nat → Except Fault α} {start : Except Fault (Grid α)}
    (hstart : Elementwise done element start) :
    Elementwise (done ++ terms.flatMap fun t => shapes t.item)
      (fun index => Tree.combineFrom A.scalars (elements index) kind (element index) terms)
      (Tree.combineFrom A.grids columns kind start terms) := by
  -- the terms that have been combined already are part of the start
  induction terms generalizing done element start with
  | nil => simpa using hstart
  | cons t terms ih =>
    have hfirst := hstart.zipWith (A.operation kind t.positive) (hterms t (List.mem_cons_self ..))
    have hrest := ih (fun u hu => hterms u (List.mem_cons_of_mem _ hu)) hfirst
    rw [List.flatMap_cons, ← List.append_assoc]
    refine hrest.congr (fun index a => ?_) fun g => ?_
    · simp only [Tree.combineFrom_cons, Arithmetic.scalars_step]
    · simp only [Tree.combineFrom_cons, Arithmetic.grids_step]

/-! ## Trees -/

namespace Tree

/-- The arrays that the variables of a tree are bound to. -/
def arraysRead (arrays : Arrays α) (t : Tree α) : List (Grid α) :=
  t.variableLeaves.filterMap fun leaf => arrays.bound? leaf.1

/-- Every variable of a tree is bound to an array, or has a stored value. -/
def IsCovered (arrays : Arrays α) (t : Tree α) : Prop :=
  ∀ leaf ∈ t.variableLeaves, (arrays.bound? leaf.1).isSome ∨ leaf.2.isSome

instance (arrays : Arrays α) (t : Tree α) : Decidable (t.IsCovered arrays) :=
  inferInstanceAs (Decidable
    (∀ leaf ∈ t.variableLeaves, (arrays.bound? leaf.1).isSome ∨ leaf.2.isSome))

variable {A : Arithmetic α} {arrays : Arrays α}

theorem arraysRead_seq (kind : SeqKind) (terms : List (Signed (Tree α))) :
    (seq kind terms).arraysRead arrays = terms.flatMap fun t => t.item.arraysRead arrays := by
  rw [arraysRead, variableLeaves_seq, List.filterMap_flatMap]
  rfl

theorem arraysRead_pow (base exponent : Tree α) :
    (pow base exponent).arraysRead arrays
      = base.arraysRead arrays ++ exponent.arraysRead arrays := by
  rw [arraysRead, variableLeaves_pow, List.filterMap_append]
  rfl

theorem arraysRead_fn (id : Int) (argument : Tree α) :
    (fn id argument).arraysRead arrays = argument.arraysRead arrays := by
  rw [arraysRead, variableLeaves_fn]
  rfl

theorem isCovered_seq {kind : SeqKind} {terms : List (Signed (Tree α))} :
    (seq kind terms).IsCovered arrays ↔ ∀ t ∈ terms, t.item.IsCovered arrays := by
  rw [IsCovered, variableLeaves_seq]
  simp only [List.mem_flatMap, forall_exists_index, and_imp]
  exact ⟨fun h t ht leaf hleaf => h leaf t ht hleaf, fun h leaf t ht hleaf => h t ht leaf hleaf⟩

theorem isCovered_pow {base exponent : Tree α} :
    (pow base exponent).IsCovered arrays
      ↔ base.IsCovered arrays ∧ exponent.IsCovered arrays := by
  rw [IsCovered, variableLeaves_pow]
  exact List.forall_mem_append

theorem isCovered_fn {id : Int} {argument : Tree α} :
    (fn id argument).IsCovered arrays ↔ argument.IsCovered arrays := by
  rw [IsCovered, variableLeaves_fn]
  rfl

theorem stretchAll_arraysRead {t : Tree α} {D : List Nat} (h : StretchAll arrays.shapes D) :
    StretchAll ((t.arraysRead arrays).map Grid.dims) D := by
  intro d hd
  obtain ⟨g, hg, rfl⟩ := List.mem_map.1 hd
  obtain ⟨⟨name, stored⟩, _, hg⟩ := List.mem_filterMap.1 hg
  obtain ⟨text, _, hlookup⟩ := Option.bind_eq_some_iff.1 hg
  exact h g.dims (List.mem_map.2 ⟨(text, g), Arrays.mem_of_lookup hlookup, rfl⟩)

/-- A variable has the elements of its array, or else its stored value everywhere. -/
theorem elementwise_lookUp {name : String} {stored : Option α}
    (hcovered : (arrays.lookup name).isSome ∨ stored.isSome) :
    Elementwise (((var (.text name) stored).arraysRead arrays).map Grid.dims)
      (fun index => lookUp A.scalars (arrays.elements index) (.text name) stored)
      (lookUp A.grids (Table.ofGrids arrays).columns (.text name) stored) := by
  have hread : (var (.text name) stored).arraysRead arrays = (arrays.lookup name).toList := by
    cases h : arrays.lookup name <;> simp [arraysRead, Arrays.bound?, Name.text?, h]
  rw [hread]
  cases h : arrays.lookup name with
  | some g =>
    have hgrids : lookUp A.grids (Table.ofGrids arrays).columns (.text name) stored = .ok g := by
      simp [lookUp, Table.columns_ofGrids, h]
    have hscalars : ∀ index, lookUp A.scalars (arrays.elements index) (.text name) stored
        = .ok (g.get index) := by
      intro index
      simp [lookUp, Arrays.elements, h]
    simp only [hgrids, hscalars]
    exact .array g
  | none =>
    obtain ⟨a, rfl⟩ := Option.isSome_iff_exists.1 (hcovered.resolve_left (by simp [h]))
    have hgrids : lookUp A.grids (Table.ofGrids arrays).columns (.text name) (some a)
        = .ok (Grid.scalar a) := by
      simp [lookUp, Table.columns_ofGrids, h, Arithmetic.grids]
    have hscalars : ∀ index, lookUp A.scalars (arrays.elements index) (.text name) (some a)
        = .ok a := by
      intro index
      simp [lookUp, Arrays.elements, h, Arithmetic.scalars]
    simp only [hgrids, hscalars]
    exact .scalar a

/-- **A tree is worked out element by element** from the arrays that its variables are bound to. -/
theorem elementwise_evaluate (A : Arithmetic α) {t : Tree α} (ht : t.Built)
    (hcovered : t.IsCovered arrays) :
    Elementwise ((t.arraysRead arrays).map Grid.dims)
      (fun index => t.evaluate A.scalars (arrays.elements index))
      (t.evaluate A.grids (Table.ofGrids arrays).columns) := by
  induction t with
  | const value => exact .scalar value
  | var name stored =>
    obtain ⟨text, rfl⟩ := ht.parts
    exact elementwise_lookUp (hcovered _ (List.mem_singleton_self _))
  | hole name => exact .scalar A.zero
  | seq kind terms ih =>
    rw [arraysRead_seq, List.map_flatMap, evaluate_seq, Arithmetic.grids_start]
    simp only [evaluate_seq]
    exact elementwise_combineFrom (fun t => (t.arraysRead arrays).map Grid.dims)
      (fun t h => ih t h (ht.term h) (isCovered_seq.1 hcovered t h))
      (.scalar (A.scalars.start kind))
  | pow base exponent ihb ihe =>
    obtain ⟨hb, he⟩ := isCovered_pow.1 hcovered
    rw [arraysRead_pow, List.map_append]
    exact (ihb ht.base hb).zipWith A.pow (ihe ht.exponent he)
  | fn id argument ih =>
    obtain ⟨f, hf, _⟩ := ht.check
    rw [arraysRead_fn]
    simp only [evaluate, Kernel.call, hf, ok_bind]
    exact (ih ht.argument (isCovered_fn.1 hcovered)).mapFlat (A.apply f)
  | foreign d => exact ht.parts.elim

end Tree

/-! ## Columns compared with each other -/

namespace Table

variable {arrays : Arrays α} {g : Grid α}

/-- What stretches to the common shape of the columns is stretched to it. -/
theorem exists_stretch_ofGrids {D : List Nat} (hD : broadcastAll? arrays.shapes = some D)
    (hg : Stretches g.dims D) :
    ∃ k, (ofGrids arrays).stretch g = .ok k ∧ k.dims = D ∧
      ∀ index, IsIndex D index → k.entry index = g.get index := by
  cases arrays with
  | nil =>
    -- nothing is stretched where there are no columns, and nothing need be
    obtain rfl : [] = D := by simpa [broadcastAll?, Arrays.shapes] using hD
    have hdims : g.dims = [] := stretches_nil_iff.1 hg
    refine ⟨g, rfl, hdims, fun index hindex => ?_⟩
    rw [Grid.get, hdims, project_of_isIndex hindex]
  | cons entry arrays =>
    have hstretch : (ofGrids (entry :: arrays)).stretch g = g.expand D := by
      rw [stretch, commonDims_of_some hD]
      rfl
    exact ⟨⟨D, g.get⟩, by rw [hstretch, Grid.expand_of_stretches hg], rfl, fun _ _ => rfl⟩

/-- Columns without a common shape are refused. -/
theorem stretch_ofGrids_of_none (h : broadcastAll? arrays.shapes = none) :
    (ofGrids arrays).stretch g = .error .shapes := by
  cases arrays with
  | nil => exact absurd h (by simp [broadcastAll?, Arrays.shapes])
  | cons entry arrays =>
    rw [stretch, commonDims_of_none h]
    rfl

end Table

namespace Tree

variable {arrays : Arrays α}

theorem isCovered_slice {t : Tree α} (h : t.IsCovered arrays) (index : List Nat) :
    t.IsCovered (arrays.slice index) := by
  intro leaf hleaf
  have hbound : (arrays.slice index).bound? leaf.1
      = (arrays.bound? leaf.1).map fun g => Grid.scalar (g.get index) := by
    simp only [Arrays.bound?, Arrays.lookup_slice, Option.map_bind]
    rfl
  rw [hbound, Option.isSome_map]
  exact h leaf hleaf

/-- Under bindings without dimensions, a tree has the value that single elements give it. -/
theorem result_slice (A : Arithmetic α) {t : Tree α} (ht : t.Built) (hcovered : t.IsCovered arrays)
    (index : List Nat) :
    t.result A.grids (Table.ofGrids (arrays.slice index))
      = t.evaluate A.scalars (arrays.elements index) := by
  have h := elementwise_evaluate A ht (isCovered_slice hcovered index)
  have hshapes : StretchAll (arrays.slice index).shapes [] := by
    intro d hd
    rw [Arrays.shapes, Arrays.slice, List.map_map] at hd
    obtain ⟨entry, _, rfl⟩ := List.mem_map.1 hd
    exact stretches_nil []
  obtain ⟨g, hg, hdims⟩ := h.defined (stretchAll_arraysRead hshapes)
  have helement := h.element_eq hg hdims .nil
  rw [Arrays.elements_slice] at helement
  have hscalar : g.dims = [] := stretches_nil_iff.1 hdims
  rw [result, resultOn, hg, ok_bind, helement]
  exact Grid.toScalar_eq_ok_iff.2 ⟨hscalar, by rw [Grid.get, hscalar]; rfl⟩

/-- If all columns have common dimensions, the expression has those, and its elements are the values
that single elements give the tree. -/
theorem exists_resultOver (A : Arithmetic α) {t : Tree α} (ht : t.Built)
    (hcovered : t.IsCovered arrays) {D : List Nat} (hD : broadcastAll? arrays.shapes = some D) :
    ∃ g, t.resultOver A.grids (Table.ofGrids arrays) = .ok g ∧ g.dims = D ∧
      ∀ index, IsIndex D index →
        t.evaluate A.scalars (arrays.elements index) = .ok (g.entry index) := by
  have h := elementwise_evaluate A ht hcovered
  -- the columns that are read stretch to what all columns stretch to
  obtain ⟨g, hg, hstretch⟩ :=
    h.defined (stretchAll_arraysRead (broadcastAll?_eq_some_iff.1 hD).all)
  obtain ⟨k, hk, hdims, hentry⟩ := Table.exists_stretch_ofGrids hD hstretch
  refine ⟨k, by rw [resultOver, resultOn, hg, ok_bind, hk], hdims, fun index hindex => ?_⟩
  rw [h.element_eq hg hstretch hindex, hentry index hindex]

/-- Over columns without common dimensions an expression is refused, in any kernel. -/
theorem exists_resultOver_error (K : Kernel α (Grid α)) (t : Tree α)
    (h : broadcastAll? arrays.shapes = none) :
    ∃ fault, t.resultOver K (Table.ofGrids arrays) = .error fault := by
  unfold resultOver
  cases t.resultOn K (Table.ofGrids arrays) with
  | error fault => exact ⟨fault, rfl⟩
  | ok g => exact ⟨_, Table.stretch_ofGrids_of_none h⟩

/-- A tree has a single value exactly if the arrays that it reads have no dimensions. -/
theorem exists_result_iff (A : Arithmetic α) {t : Tree α} (ht : t.Built)
    (hcovered : t.IsCovered arrays) :
    (∃ a, t.result A.grids (Table.ofGrids arrays) = .ok a) ↔
      ∀ g ∈ t.arraysRead arrays, g.dims = [] := by
  have h := elementwise_evaluate A ht hcovered
  constructor
  · rintro ⟨a, ha⟩ g hg
    obtain ⟨k, hk, ha⟩ := bind_eq_ok_iff.1 ha
    have hscalar : k.dims = [] := (Grid.toScalar_eq_ok_iff.1 ha).1
    have hstretch := h.covers hk g.dims (List.mem_map_of_mem hg)
    rw [hscalar] at hstretch
    exact stretches_nil_iff.1 hstretch
  · intro hdims
    have hshapes : StretchAll ((t.arraysRead arrays).map Grid.dims) [] := by
      intro d hd
      obtain ⟨g, hg, rfl⟩ := List.mem_map.1 hd
      exact stretches_nil_iff.2 (hdims g hg)
    obtain ⟨g, hg, hstretch⟩ := h.defined hshapes
    refine ⟨g.entry [], ?_⟩
    rw [result, resultOn, hg, ok_bind]
    exact Grid.toScalar_eq_ok_iff.2 ⟨stretches_nil_iff.1 hstretch, rfl⟩

/-- **Evaluation over columns is evaluation element by element**, whatever the operations do to the
elements.

If all columns have common dimensions, used or not, then the expression has those, and each of its
elements is the value of the tree under the elements of the columns there.  If they have none, the
expression is refused.  The tree itself has the common dimensions of the columns that it reads, so
it has a single value exactly if those have no dimensions. -/
theorem evaluation_elementwise (A : Arithmetic α) {t : Tree α} {columns : Arrays α} (ht : t.Built)
    (hcovered : t.IsCovered columns) :
    (∀ D, broadcastAll? columns.shapes = some D →
      ∃ g, t.resultOver A.grids (Table.ofGrids columns) = .ok g ∧ g.dims = D ∧
        ∀ index, IsIndex D index →
          t.result A.grids (Table.ofGrids (columns.slice index)) = .ok (g.entry index)) ∧
    (broadcastAll? columns.shapes = none →
      ∃ fault, t.resultOver A.grids (Table.ofGrids columns) = .error fault) ∧
    (t.resultOn A.grids (Table.ofGrids columns)).toOption.map Grid.dims
      = broadcastAll? ((t.arraysRead columns).map Grid.dims) ∧
    ((∃ a, t.result A.grids (Table.ofGrids columns) = .ok a) ↔
      ∀ g ∈ t.arraysRead columns, g.dims = []) := by
  refine ⟨fun D hD => ?_, exists_resultOver_error A.grids t,
    (elementwise_evaluate A ht hcovered).dims_eq, exists_result_iff A ht hcovered⟩
  obtain ⟨g, hg, hdims, hentry⟩ := exists_resultOver A ht hcovered hD
  refine ⟨g, hg, hdims, fun index hindex => ?_⟩
  rw [result_slice A ht hcovered, hentry index hindex]

end Tree

/-- The arithmetic of integers, with powers of natural numbers and functions that do nothing. -/
def Arithmetic.integers : Arithmetic Int where
  zero := 0
  one := 1
  add := (· + ·)
  sub := (· - ·)
  mul := (· * ·)
  div := (· / ·)
  pow a b := Int.pow a b.toNat
  apply _ a := a

namespace Tree

/-- The sum of a row `x` and a column `y`, less a variable that is stored. -/
def rowAndColumn : Tree Int :=
  .seq .sum [⟨.var (.text "x") none, true⟩, ⟨.var (.text "y") none, true⟩,
    ⟨.var (.text "z") (some 1), false⟩]

/-- A row of three and a column of two. -/
def rowAndColumnArrays : Arrays Int :=
  [("x", ⟨[3], fun index => index.headI⟩), ("y", ⟨[1, 2], fun index => 10 * index.getLastD 0⟩)]

theorem built_rowAndColumn : rowAndColumn.Built := by
  refine built_seq ?_
  simp only [List.forall_mem_cons, List.not_mem_nil, false_imp_iff, implies_true, and_true]
  exact ⟨.var "x" none, .var "y" none, .var "z" (some 1)⟩

/-- In the arithmetic of integers, the array has two rows of three elements. -/
theorem evaluation_rowAndColumn :
    (rowAndColumn.Built ∧ rowAndColumn.IsCovered rowAndColumnArrays) ∧
      ∃ g, rowAndColumn.resultOver Arithmetic.integers.grids (Table.ofGrids rowAndColumnArrays)
          = .ok g ∧
        g.dims = [3, 2] ∧ g.entry [2, 1] = 11 := by
  have hcovered : rowAndColumn.IsCovered rowAndColumnArrays := by decide
  obtain ⟨hover, _⟩ := evaluation_elementwise .integers built_rowAndColumn hcovered
  obtain ⟨g, hg, hdims, hentry⟩ := hover [3, 2] (by decide)
  refine ⟨⟨built_rowAndColumn, hcovered⟩, g, hg, hdims, ?_⟩
  have hvalue := hentry [2, 1] (by simp [IsIndex])
  exact Except.ok.inj (hvalue.symm.trans rfl)

end Tree

end Isolate
