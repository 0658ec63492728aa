import Isolate.Tree.Binding
import Mathlib.Data.List.Basic

/-!
# Where the variables of a tree stand

`sites` lists the variable leaves of a tree from left to right, each with its stored value and the
kinds of the nodes above it.  A site is *open* with respect to a name if nothing can be said of its
value as long as that name is unknown: it has the name, or no stored value.

* `map_sites` - the sites are the variable leaves of the tree;
* `evaluatesConstant_iff` - a tree evaluates to a constant exactly if no site of it is open;
* `openSites_seq` - the open sites of a sequence are those of its terms, one level further down.
-/

namespace Isolate

/-- A variable leaf, with the kinds of the nodes above it, from the root down. -/
structure Site (ν : Type) where
  name : Name
  stored : Option ν
  above : List Kind

namespace Site

variable {ν : Type}

/-- A site seen from one node further up. -/
def below (kind : Kind) (s : Site ν) : Site ν := { s with above := kind :: s.above }

/-- Whether the value of a site is open as long as a name is unknown. -/
def isOpen (name : String) (s : Site ν) : Bool := s.name.isText name || s.stored.isNone

@[simp] theorem isOpen_below (name : String) (kind : Kind) (s : Site ν) :
    (s.below kind).isOpen name = s.isOpen name := rfl

end Site

namespace Tree

variable {ν : Type}

mutual

/-- The variable leaves of a tree, from left to right. -/
def sites : Tree ν → List (Site ν)
  | var name stored => [⟨name, stored, []⟩]
  | seq kind terms => (sitesOf terms).map (·.below kind.kind)
  | pow base exponent => (sites base ++ sites exponent).map (·.below .pow)
  | fn _ argument => (sites argument).map (·.below .fn)
  | _ => []

/-- The variable leaves of some terms. -/
def sitesOf : List (Signed (Tree ν)) → List (Site ν)
  | [] => []
  | ⟨t, _⟩ :: rest => sites t ++ sitesOf rest

end

/-- The sites of a tree that are open as long as a name is unknown. -/
def openSites (name : String) (t : Tree ν) : List (Site ν) := t.sites.filter (·.isOpen name)

theorem sitesOf_eq (terms : List (Signed (Tree ν))) :
    sitesOf terms = terms.flatMap (·.item.sites) := by
  induction terms with
  | nil => rfl
  | cons t terms ih => rw [sitesOf, ih, List.flatMap_cons]

/-- The sites are the variable leaves. -/
theorem map_sites (t : Tree ν) : t.sites.map (fun s => (s.name, s.stored)) = t.variableLeaves := by
  induction t with
  | seq kind terms ih =>
    have hterms : (terms.flatMap (·.item.sites)).map (fun s => (s.name, s.stored))
        = terms.flatMap (·.item.variableLeaves) := by
      rw [List.map_flatMap]
      exact List.flatMap_congr fun t ht => ih t ht
    rw [sites, List.map_map, sitesOf_eq, variableLeaves_seq, ← hterms]
    rfl
  | pow base exponent ihb ihe =>
    rw [sites, List.map_map, List.map_append, variableLeaves_pow, ← ihb, ← ihe]
    rfl
  | fn id argument ih =>
    rw [sites, List.map_map, variableLeaves_fn, ← ih]
    rfl
  | _ => rfl

/-- A site with nothing above it is the whole tree. -/
theorem eq_var_of_mem_sites {t : Tree ν} {s : Site ν} (h : s ∈ t.sites) (habove : s.above = []) :
    t = var s.name s.stored := by
  have hbelow : ∀ (kind : Kind) (ss : List (Site ν)), s ∉ ss.map (·.below kind) := by
    intro kind ss hs
    obtain ⟨s', _, rfl⟩ := List.mem_map.1 hs
    simp [Site.below] at habove
  cases t with
  | var name stored =>
    obtain rfl := List.mem_singleton.1 h
    rfl
  | seq kind terms => exact absurd h (hbelow _ _)
  | pow base exponent => exact absurd h (hbelow _ _)
  | fn id argument => exact absurd h (hbelow _ _)
  | _ => exact absurd h List.not_mem_nil

/-! ## Open sites -/

theorem filter_map_below (name : String) (kind : Kind) (ss : List (Site ν)) :
    (ss.map (·.below kind)).filter (·.isOpen name)
      = (ss.filter (·.isOpen name)).map (·.below kind) := by
  rw [List.filter_map]
  rfl

theorem openSites_seq (name : String) (kind : SeqKind) (terms : List (Signed (Tree ν))) :
    (seq kind terms).openSites name
      = (terms.flatMap fun t => t.item.openSites name).map (·.below kind.kind) := by
  rw [openSites, sites, filter_map_below, sitesOf_eq, List.filter_flatMap]
  rfl

theorem openSites_pow (name : String) (base exponent : Tree ν) :
    (pow base exponent).openSites name
      = (base.openSites name ++ exponent.openSites name).map (·.below .pow) := by
  rw [openSites, sites, filter_map_below, List.filter_append]
  rfl

theorem openSites_fn (name : String) (id : Int) (argument : Tree ν) :
    (fn id argument).openSites name = (argument.openSites name).map (·.below .fn) := by
  rw [openSites, sites, filter_map_below]
  rfl

/-- **A tree is constant exactly if no site of it is open.** -/
theorem evaluatesConstant_iff {name : String} {t : Tree ν} :
    t.evaluatesConstant [name].contains = true ↔ t.openSites name = [] := by
  induction t with
  | var n stored =>
    cases n with
    | text n => cases stored <;> simp [evaluatesConstant, openSites, sites, Site.isOpen]
    | other d =>
      cases stored <;>
        simp [evaluatesConstant, openSites, sites, Site.isOpen, Name.text?, Name.isText]
  | seq kind terms ih =>
    rw [evaluatesConstant, termsEvaluateConstant_iff, openSites_seq, List.map_eq_nil_iff,
      List.flatMap_eq_nil_iff]
    exact forall₂_congr ih
  | pow base exponent ihb ihe =>
    rw [evaluatesConstant, Bool.and_eq_true, ihb, ihe, openSites_pow, List.map_eq_nil_iff,
      List.append_eq_nil_iff]
  | fn id argument ih => rw [evaluatesConstant, ih, openSites_fn, List.map_eq_nil_iff]
  | _ => simp [evaluatesConstant, openSites, sites]

end Tree

end Isolate
