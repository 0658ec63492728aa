import Isolate.Proofs.Outcome
import Isolate.Tree.Build

/-!
# Trees that the constructors build

A tree is `Built` if the checked operations of `Isolate.Tree.Build` put it together from its
leaves.  Assigning to a node directly can leave what they refuse: a plain value in place of a
child, a function without a rule, a name that is no text.

* `Built.parts` says what this means for the parts of a node, and is what every induction over
  built trees uses;
* `clone_of_built` - a built tree is copied exactly, and its copy is never refused.
-/

namespace Isolate.Tree

variable {ν : Type}

/-- The trees that the constructors build: leaves whose names are texts, sequences term by term,
powers, and functions that have a rule. -/
inductive Built : Tree ν → Prop where
  | const (value : ν) : Built (const value)
  | var (name : String) (stored : Option ν) : Built (var (.text name) stored)
  | hole (name : String) : Built (hole (.text name))
  | empty (kind : SeqKind) : Built (seq kind [])
  | addTerm {t term t' : Tree ν} {positive : Bool} :
      Built t → Built term → t.addTerm term positive = .ok t' → Built t'
  | power {base exponent t : Tree ν} :
      Built base → Built exponent → power base exponent = .ok t → Built t
  | apply {id : Datum} {argument t : Tree ν} :
      Built argument → apply id argument = .ok t → Built t

/-! ## The parts of a built tree -/

theorem eq_of_checked {t u : Tree ν} (h : t.checked = .ok u) : u = t := by
  cases t with
  | foreign d => simp [checked] at h
  | _ => simpa [checked] using h.symm

/-- A term is only ever added at the end of a sequence. -/
theorem exists_of_addTerm {t term t' : Tree ν} {positive : Bool}
    (h : t.addTerm term positive = .ok t') :
    ∃ kind terms, t = seq kind terms ∧ t' = seq kind (terms ++ [⟨term, positive⟩]) := by
  cases t with
  | seq kind terms =>
    rw [addTerm, map_eq_ok_iff] at h
    obtain ⟨item, hitem, rfl⟩ := h
    obtain rfl := eq_of_checked hitem
    exact ⟨kind, terms, rfl, rfl⟩
  | _ => simp [addTerm] at h

theorem eq_of_power {base exponent t : Tree ν} (h : power base exponent = .ok t) :
    t = pow base exponent := by
  rw [power, bind_eq_ok_iff] at h
  obtain ⟨b, hb, h⟩ := h
  rw [bind_eq_ok_iff] at h
  obtain ⟨e, he, h⟩ := h
  rw [eq_of_checked hb, eq_of_checked he] at h
  exact (Except.ok.inj h).symm

/-- A function that passes the check has a rule. -/
theorem hasRule_of_check {id : Datum} {f : Builtin} (h : Builtin.check id = .ok f) :
    f.hasRule = true := by
  rw [Builtin.check] at h
  split at h
  · split at h
    · rename_i g _ hg
      obtain rfl : g = f := by simpa using h
      exact hg
    · exact absurd h (by simp)
  · exact absurd h (by simp)

/-- An application is that of a function with a rule. -/
theorem exists_of_apply {id : Datum} {argument t : Tree ν} (h : apply id argument = .ok t) :
    ∃ f : Builtin, f.hasRule = true ∧ t = fn f.code argument := by
  rw [apply, bind_eq_ok_iff] at h
  obtain ⟨f, hf, h⟩ := h
  rw [bind_eq_ok_iff] at h
  obtain ⟨a, ha, h⟩ := h
  rw [eq_of_checked ha] at h
  exact ⟨f, hasRule_of_check hf, (Except.ok.inj h).symm⟩

/-- What is known of the parts of a built node. -/
def HasBuiltParts : Tree ν → Prop
  | const _ => True
  | var name _ => ∃ text, name = .text text
  | hole name => ∃ text, name = .text text
  | seq _ terms => ∀ t ∈ terms, Built t.item
  | pow base exponent => Built base ∧ Built exponent
  | fn id argument => (∃ f : Builtin, f.hasRule = true ∧ f.code = id) ∧ Built argument
  | foreign _ => False

theorem Built.parts {t : Tree ν} (h : Built t) : t.HasBuiltParts := by
  induction h with
  | const value => trivial
  | var name stored => exact ⟨name, rfl⟩
  | hole name => exact ⟨name, rfl⟩
  | empty kind => intro t ht; simp at ht
  | addTerm _ hterm h ih _ =>
    obtain ⟨kind, terms, rfl, rfl⟩ := exists_of_addTerm h
    intro t ht
    rcases List.mem_append.1 ht with ht | ht
    · exact ih t ht
    · obtain rfl := List.mem_singleton.1 ht
      exact hterm
  | power hb he h _ _ =>
    obtain rfl := eq_of_power h
    exact ⟨hb, he⟩
  | apply ha h _ =>
    obtain ⟨f, hf, rfl⟩ := exists_of_apply h
    exact ⟨⟨f, hf, rfl⟩, ha⟩

theorem Built.term {kind : SeqKind} {terms : List (Signed (Tree ν))} (h : Built (seq kind terms))
    {t : Signed (Tree ν)} (ht : t ∈ terms) : Built t.item := h.parts t ht

theorem Built.base {base exponent : Tree ν} (h : Built (pow base exponent)) : Built base :=
  h.parts.1

theorem Built.exponent {base exponent : Tree ν} (h : Built (pow base exponent)) :
    Built exponent := h.parts.2

theorem Built.argument {id : Int} {argument : Tree ν} (h : Built (fn id argument)) :
    Built argument := h.parts.2

theorem Built.children {t : Tree ν} (h : Built t) {c : Tree ν} (hc : c ∈ t.children) :
    Built c := by
  cases t with
  | seq kind terms =>
    obtain ⟨s, hs, rfl⟩ := List.mem_map.1 hc
    exact h.term hs
  | pow base exponent =>
    rcases List.mem_cons.1 hc with rfl | hc
    · exact h.base
    · obtain rfl := List.mem_singleton.1 hc
      exact h.exponent
  | fn id argument =>
    obtain rfl := List.mem_singleton.1 hc
    exact h.argument
  | _ => exact absurd hc List.not_mem_nil

/-- The function of a built application can be evaluated. -/
theorem Built.check {id : Int} {argument : Tree ν} (h : Built (fn id argument)) :
    ∃ f : Builtin, Builtin.check (.int id) = .ok f ∧ f.code = id := by
  obtain ⟨⟨f, hf, rfl⟩, _⟩ := h.parts
  exact ⟨f, Builtin.check_eq_ok_iff.2 ⟨rfl, hf⟩, rfl⟩

/-! ## Copies -/

theorem Built.checked {t : Tree ν} (h : Built t) : t.checked = .ok t := by
  cases t with
  | foreign d => exact h.parts.elim
  | _ => rfl

theorem addTerm_of_checked {kind : SeqKind} {before : List (Signed (Tree ν))}
    {s : Signed (Tree ν)} (h : s.item.checked = .ok s.item) :
    addTerm (seq kind before) s.item s.positive = .ok (seq kind (before ++ [s])) := by
  rw [addTerm, h]
  rfl

/-- A sequence of built terms is built. -/
theorem built_seq {kind : SeqKind} {terms : List (Signed (Tree ν))}
    (h : ∀ t ∈ terms, Built t.item) : Built (seq kind terms) := by
  -- some terms have been added already
  have hrest : ∀ (rest before : List (Signed (Tree ν))), (∀ t ∈ rest, Built t.item) →
      Built (seq kind before) → Built (seq kind (before ++ rest)) := by
    intro rest
    induction rest with
    | nil => intro before _ hbefore; simpa using hbefore
    | cons s rest ih =>
      intro before hrest hbefore
      have hs : Built s.item := hrest s (List.mem_cons_self ..)
      have := ih (before ++ [s]) (fun t ht => hrest t (List.mem_cons_of_mem _ ht))
        (.addTerm hbefore hs (addTerm_of_checked hs.checked))
      simpa using this
  simpa using hrest terms [] h (.empty kind)

theorem built_pow {base exponent : Tree ν} (hb : Built base) (he : Built exponent) :
    Built (pow base exponent) :=
  .power hb he (by simp [power, hb.checked, he.checked])

theorem built_fn {f : Builtin} {argument : Tree ν} (hf : f.hasRule = true) (ha : Built argument) :
    Built (fn f.code argument) := by
  have hcheck : Builtin.check (.int f.code) = .ok f := Builtin.check_eq_ok_iff.2 ⟨rfl, hf⟩
  have happly : apply (.int f.code) argument = .ok (fn f.code argument) := by
    rw [apply, hcheck, ok_bind, ha.checked, ok_bind]
  exact .apply ha happly

/-- Terms that are no plain values make up a sequence. -/
theorem ofTerms_of_checked {kind : SeqKind} {terms : List (Signed (Tree ν))}
    (h : ∀ t ∈ terms, t.item.checked = .ok t.item) : ofTerms kind terms = .ok (seq kind terms) := by
  -- the fold has already added some terms
  have hfold : ∀ (rest before : List (Signed (Tree ν))),
      (∀ t ∈ rest, t.item.checked = .ok t.item) →
      rest.foldlM (fun t s => addTerm t s.item s.positive) (seq kind before)
        = .ok (seq kind (before ++ rest)) := by
    intro rest
    induction rest with
    | nil => intro before _; simp [pure, Except.pure]
    | cons s rest ih =>
      intro before hrest
      rw [List.foldlM_cons, addTerm_of_checked (hrest s (List.mem_cons_self ..)), ok_bind,
        ih _ fun t ht => hrest t (List.mem_cons_of_mem _ ht)]
      simp
  simpa [ofTerms] using hfold terms [] h

theorem cloneTerms_of_clone {terms : List (Signed (Tree ν))}
    (h : ∀ t ∈ terms, t.item.clone = .ok t.item) : cloneTerms terms = .ok terms := by
  induction terms with
  | nil => rfl
  | cons s terms ih =>
    obtain ⟨t, positive⟩ := s
    have ht : t.clone = .ok t := h ⟨t, positive⟩ (List.mem_cons_self ..)
    rw [cloneTerms, ht, ih fun t ht => h t (List.mem_cons_of_mem _ ht)]
    rfl

/-- **A built tree is copied exactly.** -/
theorem clone_of_built {t : Tree ν} (h : Built t) : t.clone = .ok t := by
  induction t with
  | const value => rfl
  | var name stored => rfl
  | hole name => rfl
  | seq kind terms ih =>
    rw [clone, cloneTerms_of_clone fun t ht => ih t ht (h.term ht)]
    exact ofTerms_of_checked fun t ht => (h.term ht).checked
  | pow base exponent ihb ihe =>
    rw [clone, ihb h.base, ihe h.exponent]
    simp [power, h.base.checked, h.exponent.checked]
  | fn id argument ih =>
    obtain ⟨f, hf, rfl⟩ := h.check
    rw [clone, ih h.argument]
    simp [apply, hf, h.argument.checked]
  | foreign d => exact h.parts.elim

end Isolate.Tree
