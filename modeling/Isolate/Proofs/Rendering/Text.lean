import Isolate.Proofs.Outcome
import Isolate.Proofs.Number.Numeral
import Isolate.Proofs.Rendering.Legible
import Mathlib.Data.List.Forall2

/-!
# Texts that can be read back

The text of a leaf holds no brackets.  The text of any other node is a run of groups, each of them
a pair of brackets with something in front that holds no brackets itself: a separator, the sign of a
power or the name of a function.  So where a text ends can be seen from the brackets alone, and what
stands in front of them tells the kind of node and the signs of its terms.

* `IsIdentifier` - names made of letters, digits and underscores;
* `Tree.Alike` - trees that differ only in what a text does not show;
* `Tree.text_eq_iff` - **legible trees have the same text exactly if they are alike**.
-/

namespace Isolate

open Number

/-! ## Identifiers -/

/-- Letters, digits and underscores, a letter first. -/
def IsIdentifier (name : String) : Prop :=
  (∃ c ∈ name.toList.head?, c.isAlpha = true) ∧
    ∀ c ∈ name.toList, c.isAlphanum = true ∨ c = '_'

/-- A round bracket. -/
def isBracket (c : Char) : Bool := c == '(' || c == ')'

theorem isBracket_of_isAlphanum {c : Char} (h : c.isAlphanum = true) : isBracket c = false := by
  rw [isBracket, Bool.or_eq_false_iff, beq_eq_false_iff_ne, beq_eq_false_iff_ne]
  constructor
  · rintro rfl
    exact absurd h (by decide)
  · rintro rfl
    exact absurd h (by decide)

theorem IsIdentifier.not_isBracket {name : String} (h : IsIdentifier name) :
    ∀ c ∈ name.toList, isBracket c = false := by
  intro c hc
  rcases h.2 c hc with halnum | rfl
  · exact isBracket_of_isAlphanum halnum
  · rfl

theorem not_isBracket_of_isNumeralChar {c : Char} (h : isNumeralChar c = true) :
    isBracket c = false := by
  rw [isBracket, Bool.or_eq_false_iff, beq_eq_false_iff_ne, beq_eq_false_iff_ne]
  constructor
  · rintro rfl
    exact absurd h (by decide)
  · rintro rfl
    exact absurd h (by decide)

theorem not_isBracket_constant {x : Float} (hx : Binary64.isFinite x = true) :
    ∀ c ∈ (constant x).toList, isBracket c = false := by
  obtain ⟨negative, cs, htext, -, hcs⟩ := exists_constant hx
  rw [htext]
  refine List.forall_mem_append.2 ⟨?_, fun c hc => not_isBracket_of_isNumeralChar (hcs c hc)⟩
  cases negative <;> simp [sign, isBracket]

/-- No constant is written like an identifier. -/
theorem constant_ne_identifier {x : Float} {name : String} (hx : Binary64.isFinite x = true)
    (hname : IsIdentifier name) : constant x ≠ name := by
  rintro rfl
  obtain ⟨c, rest, htext, hc⟩ := exists_head_constant hx
  obtain ⟨d, hd, hletter⟩ := hname.1
  obtain rfl : c = d := by simpa [htext] using hd
  exact absurd hletter (by simp [hc])

namespace Tree

variable {t u : Tree Float}

/-! ## Alike trees -/

/-- Trees that differ in stored values, in whether a leaf is a variable or a placeholder, in the
sign of a zero, and in whether a single positive term is a sum or a product. -/
inductive Alike : Tree Float → Tree Float → Prop
  | const (x : Float) : Alike (.const x) (.const x)
  | zero {x y : Float} (hx : Binary64.rational? x = some 0) (hy : Binary64.rational? y = some 0) :
      Alike (.const x) (.const y)
  | named {t u : Tree Float} {name : Name} (ht : Named t name) (hu : Named u name) : Alike t u
  | seq {kind : SeqKind} {ts us : List (Signed (Tree Float))}
      (hsigns : ts.map (·.positive) = us.map (·.positive))
      (hitems : ∀ t u, (t, u) ∈ ts.zip us → Alike t.item u.item) :
      Alike (.seq kind ts) (.seq kind us)
  | single {kind kind' : SeqKind} {t u : Tree Float} (h : Alike t u) :
      Alike (.seq kind [⟨t, true⟩]) (.seq kind' [⟨u, true⟩])
  | pow {b b' e e' : Tree Float} (hb : Alike b b') (he : Alike e e') : Alike (.pow b e) (.pow b' e')
  | fn (id : Int) {a a' : Tree Float} (ha : Alike a a') : Alike (.fn id a) (.fn id a')

/-! ## Leaves and groups -/

/-- What stands in front of the brackets of a term; `first` tells whether it is the first term. -/
def front (kind : SeqKind) (first positive : Bool) : List Char :=
  (if first && positive then "" else kind.separator positive).toList

/-- The groups of the terms of a sequence; `first` tells whether the first term of the list is the
first of the sequence. -/
def termGroups (kind : SeqKind) (first : Bool) :
    List (Signed (Tree Float)) → List (List Char × Tree Float)
  | [] => []
  | ⟨t, positive⟩ :: rest => (front kind first positive, t) :: termGroups kind false rest

/-- What stands in front of each pair of brackets of a node, and what stands between them. -/
def groups : Tree Float → List (List Char × Tree Float)
  | seq kind terms => termGroups kind true terms
  | pow base exponent => [([], base), (['^'], exponent)]
  | fn id argument => (Builtin.ofCode? id).toList.map fun f => (f.name.toList, argument)
  | _ => []

/-- Groups written out one after the other. -/
inductive Written : List (List Char × Tree Float) → List Char → Prop
  | nil : Written [] []
  | cons (front : List Char) {cs : List Char} {t : Tree Float} {s : String}
      {rest : List (List Char × Tree Float)} (ht : t.text = .ok s)
      (hrest : Written rest cs) :
      Written ((front, t) :: rest) (front ++ '(' :: (s.toList ++ ')' :: cs))

/-- What is found in the text of a legible tree: no brackets, or groups. -/
inductive Shape (t : Tree Float) (cs : List Char) : Prop
  | leaf (hleaf : t.children = []) (hcs : ∀ c ∈ cs, isBracket c = false)
  | node (hne : t.groups ≠ []) (hwritten : Written t.groups cs)
      (hfront : ∀ g ∈ t.groups, ∀ c ∈ g.1, isBracket c = false)

theorem Named.text {name : String} (h : t.Named (.text name)) :
    t.text = .ok name := by
  cases h <;> rfl

theorem Named.groups {name : Name} (h : t.Named name) : t.groups = [] := by
  cases h <;> rfl

theorem operandText_of_legible (h : t.Legible IsIdentifier) (text : Except Fault String) :
    t.operandText text = text := by
  rw [operandText, h.oddName?]

theorem written_terms {kind : SeqKind} {terms : List (Signed (Tree Float))} :
    ∀ {first : Bool} {s : String}, termsText kind first terms = .ok s →
      Written (termGroups kind first terms) s.toList := by
  induction terms with
  | nil =>
    intro first s h
    obtain rfl := Except.ok.inj h
    exact .nil
  | cons t rest ih =>
    intro first s h
    simp only [termsText, bind_eq_ok_iff, Except.ok.injEq] at h
    obtain ⟨a, ha, others, hothers, rfl⟩ := h
    simpa [termGroups, front] using Written.cons (front kind first t.positive) ha (ih hothers)

theorem not_isBracket_of_any {cs : List Char} (h : cs.any isBracket = false) :
    ∀ c ∈ cs, isBracket c = false :=
  fun c hc => Bool.eq_false_of_not_eq_true (List.any_eq_false.1 h c hc)

theorem not_isBracket_front (kind : SeqKind) (first positive : Bool) :
    ∀ c ∈ front kind first positive, isBracket c = false := by
  refine not_isBracket_of_any ?_
  cases kind <;> cases first <;> cases positive <;> decide

theorem not_isBracket_termGroups (kind : SeqKind) (terms : List (Signed (Tree Float))) :
    ∀ first, ∀ g ∈ termGroups kind first terms, ∀ c ∈ g.1, isBracket c = false := by
  induction terms with
  | nil => simp [termGroups]
  | cons t rest ih =>
    intro first
    exact List.forall_mem_cons.2 ⟨not_isBracket_front kind first t.positive, ih false⟩

theorem not_isBracket_name (f : Builtin) : ∀ c ∈ f.name.toList, isBracket c = false := by
  refine not_isBracket_of_any ?_
  cases f <;> decide

/-- **The text of a legible tree is a leaf's or is made of groups.** -/
theorem Legible.shape (h : t.Legible IsIdentifier) {s : String} (hs : t.text = .ok s) :
    Shape t s.toList := by
  cases h with
  | const hx =>
    obtain rfl := Except.ok.inj hs
    exact .leaf rfl (not_isBracket_constant hx)
  | named hname ht =>
    obtain rfl := Except.ok.inj (ht.text.symm.trans hs)
    exact .leaf (by cases ht <;> rfl) hname.not_isBracket
  | @seq kind terms hne _ =>
    refine .node ?_ (written_terms hs) (not_isBracket_termGroups kind terms true)
    cases terms with
    | nil => exact absurd rfl hne
    | cons t rest => exact List.cons_ne_nil _ _
  | @pow base exponent hb he =>
    simp only [text, operandText_of_legible hb, operandText_of_legible he, bind_eq_ok_iff,
      Except.ok.injEq] at hs
    obtain ⟨b, hbase, e, hexponent, rfl⟩ := hs
    refine .node (List.cons_ne_nil _ _) ?_ (by simp [groups, isBracket])
    have hwritten := Written.cons [] hbase (Written.cons ['^'] hexponent .nil)
    simpa [groups] using hwritten
  | @fn id argument ha =>
    simp only [text, operandText_of_legible ha, bind_eq_ok_iff, Except.ok.injEq] at hs
    obtain ⟨f, hf, a, hargument, rfl⟩ := hs
    have hcode := Builtin.ofCode?_of_coded hf
    refine .node (by simp [groups, hcode]) ?_ (by simpa [groups, hcode] using not_isBracket_name f)
    have hwritten := Written.cons f.name.toList hargument .nil
    simpa [groups, hcode] using hwritten

/-! ## Where a text ends -/

/-- Nothing, or a closing bracket and what follows it. -/
def Closes (rest : List Char) : Prop := ∀ c ∈ rest.head?, c = ')'

theorem closes_nil : Closes [] := by simp [Closes]

theorem closes_cons (rest : List Char) : Closes (')' :: rest) := by simp [Closes]

/-- The trees whose text, up to where it is closed, is that of no tree that is not alike. -/
def Unambiguous (t : Tree Float) : Prop :=
  ∀ (u : Tree Float) (s s' : String) (rest rest' : List Char), u.Legible IsIdentifier →
    t.text = .ok s → u.text = .ok s' → Closes rest → Closes rest' →
      s.toList ++ rest = s'.toList ++ rest' → Alike t u ∧ rest = rest'

/-- What stands in front of a bracket can be told from what follows. -/
theorem eq_of_front {cs cs' rest rest' : List Char} (hcs : ∀ c ∈ cs, isBracket c = false)
    (hcs' : ∀ c ∈ cs', isBracket c = false) (hrest : ∀ c ∈ rest.head?, isBracket c = true)
    (hrest' : ∀ c ∈ rest'.head?, isBracket c = true) (h : cs ++ rest = cs' ++ rest') :
    cs = cs' ∧ rest = rest' := by
  have hspan := span_append (p := fun c => !isBracket c) rest (by simpa using hcs)
    (by simpa using hrest)
  have hspan' := span_append (p := fun c => !isBracket c) rest' (by simpa using hcs')
    (by simpa using hrest')
  rw [h] at hspan
  exact ⟨hspan.1.symm.trans hspan'.1, hspan.2.symm.trans hspan'.2⟩

theorem Closes.isBracket {rest : List Char} (h : Closes rest) :
    ∀ c ∈ rest.head?, isBracket c = true := by
  intro c hc
  rw [h c hc]
  rfl

/-- Where the groups of one node end, those of the other do. -/
theorem not_closes_of_front {front front' : List Char} {cs rest : List Char}
    (hfront : ∀ c ∈ front, isBracket c = false) (hrest : Closes rest)
    (hfront' : ∀ c ∈ front', isBracket c = false)
    (h : front ++ '(' :: cs = front' ++ rest) : False := by
  obtain ⟨-, hsame⟩ := eq_of_front hfront hfront' (by simp [isBracket]) hrest.isBracket h
  exact absurd (hrest '(' (by rw [← hsame]; rfl)) (by decide)

/-- **Groups are read one by one**: with the same things in front, and alike trees in them. -/
theorem alike_of_written {gs : List (List Char × Tree Float)}
    (hgs : ∀ g ∈ gs, Unambiguous g.2 ∧ ∀ c ∈ g.1, isBracket c = false) :
    ∀ {gs' : List (List Char × Tree Float)} {cs cs' rest rest' : List Char},
      (∀ g ∈ gs', g.2.Legible IsIdentifier ∧ ∀ c ∈ g.1, isBracket c = false) →
      Written gs cs → Written gs' cs' → Closes rest → Closes rest' → cs ++ rest = cs' ++ rest' →
        gs.map Prod.fst = gs'.map Prod.fst ∧
          List.Forall₂ Alike (gs.map Prod.snd) (gs'.map Prod.snd) ∧ rest = rest' := by
  induction gs with
  | nil =>
    intro gs' cs cs' rest rest' hgs' hw hw' hrest hrest' h
    cases hw
    cases hw' with
    | nil => exact ⟨rfl, .nil, h⟩
    | cons front ht hgroups =>
      rw [List.append_assoc, List.cons_append] at h
      exact (not_closes_of_front (hgs' _ List.mem_cons_self).2 hrest (by simp) h.symm).elim
  | cons g gs ih =>
    intro gs' cs cs' rest rest' hgs' hw hw' hrest hrest' h
    obtain ⟨hg, htail⟩ := List.forall_mem_cons.1 hgs
    cases hw with
    | @cons front cs t s _ ht hgroups =>
      cases hw' with
      | nil =>
        rw [List.append_assoc, List.cons_append] at h
        exact (not_closes_of_front hg.2 hrest' (by simp) h).elim
      | @cons front' cs' u s' _ hu hgroups' =>
        obtain ⟨hg', htail'⟩ := List.forall_mem_cons.1 hgs'
        rw [List.append_assoc, List.append_assoc] at h
        obtain ⟨rfl, hafter⟩ := eq_of_front hg.2 hg'.2 (by simp [isBracket]) (by simp [isBracket]) h
        simp only [List.cons_append, List.cons.injEq, true_and, List.append_assoc] at hafter
        obtain ⟨halike, hclosed⟩ :=
          hg.1 u s s' _ _ hg'.1 ht hu (closes_cons _) (closes_cons _) hafter
        obtain ⟨hfronts, hall, hend⟩ :=
          ih htail htail' hgroups hgroups' hrest hrest' (List.cons.inj hclosed).2
        exact ⟨congrArg (front :: ·) hfronts, .cons halike hall, hend⟩

/-! ## Which node a text belongs to -/

/-- Leaves with the same text are alike. -/
theorem alike_of_leaves (ht : t.Legible IsIdentifier) (hu : u.Legible IsIdentifier)
    (hleaf : t.children = []) (hleaf' : u.children = []) (h : t.text = u.text) : Alike t u := by
  rcases ht.leaf hleaf with ⟨x, hx, rfl⟩ | ⟨name, hname, hnamed⟩
  · rcases hu.leaf hleaf' with ⟨y, hy, rfl⟩ | ⟨name, hname, hnamed⟩
    · have hsame := (constant_eq_iff hx hy).1 (Except.ok.inj h)
      obtain ⟨q, hq⟩ := Binary64.isSome_rational?_of_isFinite hx
      have hq' := hsame.symm.trans hq
      by_cases hzero : q = 0
      · subst hzero
        exact .zero hq hq'
      · obtain rfl := Binary64.eq_of_rational? hq hq' hzero
        exact .const x
    · rw [hnamed.text] at h
      exact absurd (Except.ok.inj h) (constant_ne_identifier hx hname)
  · rcases hu.leaf hleaf' with ⟨y, hy, rfl⟩ | ⟨name', hname', hnamed'⟩
    · rw [hnamed.text] at h
      exact absurd (Except.ok.inj h).symm (constant_ne_identifier hy hname)
    · rw [hnamed.text, hnamed'.text] at h
      obtain rfl := Except.ok.inj h
      exact .named hnamed hnamed'

theorem front_inj {kind kind' : SeqKind} {p q : Bool}
    (h : front kind false p = front kind' false q) :
    kind = kind' ∧ p = q := by
  cases kind <;> cases kind' <;> cases p <;> cases q <;> simp_all [front, SeqKind.separator]

/-- A first term with a positive sign does not tell the kind. -/
theorem front_first_inj {kind kind' : SeqKind} {p q : Bool}
    (h : front kind true p = front kind' true q) : p = q ∧ (kind = kind' ∨ p = true) := by
  cases kind <;> cases kind' <;> cases p <;> cases q <;> simp_all [front, SeqKind.separator]

theorem map_fst_termGroups (kind : SeqKind) (ts : List (Signed (Tree Float))) :
    (termGroups kind false ts).map Prod.fst = ts.map fun t => front kind false t.positive := by
  induction ts with
  | nil => rfl
  | cons t ts ih => rw [termGroups, List.map_cons, ih, List.map_cons]

theorem map_snd_termGroups (kind : SeqKind) (ts : List (Signed (Tree Float))) :
    ∀ first, (termGroups kind first ts).map Prod.snd = ts.map (·.item) := by
  induction ts with
  | nil => intro first; rfl
  | cons t ts ih => intro first; rw [termGroups, List.map_cons, ih, List.map_cons]

theorem signs_of_fronts {kind kind' : SeqKind} {ts us : List (Signed (Tree Float))}
    (h : ts.map (fun t => front kind false t.positive)
      = us.map fun u => front kind' false u.positive) :
    ts.map (·.positive) = us.map (·.positive) ∧ (kind = kind' ∨ ts = []) := by
  induction ts generalizing us with
  | nil =>
    have hus : us = [] := by simpa using h.symm
    subst hus
    exact ⟨rfl, .inr rfl⟩
  | cons t ts ih =>
    cases us with
    | nil => exact absurd h (by simp)
    | cons u us =>
      obtain ⟨hfirst, hrest⟩ := List.cons.inj h
      obtain ⟨hkind, hsign⟩ := front_inj hfirst
      exact ⟨by rw [List.map_cons, List.map_cons, hsign, (ih hrest).1], .inl hkind⟩

/-- Sequences with the same things in front of their terms, and alike terms, are alike. -/
theorem alike_seq {kind kind' : SeqKind} {ts us : List (Signed (Tree Float))}
    (hfronts : (termGroups kind true ts).map Prod.fst = (termGroups kind' true us).map Prod.fst)
    (hne : ts ≠ []) (hitems : List.Forall₂ Alike (ts.map (·.item)) (us.map (·.item))) :
    Alike (seq kind ts) (seq kind' us) := by
  rw [List.forall₂_map_left_iff, List.forall₂_map_right_iff] at hitems
  match ts, us, hne with
  | t :: ts, [], _ => cases hitems
  | t :: ts, u :: us, _ =>
    simp only [termGroups, List.map_cons, List.cons.injEq, map_fst_termGroups] at hfronts
    obtain ⟨hsign, hkind⟩ := front_first_inj hfronts.1
    obtain ⟨hsigns, hkind'⟩ := signs_of_fronts hfronts.2
    by_cases hsame : kind = kind'
    · subst hsame
      refine .seq (by rw [List.map_cons, List.map_cons, hsign, hsigns]) fun _ _ hmem => ?_
      exact (List.forall₂_iff_zip.1 hitems).2 hmem
    · -- one term, with a positive sign
      have hpositive := hkind.resolve_left hsame
      obtain rfl := hkind'.resolve_left hsame
      obtain rfl : us = [] := by simpa using hsigns.symm
      obtain ⟨t, p⟩ := t
      obtain ⟨u, q⟩ := u
      obtain rfl : p = true := hpositive
      obtain rfl : true = q := hsign
      cases hitems with
      | cons h _ => exact .single h

theorem name_ne_front (f : Builtin) (kind : SeqKind) (positive : Bool) :
    f.name.toList ≠ front kind true positive := by
  cases f <;> cases kind <;> cases positive <;> decide

theorem name_inj {f g : Builtin} (h : f.name = g.name) : f = g := by
  have hfound : ∀ f : Builtin, Builtin.all.find? (·.name == f.name) = some f := by
    intro f
    cases f <;> decide
  have hf := hfound f
  rw [h, hfound g] at hf
  exact (Option.some.inj hf).symm

/-- The groups of an application, if there are any, show the name of the function. -/
theorem exists_groups_fn {id : Int} {argument : Tree Float} (hne : (fn id argument).groups ≠ []) :
    ∃ f : Builtin, f.code = id ∧ (fn id argument).groups = [(f.name.toList, argument)] := by
  cases hf : Builtin.ofCode? id with
  | none => exact absurd (by simp [groups, hf]) hne
  | some f => exact ⟨f, Builtin.code_of_ofCode? hf, by simp [groups, hf]⟩

/-- What stands in front of a single bracket of a sequence is not the name of a function. -/
theorem fronts_ne_name (kind : SeqKind) (ts : List (Signed (Tree Float))) (f : Builtin) :
    (termGroups kind true ts).map Prod.fst ≠ [f.name.toList] := by
  cases ts with
  | nil => simp [termGroups]
  | cons t ts =>
    rw [termGroups, List.map_cons, Ne, List.cons.injEq, not_and_or]
    exact .inl (name_ne_front f kind t.positive).symm

/-- What stands between two brackets of a sequence is not the sign of a power. -/
theorem fronts_ne_pow (kind : SeqKind) (ts : List (Signed (Tree Float))) :
    (termGroups kind true ts).map Prod.fst ≠ [[], ['^']] := by
  match ts with
  | [] => simp [termGroups]
  | [t] => simp [termGroups]
  | t :: u :: ts =>
    simp only [termGroups, List.map_cons, Ne, List.cons.injEq, not_and_or]
    refine .inr (.inl ?_)
    cases kind <;> cases u.positive <;> decide

/-- **Nodes with the same things in front of their brackets, and alike children, are alike.** -/
theorem alike_of_groups (ht : t.Legible IsIdentifier) (hu : u.Legible IsIdentifier)
    (hne : t.groups ≠ []) (hne' : u.groups ≠ [])
    (hfronts : t.groups.map Prod.fst = u.groups.map Prod.fst)
    (hitems : List.Forall₂ Alike (t.groups.map Prod.snd) (u.groups.map Prod.snd)) : Alike t u := by
  cases ht with
  | @seq kind ts hts _ =>
    cases hu with
    | @seq kind' us _ _ =>
      rw [groups, groups, map_snd_termGroups, map_snd_termGroups] at hitems
      exact alike_seq hfronts hts hitems
    | pow _ _ => exact absurd hfronts (fronts_ne_pow kind ts)
    | fn _ =>
      obtain ⟨f, -, hf⟩ := exists_groups_fn hne'
      rw [hf] at hfronts
      exact absurd hfronts (fronts_ne_name kind ts f)
    | const _ => exact absurd rfl hne'
    | named _ h => exact absurd h.groups hne'
  | pow _ _ =>
    cases hu with
    | @seq kind us _ _ => exact absurd hfronts.symm (fronts_ne_pow kind us)
    | pow _ _ =>
      cases hitems with
      | cons hb hrest =>
        cases hrest with
        | cons he _ => exact .pow hb he
    | fn _ =>
      obtain ⟨f, -, hf⟩ := exists_groups_fn hne'
      rw [hf] at hfronts
      exact absurd (List.cons.inj hfronts).2 (List.cons_ne_nil _ _)
    | const _ => exact absurd rfl hne'
    | named _ h => exact absurd h.groups hne'
  | @fn id _ _ =>
    obtain ⟨f, rfl, hf⟩ := exists_groups_fn hne
    rw [hf] at hfronts hitems
    cases hu with
    | @seq kind us _ _ => exact absurd hfronts.symm (fronts_ne_name kind us f)
    | pow _ _ => simp [groups] at hfronts
    | fn _ =>
      obtain ⟨g, rfl, hg⟩ := exists_groups_fn hne'
      rw [hg] at hfronts hitems
      obtain rfl : f = g := name_inj (String.toList_inj.1 (List.cons.inj hfronts).1)
      cases hitems with
      | cons h _ => exact .fn _ h
    | const _ => exact absurd rfl hne'
    | named _ h => exact absurd h.groups hne'
  | const _ => exact absurd rfl hne
  | named _ h => exact absurd h.groups hne

/-! ## Reading a text -/

/-- A text with groups is not one without brackets. -/
theorem not_plain_of_written {gs : List (List Char × Tree Float)} {cs cs' rest rest' : List Char}
    (hne : gs ≠ []) (hgs : ∀ g ∈ gs, ∀ c ∈ g.1, isBracket c = false) (hw : Written gs cs)
    (hcs' : ∀ c ∈ cs', isBracket c = false) (hrest' : Closes rest') :
    cs ++ rest ≠ cs' ++ rest' := by
  intro h
  cases hw with
  | nil => exact hne rfl
  | cons front _ _ =>
    rw [List.append_assoc, List.cons_append] at h
    exact not_closes_of_front (hgs _ List.mem_cons_self) hrest' hcs' h

theorem snd_mem_children {g : List Char × Tree Float} (hg : g ∈ t.groups) :
    g.2 ∈ t.children := by
  have hmem : g.2 ∈ t.groups.map Prod.snd := List.mem_map_of_mem hg
  cases t with
  | seq kind ts =>
    rw [groups, map_snd_termGroups] at hmem
    exact hmem
  | pow b e => exact hmem
  | fn id a =>
    obtain ⟨f, -, hf⟩ := exists_groups_fn (List.ne_nil_of_mem hg)
    rw [hf] at hmem
    exact hmem
  | _ => exact absurd hg List.not_mem_nil

/-- A node whose children can be read can be read. -/
theorem unambiguous_of_groups (ht : t.Legible IsIdentifier)
    (ih : ∀ g ∈ t.groups, Unambiguous g.2) : Unambiguous t := by
  intro u s s' rest rest' hu hs hs' hrest hrest' h
  cases ht.shape hs with
  | leaf hleaf hplain =>
    cases hu.shape hs' with
    | leaf hleaf' hplain' =>
      obtain ⟨hsame, hend⟩ := eq_of_front hplain hplain' hrest.isBracket hrest'.isBracket h
      exact ⟨alike_of_leaves ht hu hleaf hleaf' (by rw [hs, hs', String.toList_inj.1 hsame]), hend⟩
    | node hne' hwritten' hfront' =>
      exact absurd h.symm (not_plain_of_written hne' hfront' hwritten' hplain hrest)
  | node hne hwritten hfront =>
    cases hu.shape hs' with
    | leaf _ hplain' => exact absurd h (not_plain_of_written hne hfront hwritten hplain' hrest')
    | node hne' hwritten' hfront' =>
      obtain ⟨hfronts, hitems, hend⟩ :=
        alike_of_written (fun g hg => ⟨ih g hg, hfront g hg⟩)
          (fun g hg => ⟨hu.of_mem_children (snd_mem_children hg), hfront' g hg⟩) hwritten hwritten'
          hrest hrest' h
      exact ⟨alike_of_groups ht hu hne hne' hfronts hitems, hend⟩

theorem Legible.unambiguous (h : t.Legible IsIdentifier) : Unambiguous t := by
  induction t using induction_children with
  | node t ih =>
    refine unambiguous_of_groups h fun g hg => ?_
    have hc := snd_mem_children hg
    exact ih g.2 hc (h.of_mem_children hc)

/-! ## What a text does not show -/

theorem Alike.oddName? (h : Alike t u) : t.oddName? = u.oddName? := by
  cases h with
  | @named _ _ name ht hu => cases name <;> cases ht <;> cases hu <;> rfl
  | _ => rfl

theorem termsText_eq {kind : SeqKind} {ts us : List (Signed (Tree Float))}
    (hsigns : ts.map (·.positive) = us.map (·.positive))
    (hitems : ∀ t u, (t, u) ∈ ts.zip us → t.item.text = u.item.text) :
    ∀ first, termsText kind first ts = termsText kind first us := by
  induction ts generalizing us with
  | nil =>
    intro first
    have hus : us = [] := by simpa using hsigns.symm
    rw [hus]
  | cons t ts ih =>
    intro first
    cases us with
    | nil => exact absurd hsigns (by simp)
    | cons u us =>
      obtain ⟨hsign, hrest⟩ := List.cons.inj hsigns
      have htext : t.item.text = u.item.text := hitems t u List.mem_cons_self
      have hmore := ih hrest fun t' u' hmem => hitems t' u' (List.mem_cons_of_mem _ hmem)
      simp only [termsText, hsign, htext, hmore]

/-- **Alike trees have the same text.** -/
theorem Alike.text_eq (h : Alike t u) : t.text = u.text := by
  induction h with
  | const x => rfl
  | zero hx hy =>
    have hzero : ∀ z : Float, Binary64.rational? z = some 0 → constant z = Int.repr 0 :=
      fun z hz => constant_of_integer? (Binary64.integer?_eq_some_iff.2 (by simpa using hz))
    rw [text, text, hzero _ hx, hzero _ hy]
  | named ht hu => cases ht <;> cases hu <;> rfl
  | seq hsigns _ ih =>
    rw [text, text]
    exact termsText_eq hsigns ih true
  | single _ ih => simp only [text, termsText, ih, Bool.and_self, if_true]
  | pow hb he ihb ihe => simp only [text, operandText, hb.oddName?, he.oddName?, ihb, ihe]
  | fn id ha ih => simp only [text, operandText, ha.oddName?, ih]

/-- **Texts are unambiguous**: legible trees that have a text have the same one exactly if they are
alike. -/
theorem text_eq_iff {s s' : String} (ht : t.Legible IsIdentifier) (hu : u.Legible IsIdentifier)
    (hs : t.text = .ok s) (hs' : u.text = .ok s') : s = s' ↔ Alike t u := by
  constructor
  · rintro rfl
    exact (ht.unambiguous u s s [] [] hu hs hs' closes_nil closes_nil rfl).1
  · intro h
    have htext := h.text_eq
    rw [hs, hs'] at htext
    exact Except.ok.inj htext

theorem isIdentifier_x : IsIdentifier "x" := by
  refine ⟨⟨'x', rfl, by decide⟩, fun c hc => ?_⟩
  obtain rfl : c = 'x' := by simpa using hc
  exact .inl rfl

/-- A sum of one variable with a value and a product of one placeholder of the same name. -/
theorem text_eq_iff_single :
    (seq .sum [⟨.var (.text "x") (some 1), true⟩]).Legible IsIdentifier ∧
      (seq .product [⟨.hole (.text "x"), true⟩]).Legible IsIdentifier ∧
      (("(x)" : String) = "(x)" ↔ Alike (seq .sum [⟨.var (.text "x") (some 1), true⟩])
        (seq .product [⟨.hole (.text "x"), true⟩])) := by
  have ht : (seq .sum [⟨.var (.text "x") (some 1), true⟩]).Legible IsIdentifier :=
    .seq (by simp) (by simpa using Legible.named isIdentifier_x (.var ..))
  have hu : (seq .product [⟨.hole (.text "x"), true⟩]).Legible IsIdentifier :=
    .seq (by simp) (by simpa using Legible.named isIdentifier_x (.hole _))
  exact ⟨ht, hu, text_eq_iff ht hu (by rfl) (by rfl)⟩

end Tree
end Isolate
