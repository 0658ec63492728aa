import Isolate.Proofs.Outcome
import Isolate.Proofs.Rendering.Formula
import Isolate.Proofs.Rendering.Legible
import Isolate.Tree.Latex

/-!
# LaTeX and the value of a tree

What a tree is written as in LaTeX is a formula that denotes the value of the tree: brackets are
left out only where the grammar of formulas puts things together the same way.  A sum that stands
first in a sum loses its brackets because sums are associative; nested products stand side by side
because products are; and divisors are gathered because to divide by several things is to divide by
their product.

* `Tree.latex_denotes` - the formula of a tree denotes the value of the tree;
* `Tree.symbolValue?_eq_of_latex_eq` - **trees with the same formula have the same value**.
-/

namespace Isolate

open Formula

/-! ## Formulas put together -/

namespace Formula.Denotes

variable {R : Reading Float} {ρ : String → ℚ} {cs ds : List Char} {v w : Option ℚ}

/-- Rows side by side are multiplied. -/
theorem append_row (h : Denotes R ρ .row cs v) (h' : Denotes R ρ .row ds w) :
    Denotes R ρ .row (cs ++ ds) (Partial.mul v w) := by
  generalize hl : Level.row = l at h
  induction h with
  | single h => exact .beside h h'
  | beside h _ _ ih =>
    rw [List.append_assoc, Partial.mul_assoc]
    exact .beside h (ih hl)
  | _ => cases hl

/-- Terms after terms are added up. -/
theorem append_tail (h : Denotes R ρ .tail cs v) (h' : Denotes R ρ .tail ds w) :
    Denotes R ρ .tail (cs ++ ds) (Partial.add v w) := by
  generalize hl : Level.tail = l at h
  induction h with
  | finish => rwa [List.nil_append, Partial.zero_add]
  | term positive h _ _ ih =>
    rw [List.cons_append, List.append_assoc, Partial.add_assoc]
    exact .term positive h (ih hl)
  | _ => cases hl

/-- A line goes on with more terms. -/
theorem append_line (h : Denotes R ρ .line cs v) (h' : Denotes R ρ .tail ds w) :
    Denotes R ρ .line (cs ++ ds) (Partial.add v w) := by
  cases h with
  | first h hrest =>
    rw [List.append_assoc, Partial.add_assoc]
    exact .first h (hrest.append_tail h')
  | negative h hrest =>
    rw [List.cons_append, List.append_assoc, Partial.add_assoc]
    exact .negative h (hrest.append_tail h')

/-- A row alone is a line. -/
theorem line_of_row (h : Denotes R ρ .row cs v) : Denotes R ρ .line cs v := by
  have hline := Denotes.first h .finish
  rwa [List.append_nil, Partial.add_zero] at hline

theorem ne_nil (h : Denotes R ρ .row cs v) : cs ≠ [] := by
  obtain ⟨c, rest, rfl, -⟩ := h.begins_row
  exact List.cons_ne_nil c rest

end Formula.Denotes

/-! ## Trees -/

/-- Names of one letter. -/
def IsLetter (name : String) : Prop := ∃ c : Char, c.isAlpha = true ∧ name = String.ofList [c]

namespace Tree

variable {R : Reading Float} {ρ : String → ℚ} {t : Tree Float}

theorem followed_of_legible {α : Type} {IsName : String → Prop} (h : t.Legible IsName)
    (written : Except Fault String) (next : Except Fault α) :
    t.followed written next = written >>= fun s => next >>= fun a => .ok (s, a) := by
  rw [followed, h.oddName?]
  rfl

variable (R ρ) in
/-- A formula denotes the value of a tree: as a line, and unless the tree is a sum, as a row. -/
structure Shows (t : Tree Float) (cs : List Char) : Prop where
  line : Denotes R ρ .line cs (t.symbolValue? R ρ)
  row : t.isSum = false → Denotes R ρ .row cs (t.symbolValue? R ρ)

theorem Shows.of_row {cs : List Char} (h : Denotes R ρ .row cs (t.symbolValue? R ρ)) :
    Shows R ρ t cs :=
  ⟨h.line_of_row, fun _ => h⟩

/-- With brackets around a sum every tree is shown as a row. -/
theorem Shows.bracketed {s : String} (h : Shows R ρ t s.toList) :
    Denotes R ρ .row (bracketed t.isSum s).toList (t.symbolValue? R ρ) := by
  cases hsum : t.isSum with
  | false => exact h.row hsum
  | true =>
    have hframe := Denotes.single (.frame .brackets h.line)
    simpa [Tree.bracketed, Frame.opening, Frame.closing, Frame.value] using hframe

/-- The terms of a sum after the first. -/
theorem denotes_tail {ts : List (Signed (Tree Float))} {IsName : String → Prop}
    (hts : ∀ t ∈ ts, t.item.Legible IsName)
    (ih : ∀ t ∈ ts, ∀ s, t.item.latex = .ok s → Shows R ρ t.item s.toList) :
    ∀ {s : String}, sumLatex false ts = .ok s →
      Denotes R ρ .tail s.toList ((seq .sum ts).symbolValue? R ρ) := by
  induction ts with
  | nil =>
    intro s hs
    obtain rfl := Except.ok.inj hs
    exact .finish
  | cons t ts iht =>
    intro s hs
    obtain ⟨ht, hmore⟩ := List.forall_mem_cons.1 hts
    obtain ⟨iht', ihmore⟩ := List.forall_mem_cons.1 ih
    simp only [sumLatex, followed_of_legible ht, bind_eq_ok_iff, Except.ok.injEq] at hs
    obtain ⟨_, ⟨a, ha, others, hothers, rfl⟩, rfl⟩ := hs
    rw [symbolValue?_sum_cons]
    have hterm := Denotes.term t.positive (iht' a ha).bracketed (iht hmore ihmore hothers)
    cases hp : t.positive <;>
      simpa [hp, termSign, SeqKind.separator, String.toList_append] using hterm

/-- The terms of a sum. -/
theorem denotes_sum {ts : List (Signed (Tree Float))} {IsName : String → Prop} (hne : ts ≠ [])
    (hts : ∀ t ∈ ts, t.item.Legible IsName)
    (ih : ∀ t ∈ ts, ∀ s, t.item.latex = .ok s → Shows R ρ t.item s.toList) {s : String}
    (hs : sumLatex true ts = .ok s) :
    Denotes R ρ .line s.toList ((seq .sum ts).symbolValue? R ρ) := by
  cases ts with
  | nil => exact absurd rfl hne
  | cons t ts =>
    obtain ⟨ht, hmore⟩ := List.forall_mem_cons.1 hts
    obtain ⟨iht, ihmore⟩ := List.forall_mem_cons.1 ih
    simp only [sumLatex, followed_of_legible ht, bind_eq_ok_iff, Except.ok.injEq] at hs
    obtain ⟨_, ⟨a, ha, others, hothers, rfl⟩, rfl⟩ := hs
    have htail := denotes_tail hmore ihmore hothers
    rw [symbolValue?_sum_cons]
    cases hp : t.positive with
    | true =>
      -- a first sum keeps its terms apart from the others without brackets
      have hline := (iht a ha).line.append_line htail
      simpa [hp, Tree.bracketed, Partial.signed_true, String.toList_append] using hline
    | false =>
      have hline := Denotes.negative (iht a ha).bracketed htail
      simpa [hp, SeqKind.separator, String.toList_append] using hline

/-- Nothing, or a row: the factors of a product, or its divisors. -/
def Beside (R : Reading Float) (ρ : String → ℚ) (cs : List Char) (v : Option ℚ) : Prop :=
  cs = [] ∧ v = some 1 ∨ Denotes R ρ .row cs v

theorem Beside.cons {cs ds : List Char} {v w : Option ℚ} (h : Denotes R ρ .row cs v)
    (hrest : Beside R ρ ds w) : Beside R ρ (cs ++ ds) (Partial.mul v w) := by
  rcases hrest with ⟨rfl, rfl⟩ | hrest
  · rw [List.append_nil, Partial.mul_one]
    exact .inr h
  · exact .inr (h.append_row hrest)

theorem symbolValues_cons (positive : Bool) (t : Signed (Tree Float))
    (ts : List (Signed (Tree Float))) :
    Partial.prod (symbolValues R ρ positive (t :: ts)) =
      if t.positive = positive then
        Partial.mul (t.item.symbolValue? R ρ) (Partial.prod (symbolValues R ρ positive ts))
      else Partial.prod (symbolValues R ρ positive ts) := by
  by_cases hp : t.positive = positive
  · simp [symbolValues, hp, Partial.prod]
  · simp [symbolValues, hp]

/-- The factors of a product and its divisors. -/
theorem beside_product {ts : List (Signed (Tree Float))}
    (ih : ∀ t ∈ ts, ∀ s, t.item.latex = .ok s → Shows R ρ t.item s.toList) :
    ∀ {numerator denominator : String}, productLatex ts = .ok (numerator, denominator) →
      Beside R ρ numerator.toList (Partial.prod (symbolValues R ρ true ts)) ∧
        Beside R ρ denominator.toList (Partial.prod (symbolValues R ρ false ts)) := by
  induction ts with
  | nil =>
    intro numerator denominator hs
    obtain ⟨rfl, rfl⟩ := Prod.mk.inj (Except.ok.inj hs)
    exact ⟨.inl ⟨rfl, rfl⟩, .inl ⟨rfl, rfl⟩⟩
  | cons t ts iht =>
    intro numerator denominator hs
    obtain ⟨iht', ihmore⟩ := List.forall_mem_cons.1 ih
    simp only [productLatex, bind_eq_ok_iff, Except.ok.injEq, Prod.exists] at hs
    obtain ⟨a, ha, num, den, hmore, hs⟩ := hs
    obtain ⟨hnum, hden⟩ := iht ihmore hmore
    have hrow := (iht' a ha).bracketed
    rw [symbolValues_cons, symbolValues_cons]
    cases hp : t.positive with
    | true =>
      rw [hp, if_pos rfl] at hs
      obtain ⟨rfl, rfl⟩ := Prod.mk.inj hs
      rw [String.toList_append]
      exact ⟨hnum.cons hrow, hden⟩
    | false =>
      rw [hp, if_neg (by simp)] at hs
      obtain ⟨rfl, rfl⟩ := Prod.mk.inj hs
      rw [String.toList_append]
      exact ⟨hnum, hden.cons hrow⟩

/-- Of a product that is not empty, factors or divisors are written. -/
theorem beside_ne_nil {ts : List (Signed (Tree Float))} (hne : ts ≠ [])
    (ih : ∀ t ∈ ts, ∀ s, t.item.latex = .ok s → Shows R ρ t.item s.toList)
    {numerator denominator : String} (hs : productLatex ts = .ok (numerator, denominator)) :
    numerator ≠ "" ∨ denominator ≠ "" := by
  match ts, hne with
  | t :: ts, _ =>
    obtain ⟨iht, -⟩ := List.forall_mem_cons.1 ih
    simp only [productLatex, bind_eq_ok_iff, Except.ok.injEq, Prod.exists] at hs
    obtain ⟨a, ha, num, den, -, hs⟩ := hs
    have hrow := (iht a ha).bracketed.ne_nil
    have happend : ∀ s : String, bracketed t.item.isSum a ++ s ≠ "" := by
      intro s hnil
      have hlist := congrArg String.toList hnil
      rw [String.toList_append] at hlist
      exact hrow (List.append_eq_nil_iff.1 hlist).1
    cases hp : t.positive with
    | true =>
      rw [hp, if_pos rfl] at hs
      exact .inl ((Prod.mk.inj hs).1 ▸ happend num)
    | false =>
      rw [hp, if_neg (by simp)] at hs
      exact .inr ((Prod.mk.inj hs).2 ▸ happend den)

theorem Beside.row {s : String} {v : Option ℚ} (h : Beside R ρ s.toList v) (hs : s ≠ "") :
    Denotes R ρ .row s.toList v := by
  rcases h with ⟨hnil, -⟩ | hrow
  · exact absurd (String.toList_inj.1 hnil) hs
  · exact hrow

theorem Beside.empty {v : Option ℚ} (h : Beside R ρ "".toList v) : v = some 1 := by
  rcases h with ⟨-, hv⟩ | hrow
  · exact hv
  · exact absurd rfl hrow.ne_nil

/-- **A product is shown as a row, or as one quotient.** -/
theorem denotes_product {ts : List (Signed (Tree Float))} (hne : ts ≠ [])
    (ih : ∀ t ∈ ts, ∀ s, t.item.latex = .ok s → Shows R ρ t.item s.toList)
    {numerator denominator : String} (hs : productLatex ts = .ok (numerator, denominator)) :
    Denotes R ρ .row (quotient numerator denominator).toList
      ((seq .product ts).symbolValue? R ρ) := by
  obtain ⟨hnum, hden⟩ := beside_product ih hs
  rw [symbolValue?_product]
  by_cases hd : denominator = ""
  · subst hd
    have hn : numerator ≠ "" := (beside_ne_nil hne ih hs).resolve_right (by simp)
    rw [hden.empty, Partial.div_one, quotient, if_neg hn, if_pos rfl]
    exact hnum.row hn
  · -- an empty numerator is one
    have htop : Denotes R ρ .top (if numerator = "" then "1" else numerator).toList
        (Partial.prod (symbolValues R ρ true ts)) := by
      by_cases hn : numerator = ""
      · subst hn
        rw [if_pos rfl, hnum.empty]
        exact .one
      · rw [if_neg hn]
        exact .plain (hnum.row hn)
    have hpair := Denotes.single (.pair false htop (hden.row hd).line_of_row)
    simpa [quotient, hd, mark, pairValue] using hpair

theorem denotes_pow {b e : Tree Float} {cs cs' : String} (hb : Shows R ρ b cs.toList)
    (he : Shows R ρ e cs'.toList) :
    Shows R ρ (pow b e) ("\x7b" ++ (if b.isAtom then cs else "\\left(" ++ cs ++ "\\right)") ++
      "\x7d^\x7b" ++ cs' ++ "\x7d").toList := by
  have htop : Denotes R ρ .top (if b.isAtom then cs else "\\left(" ++ cs ++ "\\right)").toList
      (b.symbolValue? R ρ) := by
    by_cases hatom : b.isAtom = true
    · rw [if_pos hatom]
      refine .plain (hb.row ?_)
      cases b <;> first | rfl | exact absurd hatom (by simp [isAtom])
    · rw [if_neg hatom]
      simpa [left, right] using Denotes.wide hb.line
  refine .of_row ?_
  rw [symbolValue?_pow]
  have hpair := Denotes.single (.pair true htop he.line)
  simpa [mark, pairValue] using hpair

theorem denotes_fn (f : Builtin) {a : Tree Float} {cs : List Char} (ha : Shows R ρ a cs) :
    Shows R ρ (fn f.code a) ((Frame.call f).opening ++ cs ++ (Frame.call f).closing) := by
  refine .of_row ?_
  rw [symbolValue?_fn]
  exact .single (.frame (.call f) ha.line)

/-- **The formula of a tree denotes the value of the tree.** -/
theorem latex_denotes {power : ℚ → ℚ → Option ℚ} {function : Builtin → ℚ → Option ℚ}
    (h : t.Legible IsLetter) : ∀ {s : String}, t.latex = .ok s →
      Shows (Reading.doubles power function) ρ t s.toList := by
  induction h with
  | const hx =>
    intro s hs
    obtain rfl := Except.ok.inj hs
    have hnumber : Denotes (Reading.doubles power function) ρ .row _ _ := .single (.number hx)
    exact .of_row (by simpa [upright, symbolValue?_const, Reading.doubles] using hnumber)
  | named hname ht =>
    intro s hs
    obtain ⟨c, hc, rfl⟩ := hname
    have hletter : Denotes (Reading.doubles power function) ρ .row [c]
        (some (ρ (String.ofList [c]))) := .single (.letter hc)
    cases ht with
    | var _ stored =>
      obtain rfl := Except.ok.inj hs
      exact .of_row (by simpa [symbolValue?_var] using hletter)
    | hole _ =>
      obtain rfl := Except.ok.inj hs
      exact .of_row (by simpa [symbolValue?_hole] using hletter)
  | @seq kind ts hne hts ih =>
    intro s hs
    cases kind with
    | sum => exact ⟨denotes_sum hne hts (fun t ht _ => ih t ht) hs, fun hsum => nomatch hsum⟩
    | product =>
      simp only [latex, bind_eq_ok_iff, Except.ok.injEq, Prod.exists] at hs
      obtain ⟨numerator, denominator, hproduct, rfl⟩ := hs
      exact .of_row (denotes_product hne (fun t ht _ => ih t ht) hproduct)
  | pow _ _ ihb ihe =>
    intro s hs
    simp only [latex, bind_eq_ok_iff, Except.ok.injEq] at hs
    obtain ⟨b, hb, e, he, rfl⟩ := hs
    exact denotes_pow (ihb hb) (ihe he)
  | @fn id a ha ih =>
    intro s hs
    rw [latex] at hs
    by_cases hexp : id = Builtin.exp.code
    · subst hexp
      simp only [if_pos, bind_eq_ok_iff, Except.ok.injEq] at hs
      obtain ⟨a, ha, rfl⟩ := hs
      simpa [Frame.opening, Frame.closing] using denotes_fn .exp (ih ha)
    · rw [if_neg hexp] at hs
      by_cases hsqrt : id = Builtin.sqrt.code
      · subst hsqrt
        simp only [if_pos, bind_eq_ok_iff, Except.ok.injEq] at hs
        obtain ⟨a, ha, rfl⟩ := hs
        simpa [Frame.opening, Frame.closing] using denotes_fn .sqrt (ih ha)
      · simp only [if_neg hsqrt, followed_of_legible ha, bind_eq_ok_iff, Except.ok.injEq] at hs
        obtain ⟨_, ⟨a, ha, f, hf, rfl⟩, rfl⟩ := hs
        obtain rfl := Builtin.code_of_ofCode? (Builtin.ofCode?_of_coded hf)
        have hexp' : f ≠ .exp := fun hf => hexp (congrArg Builtin.code hf)
        have hsqrt' : f ≠ .sqrt := fun hf => hsqrt (congrArg Builtin.code hf)
        have hfn := denotes_fn f (ih ha)
        rw [Frame.opening.eq_4 f hexp' hsqrt', Frame.closing.eq_4 f hexp' hsqrt'] at hfn
        simpa [upright, left, right] using hfn

/-- **LaTeX does not change the meaning**: trees with the same formula have the same value, or none,
whatever the letters stand for and however powers and functions are read. -/
theorem symbolValue?_eq_of_latex_eq {u : Tree Float} {s : String} (ht : t.Legible IsLetter)
    (hu : u.Legible IsLetter) (hs : t.latex = .ok s) (hs' : u.latex = .ok s)
    (power : ℚ → ℚ → Option ℚ) (function : Builtin → ℚ → Option ℚ) (ρ : String → ℚ) :
    t.symbolValue? (Reading.doubles power function) ρ
      = u.symbolValue? (Reading.doubles power function) ρ := by
  have htrees : Ends .line [] := .inl rfl
  exact ((latex_denotes ht hs).line.unique (latex_denotes hu hs').line htrees htrees rfl).1

/-- The tree `a / b / c`, where `c` is a placeholder. -/
def twoDivisors : Tree Float :=
  seq .product [⟨.var (.text "a") none, true⟩, ⟨.var (.text "b") (some 0), false⟩,
    ⟨.hole (.text "c"), false⟩]

/-- The tree `a / (b * c)`. -/
def oneDivisor : Tree Float :=
  seq .product [⟨.var (.text "a") none, true⟩,
    ⟨seq .product [⟨.var (.text "b") none, true⟩, ⟨.var (.text "c") none, true⟩], false⟩]

theorem legible_letter {t : Tree Float} (c : Char) (hc : c.isAlpha = true)
    (ht : t.Named (.text (String.ofList [c]))) : t.Legible IsLetter :=
  .named ⟨c, hc, rfl⟩ ht

theorem legible_twoDivisors : twoDivisors.Legible IsLetter := by
  refine .seq (by simp) (List.forall_mem_cons.2 ⟨legible_letter 'a' rfl (.var ..), ?_⟩)
  refine List.forall_mem_cons.2 ⟨legible_letter 'b' rfl (.var ..), ?_⟩
  exact List.forall_mem_singleton.2 (legible_letter 'c' rfl (.hole _))

theorem legible_oneDivisor : oneDivisor.Legible IsLetter := by
  refine .seq (by simp) (List.forall_mem_cons.2 ⟨legible_letter 'a' rfl (.var ..), ?_⟩)
  refine List.forall_mem_singleton.2 (.seq (by simp) ?_)
  refine List.forall_mem_cons.2 ⟨legible_letter 'b' rfl (.var ..), ?_⟩
  exact List.forall_mem_singleton.2 (legible_letter 'c' rfl (.var ..))

/-- Both are written `a` over `bc`. -/
theorem symbolValue?_divisors :
    twoDivisors.Legible IsLetter ∧ oneDivisor.Legible IsLetter ∧
      twoDivisors.latex = .ok "\x7ba\x7d/\x7bbc\x7d" ∧ oneDivisor.latex = .ok "\x7ba\x7d/\x7bbc\x7d" ∧
      twoDivisors.symbolValue? (Reading.doubles (fun _ _ => none) fun _ _ => none) (fun _ => 2)
        = oneDivisor.symbolValue? (Reading.doubles (fun _ _ => none) fun _ _ => none) fun _ => 2 :=
  ⟨legible_twoDivisors, legible_oneDivisor, by rfl, by rfl,
    symbolValue?_eq_of_latex_eq legible_twoDivisors legible_oneDivisor (by rfl) (by rfl) _ _ _⟩

end Tree

end Isolate
