import Isolate.Proofs.Tree.Built
import Isolate.Tree.Latex

/-!
# Built trees are written

A name that is no text, a function that is not in the table and a plain value have no text.  A built
tree holds none of them, so it has a text (`exists_text`) and a LaTeX (`exists_latex`), and so does
every part of it on the way.
-/

namespace Isolate.Tree

variable {t : Tree Float}

/-- The leaves of a built tree are named by texts. -/
theorem Built.oddName? (ht : t.Built) : t.oddName? = none := by
  cases t with
  | var name stored =>
    obtain ⟨text, rfl⟩ := ht.parts
    rfl
  | hole name =>
    obtain ⟨text, rfl⟩ := ht.parts
    rfl
  | _ => rfl

/-- The function of a built application has a name. -/
theorem Built.coded {id : Int} {argument : Tree Float} (ht : (fn id argument).Built) :
    ∃ f, Builtin.coded (.int id) = .ok f := by
  obtain ⟨f, _, rfl⟩ := ht.check
  exact ⟨f, by simp [Builtin.coded]⟩

/-! ## Text -/

theorem operandText_of_built (ht : t.Built) (text : Except Fault String) :
    operandText t text = text := by
  rw [operandText, ht.oddName?]

theorem exists_termsText {kind : SeqKind} {terms : List (Signed (Tree Float))}
    (h : ∀ t ∈ terms, ∃ s, t.item.text = .ok s) (first : Bool) :
    ∃ s, termsText kind first terms = .ok s := by
  induction terms generalizing first with
  | nil => exact ⟨"", rfl⟩
  | cons t terms ih =>
    obtain ⟨s, hs⟩ := h t (List.mem_cons_self ..)
    obtain ⟨others, hothers⟩ := ih (fun u hu => h u (List.mem_cons_of_mem _ hu)) false
    rw [termsText, hs, ok_bind, hothers, ok_bind]
    exact ⟨_, rfl⟩

/-- **A built tree has a text.** -/
theorem exists_text (ht : t.Built) : ∃ s, t.text = .ok s := by
  induction t with
  | const value => exact ⟨_, rfl⟩
  | var name stored =>
    obtain ⟨text, rfl⟩ := ht.parts
    exact ⟨text, rfl⟩
  | hole name =>
    obtain ⟨text, rfl⟩ := ht.parts
    exact ⟨text, rfl⟩
  | seq kind terms ih => exact exists_termsText (fun t h => ih t h (ht.term h)) true
  | pow base exponent ihb ihe =>
    obtain ⟨b, hb⟩ := ihb ht.base
    obtain ⟨e, he⟩ := ihe ht.exponent
    rw [text, operandText_of_built ht.base, operandText_of_built ht.exponent, hb, he]
    exact ⟨_, rfl⟩
  | fn id argument ih =>
    obtain ⟨f, hf⟩ := ht.coded
    obtain ⟨a, ha⟩ := ih ht.argument
    rw [text, operandText_of_built ht.argument, hf, ha]
    exact ⟨_, rfl⟩
  | foreign d => exact ht.parts.elim

/-! ## LaTeX -/

theorem followed_of_built {α : Type} (ht : t.Built) {s : String} {a : α}
    {written : Except Fault String} {next : Except Fault α} (hs : written = .ok s)
    (ha : next = .ok a) : followed t written next = .ok (s, a) := by
  rw [followed, ht.oddName?, hs, ha]
  rfl

theorem exists_sumLatex {terms : List (Signed (Tree Float))} (hterms : ∀ t ∈ terms, t.item.Built)
    (h : ∀ t ∈ terms, ∃ s, t.item.latex = .ok s) (first : Bool) :
    ∃ s, sumLatex first terms = .ok s := by
  induction terms generalizing first with
  | nil => exact ⟨"", rfl⟩
  | cons t terms ih =>
    obtain ⟨s, hs⟩ := h t (List.mem_cons_self ..)
    obtain ⟨others, hothers⟩ := ih (fun u hu => hterms u (List.mem_cons_of_mem _ hu))
      (fun u hu => h u (List.mem_cons_of_mem _ hu)) false
    rw [sumLatex, followed_of_built (hterms t (List.mem_cons_self ..)) hs hothers]
    exact ⟨_, rfl⟩

theorem exists_productLatex {terms : List (Signed (Tree Float))}
    (h : ∀ t ∈ terms, ∃ s, t.item.latex = .ok s) : ∃ parts, productLatex terms = .ok parts := by
  induction terms with
  | nil => exact ⟨_, rfl⟩
  | cons t terms ih =>
    obtain ⟨s, hs⟩ := h t (List.mem_cons_self ..)
    obtain ⟨others, hothers⟩ := ih fun u hu => h u (List.mem_cons_of_mem _ hu)
    rw [productLatex, hs, ok_bind, hothers, ok_bind]
    exact ⟨_, rfl⟩

/-- **A built tree has a LaTeX.** -/
theorem exists_latex (ht : t.Built) : ∃ s, t.latex = .ok s := by
  induction t with
  | const value => exact ⟨_, rfl⟩
  | var name stored =>
    obtain ⟨text, rfl⟩ := ht.parts
    exact ⟨text, rfl⟩
  | hole name =>
    obtain ⟨text, rfl⟩ := ht.parts
    exact ⟨text, rfl⟩
  | seq kind terms ih =>
    have hterms : ∀ t ∈ terms, ∃ s, t.item.latex = .ok s := fun t h => ih t h (ht.term h)
    cases kind with
    | sum => exact exists_sumLatex (fun t h => ht.term h) hterms true
    | product =>
      obtain ⟨parts, hparts⟩ := exists_productLatex hterms
      rw [latex, hparts]
      exact ⟨_, rfl⟩
  | pow base exponent ihb ihe =>
    obtain ⟨b, hb⟩ := ihb ht.base
    obtain ⟨e, he⟩ := ihe ht.exponent
    rw [latex, hb, ok_bind, he, ok_bind]
    exact ⟨_, rfl⟩
  | fn id argument ih =>
    obtain ⟨f, hf⟩ := ht.coded
    obtain ⟨a, ha⟩ := ih ht.argument
    rw [latex, followed_of_built ht.argument ha hf, ha]
    split
    · exact ⟨_, rfl⟩
    · split
      · exact ⟨_, rfl⟩
      · exact ⟨_, rfl⟩
  | foreign d => exact ht.parts.elim

end Isolate.Tree
