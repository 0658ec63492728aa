import Isolate.Proofs.Evaluation.Symbols
import Isolate.Proofs.Number.Numeral

/-!
# Formulas in LaTeX and their values

Formulas in LaTeX have a grammar, and what is written by it has a value: units side by side are
multiplied, rows with signs between them are added up.  Two trees may have the same formula, but no
formula has two values, because a unit shows by its first characters what it is and ends where its
braces close.

* `Formula.Denotes` - the formulas of the grammar with their values;
* `Formula.Denotes.unique` - **a formula has one value only**.
-/

namespace Isolate

/-- Doubles are read as what they are; powers and functions are any partial functions. -/
def Reading.doubles (power : ℚ → ℚ → Option ℚ) (function : Builtin → ℚ → Option ℚ) :
    Reading Float where
  number x := (Binary64.rational? x).getD 0
  power := power
  function := function

namespace Formula

open Number

/-! ## The grammar -/

/-- The parts of a formula: a factor, factors side by side, the terms after the first, all terms,
and what may stand in the first braces of a quotient or of a power. -/
inductive Level where
  | unit | row | tail | line | top

/-- A line between brackets, or as the argument of a function. -/
inductive Frame where
  | brackets
  | call (f : Builtin)
deriving DecidableEq

/-- The mark of upright characters, and the brace after it. -/
def upright : List Char := ['\\', 'm', 'a', 't', 'h', 'r', 'm', '\x7b']

/-- The mark of a wide bracket that opens. -/
def left : List Char := ['\\', 'l', 'e', 'f', 't', '(']

/-- The mark of a wide bracket that closes. -/
def right : List Char := ['\\', 'r', 'i', 'g', 'h', 't', ')']

/-- What stands in front of the line. -/
def Frame.opening : Frame → List Char
  | brackets => ['(']
  | call .exp => ['e', '^', '\x7b']
  | call .sqrt => ['\\', 's', 'q', 'r', 't', '\x7b']
  | call f => upright ++ f.name.toList ++ '\x7d' :: left

/-- What stands behind the line. -/
def Frame.closing : Frame → List Char
  | brackets => [')']
  | call .exp => ['\x7d']
  | call .sqrt => ['\x7d']
  | call _ => right

/-- The sign of a term. -/
def termSign (positive : Bool) : Char := if positive then '+' else '-'

/-- The mark between the two pairs of braces of a power or of a quotient. -/
def mark (power : Bool) : Char := if power then '^' else '/'

section

variable (R : Reading Float) (ρ : String → ℚ)

/-- The value that a frame gives to the line in it. -/
def Frame.value : Frame → Option ℚ → Option ℚ
  | brackets, v => v
  | call f, v => v.bind fun x => if f.hasRule then R.function f x else none

/-- The value of a power or of a quotient. -/
def pairValue (power : Bool) (v w : Option ℚ) : Option ℚ :=
  if power then v.bind fun x => w.bind (R.power x) else Partial.div v w

/-- **The formulas of each level, and what they denote.** -/
inductive Denotes : Level → List Char → Option ℚ → Prop
  | letter {c : Char} (hc : c.isAlpha = true) : Denotes .unit [c] (some (ρ (String.ofList [c])))
  | number {x : Float} (hx : Binary64.isFinite x = true) :
      Denotes .unit (upright ++ (constant x).toList ++ ['\x7d'])
        (some ((Binary64.rational? x).getD 0))
  | frame (f : Frame) {cs : List Char} {v : Option ℚ} (h : Denotes .line cs v) :
      Denotes .unit (f.opening ++ cs ++ f.closing) (f.value R v)
  | pair (power : Bool) {cs ds : List Char} {v w : Option ℚ} (htop : Denotes .top cs v)
      (h : Denotes .line ds w) :
      Denotes .unit ('\x7b' :: (cs ++ '\x7d' :: mark power :: '\x7b' :: (ds ++ ['\x7d'])))
        (pairValue R power v w)
  | single {cs : List Char} {v : Option ℚ} (h : Denotes .unit cs v) : Denotes .row cs v
  | beside {cs ds : List Char} {v w : Option ℚ} (h : Denotes .unit cs v)
      (hrest : Denotes .row ds w) : Denotes .row (cs ++ ds) (Partial.mul v w)
  | finish : Denotes .tail [] (some 0)
  | term (positive : Bool) {cs ds : List Char} {v w : Option ℚ} (h : Denotes .row cs v)
      (hrest : Denotes .tail ds w) :
      Denotes .tail (termSign positive :: (cs ++ ds))
        (Partial.add (Partial.signed positive v) w)
  | first {cs ds : List Char} {v w : Option ℚ} (h : Denotes .row cs v)
      (hrest : Denotes .tail ds w) : Denotes .line (cs ++ ds) (Partial.add v w)
  | negative {cs ds : List Char} {v w : Option ℚ} (h : Denotes .row cs v)
      (hrest : Denotes .tail ds w) :
      Denotes .line ('-' :: (cs ++ ds)) (Partial.add (Partial.signed false v) w)
  | one : Denotes .top ['1'] (some 1)
  | plain {cs : List Char} {v : Option ℚ} (h : Denotes .row cs v) : Denotes .top cs v
  | wide {cs : List Char} {v : Option ℚ} (h : Denotes .line cs v) :
      Denotes .top (left ++ cs ++ right) v

end

/-! ## First characters -/

/-- What a unit begins with: a letter, a bracket, a brace, or a mark that is not one of a
bracket. -/
def Begins (cs : List Char) : Prop :=
  ∃ c rest, cs = c :: rest ∧ (c.isAlpha = true ∨ c = '(' ∨ c = '\x7b' ∨
    c = '\\' ∧ ∃ d rest', rest = d :: rest' ∧ (d = 'm' ∨ d = 's'))

theorem Begins.append {cs : List Char} (h : Begins cs) (ds : List Char) : Begins (cs ++ ds) := by
  obtain ⟨c, rest, rfl, hc⟩ := h
  refine ⟨c, rest ++ ds, rfl, ?_⟩
  rcases hc with hc | hc | hc | ⟨hc, d, rest', rfl, hd⟩
  · exact .inl hc
  · exact .inr (.inl hc)
  · exact .inr (.inr (.inl hc))
  · exact .inr (.inr (.inr ⟨hc, d, rest' ++ ds, rfl, hd⟩))

theorem head_name (f : Builtin) : ∃ c rest, f.name.toList = c :: rest ∧ c.isAlpha = true := by
  cases f <;> exact ⟨_, _, rfl, rfl⟩

/-- What a frame opens with. -/
theorem opening_cases (f : Frame) :
    f.opening = ['('] ∨ f.opening = ['e', '^', '\x7b'] ∨
      f.opening = ['\\', 's', 'q', 'r', 't', '\x7b'] ∨
      ∃ c rest, c.isAlpha = true ∧ f.opening = upright ++ c :: rest := by
  cases f with
  | brackets => exact .inl rfl
  | call f =>
    obtain ⟨c, rest, hname, hc⟩ := head_name f
    by_cases hexp : f = .exp
    · exact .inr (.inl (by rw [hexp]; rfl))
    · by_cases hsqrt : f = .sqrt
      · exact .inr (.inr (.inl (by rw [hsqrt]; rfl)))
      · refine .inr (.inr (.inr ⟨c, rest ++ '\x7d' :: left, hc, ?_⟩))
        rw [Frame.opening.eq_4 f hexp hsqrt, hname, List.append_assoc, List.cons_append]

/-- The frames there are. -/
def frames : List Frame := .brackets :: Builtin.all.map .call

theorem mem_frames (f : Frame) : f ∈ frames := by
  cases f with
  | brackets => exact List.mem_cons_self
  | call f => cases f <;> decide

/-- No frame opens with what another one does. -/
theorem eq_of_isPrefix {f g : Frame} (h : f.opening <+: g.opening) : f = g := by
  have hall : ∀ f ∈ frames, ∀ g ∈ frames, f.opening <+: g.opening → f = g := by decide +kernel
  exact hall f (mem_frames f) g (mem_frames g) h

theorem eq_of_opening {f g : Frame} {cs ds : List Char} (h : f.opening ++ cs = g.opening ++ ds) :
    f = g ∧ cs = ds := by
  have hf : f.opening <+: g.opening ++ ds := ⟨cs, h⟩
  have hsame : f = g := by
    rcases List.prefix_or_prefix_of_prefix hf (List.prefix_append _ _) with hfg | hgf
    · exact eq_of_isPrefix hfg
    · exact (eq_of_isPrefix hgf).symm
  subst hsame
  exact ⟨rfl, List.append_cancel_left h⟩

section

variable {R : Reading Float} {ρ : String → ℚ} {cs : List Char} {v : Option ℚ}

theorem Denotes.begins_unit (h : Denotes R ρ .unit cs v) : Begins cs := by
  cases h with
  | @letter c hc => exact ⟨c, [], rfl, .inl hc⟩
  | number _ => exact ⟨'\\', _, rfl, .inr (.inr (.inr ⟨rfl, 'm', _, rfl, .inl rfl⟩))⟩
  | frame f _ =>
    rw [List.append_assoc]
    refine Begins.append ?_ _
    rcases opening_cases f with hf | hf | hf | ⟨c, rest, _, hf⟩
    · exact ⟨'(', [], hf, .inr (.inl rfl)⟩
    · exact ⟨'e', _, hf, .inl (by decide)⟩
    · exact ⟨'\\', _, hf, .inr (.inr (.inr ⟨rfl, 's', _, rfl, .inr rfl⟩))⟩
    · exact ⟨'\\', _, hf, .inr (.inr (.inr ⟨rfl, 'm', _, rfl, .inl rfl⟩))⟩
  | pair _ _ _ => exact ⟨'\x7b', _, rfl, .inr (.inr (.inl rfl))⟩

theorem Denotes.begins_row (h : Denotes R ρ .row cs v) : Begins cs := by
  cases h with
  | single h => exact h.begins_unit
  | beside h _ => exact h.begins_unit.append _

/-! ## Where a part ends -/

/-- Nothing, or something that closes. -/
def ClosesLine (rest : List Char) : Prop :=
  rest = [] ∨ ∃ more, rest = ')' :: more ∨ rest = '\x7d' :: more ∨ rest = '\\' :: 'r' :: more

/-- What may follow a part of a level. -/
def Ends : Level → List Char → Prop
  | .unit, rest => ∀ more, rest ≠ '^' :: more
  | .row, rest => ClosesLine rest ∨ ∃ positive more, rest = termSign positive :: more
  | .tail, rest => ClosesLine rest
  | .line, rest => ClosesLine rest
  | .top, rest => ∃ more, rest = '\x7d' :: more

theorem ends_unit_of_row {rest : List Char} (h : Ends .row rest) : Ends .unit rest := by
  intro more hmore
  subst hmore
  rcases h with (h | ⟨_, h | h | h⟩) | ⟨positive, _, h⟩
  · exact absurd h (by simp)
  · exact absurd h (by simp)
  · exact absurd h (by simp)
  · exact absurd h (by simp)
  · cases positive <;> exact absurd (List.cons.inj h).1 (by decide)

theorem Begins.ends_unit {rest : List Char} (h : Begins rest) : Ends .unit rest := by
  intro more hmore
  subst hmore
  obtain ⟨c, _, hc, hbegins⟩ := h
  obtain rfl := (List.cons.inj hc).1
  rcases hbegins with h | h | h | ⟨h, _⟩ <;> exact absurd h (by decide)

theorem not_begins_one (rest : List Char) : ¬Begins ('1' :: rest) := by
  rintro ⟨c, _, hc, hbegins⟩
  obtain rfl := (List.cons.inj hc).1
  rcases hbegins with h | h | h | ⟨h, _⟩ <;> exact absurd h (by decide)

theorem not_begins_left (rest : List Char) : ¬Begins (left ++ rest) := by
  rintro ⟨c, more, hc, hbegins⟩
  obtain ⟨rfl, hmore⟩ := List.cons.inj hc
  rcases hbegins with h | h | h | ⟨-, d, rest', hd, hor⟩
  · exact absurd h (by decide)
  · exact absurd h (by decide)
  · exact absurd h (by decide)
  · obtain rfl := (List.cons.inj (hd.symm.trans hmore.symm)).1
    rcases hor with hor | hor <;> exact absurd hor (by decide)

/-- Where a row ends, no unit begins. -/
theorem Begins.not_ends_row {rest : List Char} (h : Begins rest) : ¬Ends .row rest := by
  obtain ⟨c, more, rfl, hbegins⟩ := h
  rintro ((h | ⟨_, h | h | h⟩) | ⟨positive, _, h⟩)
  · exact absurd h (by simp)
  · obtain rfl := (List.cons.inj h).1
    rcases hbegins with h | h | h | ⟨h, _⟩ <;> exact absurd h (by decide)
  · obtain rfl := (List.cons.inj h).1
    rcases hbegins with h | h | h | ⟨h, _⟩ <;> exact absurd h (by decide)
  · obtain ⟨rfl, hmore⟩ := List.cons.inj h
    rcases hbegins with h | h | h | ⟨-, d, rest', hd, hor⟩
    · exact absurd h (by decide)
    · exact absurd h (by decide)
    · exact absurd h (by decide)
    · obtain rfl := (List.cons.inj (hd.symm.trans hmore)).1
      rcases hor with hor | hor <;> exact absurd hor (by decide)
  · obtain rfl := (List.cons.inj h).1
    rcases hbegins with h | h | h | ⟨h, _⟩ <;> cases positive <;> exact absurd h (by decide)

theorem not_begins_minus (rest : List Char) : ¬Begins ('-' :: rest) :=
  fun h => h.not_ends_row (.inr ⟨false, rest, rfl⟩)

theorem closesLine_closing (f : Frame) (rest : List Char) : ClosesLine (f.closing ++ rest) := by
  cases f with
  | brackets => exact .inr ⟨rest, .inl rfl⟩
  | call f =>
    by_cases hexp : f = .exp
    · exact .inr ⟨rest, .inr (.inl (by rw [hexp]; rfl))⟩
    · by_cases hsqrt : f = .sqrt
      · exact .inr ⟨rest, .inr (.inl (by rw [hsqrt]; rfl))⟩
      · rw [Frame.closing.eq_4 f hexp hsqrt]
        exact .inr ⟨_, .inr (.inr rfl)⟩

theorem closesLine_brace (rest : List Char) : ClosesLine ('\x7d' :: rest) :=
  .inr ⟨rest, .inr (.inl rfl)⟩

theorem not_closesLine_sign (positive : Bool) (rest : List Char) :
    ¬ClosesLine (termSign positive :: rest) := by
  rintro (h | ⟨_, h | h | h⟩)
  · exact absurd h (by simp)
  · cases positive <;> exact absurd (List.cons.inj h).1 (by decide)
  · cases positive <;> exact absurd (List.cons.inj h).1 (by decide)
  · cases positive <;> exact absurd (List.cons.inj h).1 (by decide)

theorem closesLine_right (rest : List Char) : ClosesLine (right ++ rest) :=
  .inr ⟨_, .inr (.inr rfl)⟩

theorem ends_row_of_top {rest : List Char} (h : Ends .top rest) : Ends .row rest := by
  obtain ⟨more, rfl⟩ := h
  exact .inl (closesLine_brace more)

/-- After a row come the other terms, or what follows the line. -/
theorem Denotes.ends_row (h : Denotes R ρ .tail cs v) {rest : List Char} (hrest : ClosesLine rest) :
    Ends .row (cs ++ rest) := by
  cases h with
  | finish => exact .inl hrest
  | term positive _ _ => exact .inr ⟨positive, _, rfl⟩

/-! ## One value only -/

theorem termSign_inj {p q : Bool} (h : termSign p = termSign q) : p = q := by
  cases p <;> cases q <;> first | rfl | exact absurd h (by decide)

theorem mark_inj {p q : Bool} (h : mark p = mark q) : p = q := by
  cases p <;> cases q <;> first | rfl | exact absurd h (by decide)

theorem number_unique {x y : Float} (hx : Binary64.isFinite x = true)
    (hy : Binary64.isFinite y = true) {rest rest' : List Char}
    (h : upright ++ (constant x).toList ++ ['\x7d'] ++ rest
      = upright ++ (constant y).toList ++ ['\x7d'] ++ rest') :
    Binary64.rational? x = Binary64.rational? y ∧ rest = rest' := by
  simp only [List.append_assoc, List.append_cancel_left_eq, List.singleton_append] at h
  have hbrace : ∀ {z : Float}, Binary64.isFinite z = true →
      ∀ c ∈ (constant z).toList, (c != '\x7d') = true := by
    intro z hz c hc
    rw [bne_iff_ne]
    rintro rfl
    obtain ⟨negative, cs, htext, -, hcs⟩ := exists_constant hz
    rw [htext, List.mem_append] at hc
    rcases hc with hc | hc
    · cases negative <;> simp [sign] at hc
    · exact absurd (hcs _ hc) (by decide)
  have hspan := span_append ('\x7d' :: rest) (hbrace hx) (by simp)
  have hspan' := span_append ('\x7d' :: rest') (hbrace hy) (by simp)
  rw [h] at hspan
  obtain ⟨hsame, hrest⟩ := And.intro (hspan.1.symm.trans hspan'.1) (hspan.2.symm.trans hspan'.2)
  exact ⟨(constant_eq_iff hx hy).1 (String.toList_inj.1 hsame), (List.cons.inj hrest).2⟩

/-- The four kinds of unit. -/
inductive UnitKind where
  | letter | number | frame | pair

/-- The kind of unit that a formula begins with. -/
def unitKind : List Char → UnitKind
  | '\x7b' :: _ => .pair
  | '(' :: _ => .frame
  | 'e' :: '^' :: _ => .frame
  | '\\' :: 's' :: _ => .frame
  | '\\' :: 'm' :: 'a' :: 't' :: 'h' :: 'r' :: 'm' :: '\x7b' :: c :: _ =>
    if c.isAlpha then .frame else .number
  | _ => .letter

theorem unitKind_letter {c : Char} (hc : c.isAlpha = true) {rest : List Char}
    (hrest : Ends .unit rest) : unitKind ([c] ++ rest) = .letter := by
  rw [List.singleton_append]
  unfold unitKind
  split
  · obtain rfl := (List.cons.inj ‹c :: rest = _›).1
    exact absurd hc (by decide)
  · obtain rfl := (List.cons.inj ‹c :: rest = _›).1
    exact absurd hc (by decide)
  · exact absurd (List.cons.inj ‹c :: rest = _›).2 (hrest _)
  · obtain rfl := (List.cons.inj ‹c :: rest = _›).1
    exact absurd hc (by decide)
  · obtain rfl := (List.cons.inj ‹c :: rest = _›).1
    exact absurd hc (by decide)
  · rfl

theorem unitKind_number {x : Float} (hx : Binary64.isFinite x = true) (rest : List Char) :
    unitKind (upright ++ (constant x).toList ++ ['\x7d'] ++ rest) = .number := by
  obtain ⟨c, more, htext, hc⟩ := exists_head_constant hx
  rw [htext]
  exact if_neg (by simp [hc])

theorem unitKind_frame (f : Frame) (cs rest : List Char) :
    unitKind (f.opening ++ cs ++ f.closing ++ rest) = .frame := by
  rw [List.append_assoc, List.append_assoc]
  rcases opening_cases f with hf | hf | hf | ⟨c, more, hc, hf⟩
  · rw [hf]; rfl
  · rw [hf]; rfl
  · rw [hf]; rfl
  · rw [hf]
    exact if_pos hc

theorem unitKind_pair (rest : List Char) : unitKind ('\x7b' :: rest) = .pair := rfl

/-- **A formula has one value only**, and where a part of it ends can be seen. -/
theorem Denotes.unique {l : Level} (h : Denotes R ρ l cs v) :
    ∀ {ds : List Char} {w : Option ℚ} {rest rest' : List Char}, Denotes R ρ l ds w → Ends l rest →
      Ends l rest' → cs ++ rest = ds ++ rest' → v = w ∧ rest = rest' := by
  induction h with
  | @letter c hc =>
    intro ds w rest rest' hd hrest hrest' heq
    have hkind := congrArg unitKind heq
    rw [unitKind_letter hc hrest] at hkind
    cases hd with
    | letter _ =>
      obtain ⟨rfl, hsame⟩ := List.cons.inj heq
      exact ⟨rfl, hsame⟩
    | number hy => exact nomatch hkind.trans (unitKind_number hy _)
    | frame f _ => exact nomatch hkind.trans (unitKind_frame ..)
    | pair _ _ _ => exact nomatch hkind.trans (unitKind_pair _)
  | @number x hx =>
    intro ds w rest rest' hd hrest hrest' heq
    have hkind := congrArg unitKind heq
    rw [unitKind_number hx] at hkind
    cases hd with
    | letter hc => exact nomatch hkind.trans (unitKind_letter hc hrest')
    | number hy =>
      obtain ⟨hsame, hend⟩ := number_unique hx hy heq
      exact ⟨by rw [hsame], hend⟩
    | frame f _ => exact nomatch hkind.trans (unitKind_frame ..)
    | pair _ _ _ => exact nomatch hkind.trans (unitKind_pair _)
  | frame f h ih =>
    intro ds w rest rest' hd hrest hrest' heq
    have hkind := congrArg unitKind heq
    rw [unitKind_frame] at hkind
    cases hd with
    | letter hc => exact nomatch hkind.trans (unitKind_letter hc hrest')
    | number hy => exact nomatch hkind.trans (unitKind_number hy _)
    | frame g hd =>
      rw [List.append_assoc, List.append_assoc, List.append_assoc, List.append_assoc] at heq
      obtain ⟨rfl, hinner⟩ := eq_of_opening heq
      obtain ⟨rfl, hend⟩ := ih hd (closesLine_closing f _) (closesLine_closing f _) hinner
      exact ⟨rfl, List.append_cancel_left hend⟩
    | pair _ _ _ => exact nomatch hkind.trans (unitKind_pair _)
  | pair power htop h ihtop ih =>
    intro ds w rest rest' hd hrest hrest' heq
    have hkind := congrArg unitKind heq
    rw [List.cons_append, unitKind_pair] at hkind
    cases hd with
    | letter hc => exact nomatch hkind.trans (unitKind_letter hc hrest')
    | number hy => exact nomatch hkind.trans (unitKind_number hy _)
    | frame f _ => exact nomatch hkind.trans (unitKind_frame ..)
    | pair power' htop' hd =>
      simp only [List.cons_append, List.append_assoc, List.cons.injEq, true_and] at heq
      obtain ⟨rfl, hafter⟩ := ihtop htop' ⟨_, rfl⟩ ⟨_, rfl⟩ heq
      simp only [List.cons.injEq, true_and] at hafter
      obtain rfl := mark_inj hafter.1
      obtain ⟨rfl, hend⟩ := ih hd (closesLine_brace _) (closesLine_brace _) hafter.2
      exact ⟨rfl, (List.cons.inj hend).2⟩
  | single h ih =>
    intro ds w rest rest' hd hrest hrest' heq
    cases hd with
    | single hd => exact ih hd (ends_unit_of_row hrest) (ends_unit_of_row hrest') heq
    | beside hd hmore =>
      rw [List.append_assoc] at heq
      have hbegins := hmore.begins_row.append rest'
      obtain ⟨-, hend⟩ := ih hd (ends_unit_of_row hrest) hbegins.ends_unit heq
      exact absurd (hend ▸ hrest) hbegins.not_ends_row
  | beside h hmore ih ihmore =>
    intro ds w rest rest' hd hrest hrest' heq
    rw [List.append_assoc] at heq
    have hbegins := hmore.begins_row.append rest
    cases hd with
    | single hd =>
      obtain ⟨-, hend⟩ := ih hd hbegins.ends_unit (ends_unit_of_row hrest') heq
      exact absurd (hend ▸ hrest') hbegins.not_ends_row
    | beside hd hmore' =>
      rw [List.append_assoc] at heq
      have hbegins' := hmore'.begins_row.append rest'
      obtain ⟨rfl, hnext⟩ := ih hd hbegins.ends_unit hbegins'.ends_unit heq
      obtain ⟨rfl, hend⟩ := ihmore hmore' hrest hrest' hnext
      exact ⟨rfl, hend⟩
  | finish =>
    intro ds w rest rest' hd hrest hrest' heq
    cases hd with
    | finish => exact ⟨rfl, heq⟩
    | term positive _ _ =>
      obtain rfl : rest = _ := heq
      exact absurd hrest (not_closesLine_sign positive _)
  | term positive h hmore ih ihmore =>
    intro ds w rest rest' hd hrest hrest' heq
    cases hd with
    | finish =>
      obtain rfl : _ = rest' := heq
      exact absurd hrest' (not_closesLine_sign positive _)
    | term positive' hd hmore' =>
      simp only [List.cons_append, List.append_assoc, List.cons.injEq] at heq
      obtain rfl := termSign_inj heq.1
      obtain ⟨rfl, hnext⟩ := ih hd (hmore.ends_row hrest) (hmore'.ends_row hrest') heq.2
      obtain ⟨rfl, hend⟩ := ihmore hmore' hrest hrest' hnext
      exact ⟨rfl, hend⟩
  | first h hmore ih ihmore =>
    intro ds w rest rest' hd hrest hrest' heq
    rw [List.append_assoc] at heq
    cases hd with
    | first hd hmore' =>
      rw [List.append_assoc] at heq
      obtain ⟨rfl, hnext⟩ := ih hd (hmore.ends_row hrest) (hmore'.ends_row hrest') heq
      obtain ⟨rfl, hend⟩ := ihmore hmore' hrest hrest' hnext
      exact ⟨rfl, hend⟩
    | negative _ _ => exact absurd (heq ▸ h.begins_row.append _) (not_begins_minus _)
  | negative h hmore ih ihmore =>
    intro ds w rest rest' hd hrest hrest' heq
    cases hd with
    | first hd _ =>
      rw [List.append_assoc] at heq
      exact absurd (heq ▸ hd.begins_row.append _) (not_begins_minus _)
    | negative hd hmore' =>
      simp only [List.cons_append, List.append_assoc, List.cons.injEq, true_and] at heq
      obtain ⟨rfl, hnext⟩ := ih hd (hmore.ends_row hrest) (hmore'.ends_row hrest') heq
      obtain ⟨rfl, hend⟩ := ihmore hmore' hrest hrest' hnext
      exact ⟨rfl, hend⟩
  | one =>
    intro ds w rest rest' hd hrest hrest' heq
    cases hd with
    | one => exact ⟨rfl, (List.cons.inj heq).2⟩
    | plain hd => exact absurd (heq ▸ hd.begins_row.append rest') (not_begins_one _)
    | wide _ => exact absurd (List.cons.inj heq).1 (by decide)
  | plain h ih =>
    intro ds w rest rest' hd hrest hrest' heq
    cases hd with
    | one => exact absurd (heq ▸ h.begins_row.append rest) (not_begins_one _)
    | plain hd => exact ih hd (ends_row_of_top hrest) (ends_row_of_top hrest') heq
    | wide _ => exact absurd (heq ▸ h.begins_row.append rest) (not_begins_left _)
  | wide h ih =>
    intro ds w rest rest' hd hrest hrest' heq
    cases hd with
    | one => exact absurd (List.cons.inj heq).1 (by decide)
    | plain hd => exact absurd (heq ▸ hd.begins_row.append rest') (not_begins_left _)
    | wide hd =>
      simp only [List.append_assoc, List.append_cancel_left_eq] at heq
      obtain ⟨rfl, hend⟩ := ih hd (closesLine_right _) (closesLine_right _) heq
      exact ⟨rfl, List.append_cancel_left hend⟩

end

end Formula

end Isolate
