import Mathlib.Algebra.Ring.Parity
import Mathlib.Data.List.Induction
import Mathlib.Data.List.Nodup
import QuantumLowering.Circuit.Control

namespace QuantumLowering

abbrev BasisState := Line → Bool

namespace BasisState

def flip (s : BasisState) (line : Line) : BasisState := Function.update s line (!s line)

def flipAll (s : BasisState) (lines : List Line) : BasisState := lines.foldl flip s

/-- The number that the lines read, the highest bit first. -/
def read (s : BasisState) (lines : List Line) : Nat :=
  lines.foldl (fun number line => 2 * number + (s line).toNat) 0

theorem flipAll_apply {lines : List Line} (once : lines.Nodup) (s : BasisState) (line : Line) :
    s.flipAll lines line = (s line ^^ decide (line ∈ lines)) := by
  induction lines generalizing s with
  | nil => simp [flipAll]
  | cons first lines ih =>
    rw [List.nodup_cons] at once
    have rest := ih once.2 (s.flip first)
    rw [flipAll, List.foldl_cons]
    refine rest.trans ?_
    by_cases same : line = first
    · subst same
      simp [flip, once.1]
    · simp [flip, same]

theorem read_append (s : BasisState) (lines : List Line) (last : Line) :
    s.read (lines ++ [last]) = 2 * s.read lines + (s last).toNat := by
  simp [read]

theorem read_eq_iff {lines : List Line} {value : Nat} (bound : value < 2 ^ lines.length)
    (s : BasisState) : s.read lines = value ↔
      ∀ (i : Nat) (inside : i < lines.length), s lines[i] = value.testBit (lines.length - 1 - i) := by
  induction lines using List.reverseRecOn generalizing value with
  | nil =>
    simp only [List.length_nil, Nat.pow_zero, Nat.lt_one_iff] at bound
    simp [read, bound]
  | append_singleton lines last ih =>
    have half : value / 2 < 2 ^ lines.length := by
      rw [List.length_append, List.length_singleton, Nat.pow_succ] at bound
      omega
    have lowest : (s last).toNat = value % 2 ↔ s last = value.testBit 0 := by
      rw [Nat.testBit_zero]
      cases s last <;> simp <;> omega
    have small : (s last).toNat < 2 := by cases s last <;> simp
    have split : s.read (lines ++ [last]) = value ↔
        s.read lines = value / 2 ∧ (s last).toNat = value % 2 := by
      rw [read_append]
      omega
    rw [split, ih half, lowest]
    constructor
    · rintro ⟨front, back⟩ i inside
      rw [List.length_append, List.length_singleton] at inside ⊢
      by_cases early : i < lines.length
      · have shift : lines.length + 1 - 1 - i = lines.length - 1 - i + 1 := by omega
        rw [List.getElem_append_left early, front i early, shift, Nat.testBit_succ]
      · have at_end : i = lines.length := by omega
        subst at_end
        simpa using back
    · intro each
      refine ⟨fun i inside => ?_, ?_⟩
      · have here := each i (by simp; omega)
        have shift : (lines ++ [last]).length - 1 - i = lines.length - 1 - i + 1 := by simp; omega
        rwa [List.getElem_append_left inside, shift, Nat.testBit_succ] at here
      · have here := each lines.length (by simp)
        simpa using here

end BasisState

/-- That the lines read the value. -/
structure Condition where
  lines : List Line
  value : Nat

namespace Condition

/-- The lines are there and different, and the value has as many bits as there are lines. -/
structure WellFormed (c : Condition) : Prop where
  present : c.lines ≠ []
  once : c.lines.Nodup
  bound : c.value < 2 ^ c.lines.length

def Holds (c : Condition) (s : BasisState) : Prop := s.read c.lines = c.value

def zeros (c : Condition) : List Line :=
  ((List.range c.lines.length).filter fun i => !c.value.testBit (c.lines.length - 1 - i)).filterMap
    fun i => c.lines[i]?

variable {c : Condition}

theorem mem_zeros_iff {line : Line} : line ∈ c.zeros ↔
    ∃ (i : Nat) (inside : i < c.lines.length), c.lines[i] = line ∧
      c.value.testBit (c.lines.length - 1 - i) = false := by
  simp only [zeros, List.mem_filterMap, List.mem_filter, List.mem_range, Bool.not_eq_eq_eq_not,
    Bool.not_true]
  constructor
  · rintro ⟨i, ⟨inside, zero⟩, found⟩
    rw [List.getElem?_eq_getElem inside, Option.some.injEq] at found
    exact ⟨i, inside, found, zero⟩
  · rintro ⟨i, inside, found, zero⟩
    exact ⟨i, ⟨inside, zero⟩, by rw [List.getElem?_eq_getElem inside, found]⟩

theorem WellFormed.nodup_zeros (wf : c.WellFormed) : c.zeros.Nodup := by
  refine List.Nodup.filterMap (fun i j line found found' => ?_) (List.nodup_range.filter _)
  obtain ⟨inside, at_i⟩ := List.getElem?_eq_some_iff.1 found
  obtain ⟨inside', at_j⟩ := List.getElem?_eq_some_iff.1 found'
  exact (wf.once.getElem_inj_iff).1 (at_i.trans at_j.symm)

theorem WellFormed.holds_iff (wf : c.WellFormed) (s : BasisState) :
    c.Holds s ↔ ∀ line ∈ c.lines, s line = !decide (line ∈ c.zeros) := by
  have bit : ∀ (i : Nat) (inside : i < c.lines.length),
      (!decide (c.lines[i] ∈ c.zeros)) = c.value.testBit (c.lines.length - 1 - i) := by
    intro i inside
    have zero : c.lines[i] ∈ c.zeros ↔ c.value.testBit (c.lines.length - 1 - i) = false := by
      rw [mem_zeros_iff]
      constructor
      · rintro ⟨j, inside', same, zero⟩
        obtain rfl := wf.once.getElem_inj_iff.1 same
        exact zero
      · exact fun zero => ⟨i, inside, rfl, zero⟩
    rw [Bool.not_eq_eq_eq_not, Bool.eq_iff_iff, decide_eq_true_iff, zero]
    simp
  rw [Holds, BasisState.read_eq_iff wf.bound]
  constructor
  · intro each line member
    obtain ⟨i, inside, rfl⟩ := List.getElem_of_mem member
    rw [each i inside, bit i inside]
  · intro each i inside
    rw [each _ (List.getElem_mem inside), bit i inside]

end Condition

namespace AllOnesControl

theorem mem_appendNew {kept lines : List Line} {line : Line} :
    line ∈ appendNew kept lines ↔ line ∈ kept ∨ line ∈ lines := by
  induction lines generalizing kept with
  | nil => simp [appendNew]
  | cons first lines ih =>
    rw [appendNew, List.foldl_cons]
    refine ih.trans ?_
    by_cases present : first ∈ kept
    · rw [if_pos present, List.mem_cons]
      exact ⟨fun member => member.imp_right .inr, fun member => member.elim .inl fun member =>
        member.elim (fun same => .inl (same ▸ present)) .inr⟩
    · rw [if_neg present, List.mem_append, List.mem_singleton, List.mem_cons, or_assoc]

theorem appendNew_of_nodup {kept lines : List Line} (once : (kept ++ lines).Nodup) :
    appendNew kept lines = kept ++ lines := by
  induction lines generalizing kept with
  | nil => simp [appendNew]
  | cons first lines ih =>
    have new : first ∉ kept := by
      intro again
      exact (List.nodup_append.1 once).2.2 first again first (by simp) rfl
    rw [List.append_cons] at once
    rw [appendNew, List.foldl_cons, if_neg new]
    exact (ih once).trans (List.append_cons kept first lines).symm

def conjunction : List AllOnesControl → List Line
  | [] => []
  | c :: cs => (cs.foldl and c).lines

theorem mem_conjunction {controls : List AllOnesControl} {line : Line} :
    line ∈ conjunction controls ↔ ∃ c ∈ controls, line ∈ c.lines := by
  have general : ∀ (cs : List AllOnesControl) (c : AllOnesControl),
      line ∈ (cs.foldl and c).lines ↔ line ∈ c.lines ∨ ∃ d ∈ cs, line ∈ d.lines := by
    intro cs
    induction cs with
    | nil => simp
    | cons d cs ih =>
      intro c
      rw [List.foldl_cons, ih (c.and d), and, mem_appendNew]
      simp [or_assoc]
  cases controls with
  | nil => simp [conjunction]
  | cons c cs => simpa [conjunction] using general cs c

end AllOnesControl

theorem Condition.WellFormed.scope_new {c : Condition} (wf : c.WellFormed) :
    ControlScope.new c.lines c.value = .ok ⟨⟨c.lines⟩, c.zeros⟩ := by
  have kept : AllOnesControl.appendNew [] c.lines = c.lines :=
    AllOnesControl.appendNew_of_nodup wf.once
  have control : AllOnesControl.new c.lines = .ok ⟨c.lines⟩ := by
    unfold AllOnesControl.new
    rw [kept]
    cases lines : c.lines with
    | nil => exact absurd lines wf.present
    | cons => rfl
  have positions : zeroBits c.value c.lines.length = .ok ((List.range c.lines.length).filter
      fun i => !c.value.testBit (c.lines.length - 1 - i)) := by
    unfold zeroBits
    rw [Nat.shiftRight_eq_div_pow, Nat.div_eq_of_lt wf.bound]
    rfl
  unfold ControlScope.new
  simp only [control, positions, Bind.bind, Except.bind, ne_eq, not_true_eq_false, if_false]
  rfl

/-- How many of the conditions ask for a zero on the line. -/
def zeroLevels (cs : List Condition) (line : Line) : Nat :=
  cs.countP fun c => decide (line ∈ c.zeros)

namespace BasisState

/-- The state inside all the scopes, the first being the outermost. -/
def entered (s : BasisState) (cs : List Condition) : BasisState :=
  cs.foldl (fun s c => s.flipAll c.zeros) s

def left (s : BasisState) (cs : List Condition) : BasisState :=
  cs.foldr (fun c s => s.flipAll c.zeros) s

theorem odd_zeroLevels_cons (c : Condition) (cs : List Condition) (line : Line) :
    decide (Odd (zeroLevels (c :: cs) line)) =
      (decide (line ∈ c.zeros) ^^ decide (Odd (zeroLevels cs line))) := by
  by_cases zero : line ∈ c.zeros
  · have more : zeroLevels (c :: cs) line = zeroLevels cs line + 1 := by simp [zeroLevels, zero]
    rw [decide_eq_true zero, Bool.true_xor, more, ← decide_not]
    exact decide_eq_decide.2 Nat.odd_add_one
  · have same : zeroLevels (c :: cs) line = zeroLevels cs line := by simp [zeroLevels, zero]
    rw [decide_eq_false zero, Bool.false_xor, same]

variable {cs : List Condition}

theorem entered_apply (wf : ∀ c ∈ cs, c.WellFormed) (s : BasisState) (line : Line) :
    s.entered cs line = (s line ^^ decide (Odd (zeroLevels cs line))) := by
  induction cs generalizing s with
  | nil => simp [entered, zeroLevels]
  | cons c cs ih =>
    have rest := ih (fun c member => wf c (by simp [member])) (s.flipAll c.zeros)
    have first := flipAll_apply (wf c (by simp)).nodup_zeros s line
    rw [entered, List.foldl_cons]
    refine rest.trans ?_
    rw [first, odd_zeroLevels_cons, Bool.xor_assoc]

theorem left_apply (wf : ∀ c ∈ cs, c.WellFormed) (s : BasisState) (line : Line) :
    s.left cs line = (s line ^^ decide (Odd (zeroLevels cs line))) := by
  induction cs with
  | nil => simp [left, zeroLevels]
  | cons c cs ih =>
    have rest := ih fun c member => wf c (by simp [member])
    have last := flipAll_apply (wf c (by simp)).nodup_zeros (s.left cs) line
    rw [left, List.foldr_cons]
    refine last.trans ?_
    rw [rest, odd_zeroLevels_cons, Bool.xor_assoc, Bool.xor_comm (decide (line ∈ c.zeros))]

theorem left_entered (wf : ∀ c ∈ cs, c.WellFormed) {s inside : BasisState} {line : Line}
    (kept : inside line = s.entered cs line) : inside.left cs line = s line := by
  rw [left_apply wf, kept, entered_apply wf, Bool.xor_assoc, Bool.xor_self, Bool.xor_false]

/-- All lines read one inside the scopes. -/
def Fires (s : BasisState) (cs : List Condition) : Prop :=
  ∀ c ∈ cs, ∀ line ∈ c.lines, s.entered cs line = true

theorem fires_iff (wf : ∀ c ∈ cs, c.WellFormed) (s : BasisState) :
    s.Fires cs ↔ ∀ c ∈ cs, ∀ line ∈ c.lines, s line = !decide (Odd (zeroLevels cs line)) := by
  refine forall₂_congr fun c _ => forall₂_congr fun line _ => ?_
  rw [entered_apply wf]
  cases s line <;> cases decide (Odd (zeroLevels cs line)) <;> simp

end BasisState

/-- A line that one condition asks for a zero on is asked so by an odd number of them, and no other
line is. -/
def Compatible (cs : List Condition) : Prop :=
  ∀ c ∈ cs, ∀ line ∈ c.lines, (line ∈ c.zeros ↔ Odd (zeroLevels cs line))

/-- The scopes fire for the conditions they were made for if the conditions are compatible, and only
then. -/
theorem compatible_iff {cs : List Condition} (wf : ∀ c ∈ cs, c.WellFormed) :
    (∀ s : BasisState, s.Fires cs ↔ ∀ c ∈ cs, c.Holds s) ↔ Compatible cs := by
  constructor
  · intro same
    -- the state for which the scopes fire
    let s : BasisState := fun line => !decide (Odd (zeroLevels cs line))
    have fires : s.Fires cs := (BasisState.fires_iff wf s).2 fun _ _ _ _ => rfl
    intro c member line listed
    have read := ((wf c member).holds_iff s).1 ((same s).1 fires c member) line listed
    simpa [s, iff_comm] using read
  · intro compatible s
    rw [BasisState.fires_iff wf]
    refine forall₂_congr fun c member => ?_
    rw [(wf c member).holds_iff]
    refine forall₂_congr fun line listed => ?_
    rw [decide_eq_decide.2 (compatible c member line listed)]

end QuantumLowering
