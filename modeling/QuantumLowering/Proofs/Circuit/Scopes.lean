import Mathlib.Data.List.Dedup
import QuantumLowering.Proofs.Circuit.Conditions

namespace QuantumLowering

abbrev CircuitM := StateT BasisState (Except CircuitError)

namespace CircuitM

variable {α β : Type} {s s' : BasisState} {a : α}

theorem run_bind {act : CircuitM α} {f : α → CircuitM β} (ran : act s = .ok (a, s')) :
    (act >>= f) s = f a s' := by
  show (act s >>= fun r => f r.1 r.2) = _
  rw [ran]
  rfl

theorem run_lift {act : Except CircuitError α} (made : act = .ok a) :
    (liftM act : CircuitM α) s = .ok (a, s) := by
  rw [made]
  rfl

end CircuitM

namespace AllOnesControl

theorem nodup_appendNew {kept lines : List Line} (once : kept.Nodup) :
    (appendNew kept lines).Nodup := by
  induction lines generalizing kept with
  | nil => exact once
  | cons first lines ih =>
    rw [appendNew, List.foldl_cons]
    refine ih ?_
    split
    · exact once
    · rename_i new
      exact List.concat_eq_append ▸ once.concat new

theorem nodup_of_length_appendNew {lines : List Line}
    (all : (appendNew [] lines).length = lines.length) : lines.Nodup := by
  have same : (appendNew [] lines).Perm lines.dedup := by
    refine (List.perm_ext_iff_of_nodup (nodup_appendNew .nil) lines.nodup_dedup).2 fun line => ?_
    simp [mem_appendNew]
  have whole := lines.dedup_sublist.eq_of_length (same.length_eq.symm.trans all)
  exact whole ▸ lines.nodup_dedup

theorem new_eq_ok {lines : List Line} {control : AllOnesControl} (made : new lines = .ok control) :
    lines ≠ [] ∧ control = ⟨appendNew [] lines⟩ := by
  unfold new at made
  split at made
  · cases made
  · rename_i kept found
    cases made
    refine ⟨?_, rfl⟩
    rintro rfl
    exact found rfl

end AllOnesControl

theorem zeroBits_eq_ok {value width : Nat} {positions : List Nat}
    (made : zeroBits value width = .ok positions) : value < 2 ^ width ∧
      positions = (List.range width).filter fun position => !value.testBit (width - 1 - position) := by
  unfold zeroBits at made
  split at made
  · cases made
  · rename_i fits
    rw [not_not, Nat.shiftRight_eq_div_pow, Nat.div_eq_zero_iff_lt (Nat.two_pow_pos width)] at fits
    cases made
    exact ⟨fits, rfl⟩

/-- In words of 64 bits, no shift is by more than 63: the bits above are zeros. -/
theorem zeroBits_word (value : UInt64) (width : Nat) : zeroBits value.toNat width =
    if width < 64 ∧ value >>> width.toUInt64 ≠ 0 then .error (.valueOutOfRange value.toNat width)
    else .ok ((List.range width).filter fun position =>
      decide (64 ≤ width - 1 - position) ||
        value >>> (width - 1 - position).toUInt64 &&& 1 == 0) := by
  have shifted : ∀ {k : Nat}, k < 64 → (value >>> k.toUInt64).toNat = value.toNat >>> k := by
    intro k small
    rw [UInt64.toNat_shiftRight]
    congr 1
    simp
    omega
  have beyond : ∀ {k : Nat}, 64 ≤ k → value.toNat < 2 ^ k := fun large =>
    Nat.lt_of_lt_of_le value.toNat_lt (Nat.pow_le_pow_right Nat.two_pos large)
  have inRange : value.toNat >>> width ≠ 0 ↔ width < 64 ∧ value >>> width.toUInt64 ≠ 0 := by
    by_cases small : width < 64
    · rw [and_iff_right small, ← shifted small, ne_eq, ne_eq, ← UInt64.toNat_inj]
      rfl
    · have fits := beyond (not_lt.1 small)
      simp [small, Nat.shiftRight_eq_div_pow, Nat.div_eq_of_lt fits]
  have bit : ∀ k : Nat, (!value.toNat.testBit k) =
      (decide (64 ≤ k) || value >>> k.toUInt64 &&& 1 == 0) := by
    intro k
    by_cases small : k < 64
    · have low : (value >>> k.toUInt64 &&& 1 == 0) = (value.toNat >>> k &&& 1 == 0) := by
        rw [Bool.eq_iff_iff, beq_iff_eq, beq_iff_eq, ← shifted small, ← UInt64.toNat_inj,
          UInt64.toNat_and]
        rfl
      rw [low, decide_eq_false (not_le.2 small), Bool.false_or, Nat.testBit, Nat.and_comm, bne,
        Bool.not_not]
    · rw [Nat.testBit_lt_two_pow (beyond (not_lt.1 small)), decide_eq_true (not_lt.1 small)]
      rfl
  unfold zeroBits
  simp only [inRange, bit]

namespace ControlScope

theorem new_eq_ok_iff {lines : List Line} {value : Nat} {scope : ControlScope} :
    new lines value = .ok scope ↔ (Condition.mk lines value).WellFormed ∧
      scope = ⟨⟨lines⟩, (Condition.mk lines value).zeros⟩ := by
  constructor
  · intro made
    unfold new at made
    cases controls : AllOnesControl.new lines with
    | error e =>
      rw [controls] at made
      cases made
    | ok control =>
      obtain ⟨present, rfl⟩ := AllOnesControl.new_eq_ok controls
      rw [controls] at made
      simp only [Bind.bind, Except.bind] at made
      split at made
      · cases made
      · rename_i all
        have once := AllOnesControl.nodup_of_length_appendNew (not_not.1 all)
        cases positions : zeroBits value lines.length with
        | error e =>
          rw [positions] at made
          cases made
        | ok found =>
          obtain ⟨bound, rfl⟩ := zeroBits_eq_ok positions
          have kept : AllOnesControl.appendNew [] lines = lines :=
            AllOnesControl.appendNew_of_nodup once
          rw [positions, kept] at made
          cases made
          exact ⟨⟨present, once, bound⟩, rfl⟩
  · rintro ⟨wf, rfl⟩
    exact wf.scope_new

section Run

variable {R : Type} [AmplitudeScalar R] {sink : Sink R CircuitM}

/-- The sink turns the line over that it is given the bit flip for. -/
def Flips (sink : Sink R CircuitM) : Prop := ∀ line s, sink line .x s = .ok ((), s.flip line)

def flipping : Sink R CircuitM := fun line _ => modify fun s => s.flip line

theorem flips_flipping : Flips (flipping : Sink R CircuitM) := fun _ _ => rfl

theorem run_flip (flips : Flips sink) (scope : ControlScope) (s : BasisState) :
    scope.flip sink s = .ok ((), s.flipAll scope.toggles) := by
  have all : ∀ (lines : List Line) (s : BasisState),
      (lines.forM fun line => sink line .x) s = .ok ((), s.flipAll lines) := by
    intro lines
    induction lines with
    | nil => exact fun _ => rfl
    | cons line lines ih =>
      intro s
      rw [List.forM_eq_forM, List.forM_cons]
      rw [CircuitM.run_bind (flips line s)]
      exact ih (s.flip line)
  exact all scope.toggles s

theorem run_enter (flips : Flips sink) (scope : ControlScope) (s : BasisState) :
    scope.enter sink s = .ok (scope.control, s.flipAll scope.toggles) := by
  unfold enter
  rw [CircuitM.run_bind (run_flip flips scope s)]
  rfl

end Run

end ControlScope

namespace Condition

variable {c : Condition}

theorem WellFormed.flipAll_eq_one_iff (wf : c.WellFormed) (s : BasisState) :
    (∀ line ∈ c.lines, s.flipAll c.zeros line = true) ↔ s.read c.lines = c.value := by
  refine Iff.trans ?_ (wf.holds_iff s).symm
  refine forall₂_congr fun line _ => ?_
  rw [BasisState.flipAll_apply wf.nodup_zeros]
  cases s line <;> cases decide (line ∈ c.zeros) <;> simp

theorem WellFormed.flipAll_of_not_mem (wf : c.WellFormed) (s : BasisState) {line : Line}
    (other : line ∉ c.zeros) : s.flipAll c.zeros line = s line := by
  rw [BasisState.flipAll_apply wf.nodup_zeros, decide_eq_false other, Bool.xor_false]

theorem WellFormed.flipAll_flipAll (wf : c.WellFormed) (s : BasisState) :
    (s.flipAll c.zeros).flipAll c.zeros = s := by
  funext line
  rw [BasisState.flipAll_apply wf.nodup_zeros, BasisState.flipAll_apply wf.nodup_zeros,
    Bool.xor_assoc, Bool.xor_self, Bool.xor_false]

end Condition

/-- There is a scope for lines and a value exactly if there are lines, all different, and the value has
at most as many bits. Inside it, all of its lines read one exactly if they spelled the value before, the
highest bit first. Only the lines that it toggles have changed, and leaving it changes them back. -/
theorem ControlScope.new_selects (lines : List Line) (value : Nat) :
    ((∃ scope, ControlScope.new lines value = .ok scope) ↔
      lines ≠ [] ∧ lines.Nodup ∧ value < 2 ^ lines.length) ∧
    ∀ scope, ControlScope.new lines value = .ok scope →
      scope.control.lines = lines ∧ scope.toggles ⊆ lines ∧
      ∀ {R : Type} [AmplitudeScalar R] (sink : Sink R CircuitM), ControlScope.Flips sink →
        ∀ s : BasisState, ∃ inside : BasisState,
          scope.enter sink s = .ok (scope.control, inside) ∧
          ((∀ line ∈ scope.control.lines, inside line = true) ↔ s.read lines = value) ∧
          (∀ line, line ∉ scope.toggles → inside line = s line) ∧
          scope.exit sink inside = .ok ((), s) := by
  constructor
  · constructor
    · rintro ⟨scope, made⟩
      obtain ⟨wf, -⟩ := new_eq_ok_iff.1 made
      exact ⟨wf.present, wf.once, wf.bound⟩
    · rintro ⟨present, once, bound⟩
      exact ⟨_, new_eq_ok_iff.2 ⟨⟨present, once, bound⟩, rfl⟩⟩
  · intro scope made
    obtain ⟨wf, rfl⟩ := new_eq_ok_iff.1 made
    refine ⟨rfl, fun line zero => ?_, fun sink flips s => ?_⟩
    · obtain ⟨i, inside, rfl, -⟩ := Condition.mem_zeros_iff.1 zero
      exact List.getElem_mem inside
    · refine ⟨_, run_enter flips _ s, wf.flipAll_eq_one_iff s,
        fun line other => wf.flipAll_of_not_mem s other, ?_⟩
      refine (run_flip flips _ _).trans ?_
      rw [wf.flipAll_flipAll]

/-- A scope over 66 lines, more than a word has bits, for the value 5: the lines 63 and 65 are the ones
that are not toggled. -/
theorem ControlScope.new_selects_wide : ∃ scope, ControlScope.new (List.range 66) 5 = .ok scope ∧
    scope.toggles = List.range 63 ++ [64] ∧
    ∀ s : BasisState, ∃ inside : BasisState,
      scope.enter (flipping : Sink Float CircuitM) s = .ok (scope.control, inside) ∧
      ((∀ line ∈ scope.control.lines, inside line = true) ↔ s.read (List.range 66) = 5) ∧
      inside 65 = s 65 := by
  have made : ControlScope.new (List.range 66) 5 = .ok ⟨⟨List.range 66⟩, List.range 63 ++ [64]⟩ := by
    decide +kernel
  obtain ⟨-, -, selects⟩ := (ControlScope.new_selects (List.range 66) 5).2 _ made
  refine ⟨_, made, rfl, fun s => ?_⟩
  obtain ⟨inside, entered, fires, kept, -⟩ := selects (R := Float) flipping flips_flipping s
  exact ⟨inside, entered, fires, kept 65 (by decide +kernel)⟩

end QuantumLowering
