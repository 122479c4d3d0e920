import QuantumLowering.Proofs.Circuit.Scopes

namespace QuantumLowering

namespace AllOnesControl

theorem appendNew_append (kept xs ys : List Line) :
    appendNew kept (xs ++ ys) = appendNew (appendNew kept xs) ys := by
  simp [appendNew, List.foldl_append]

theorem appendNew_of_subset {kept lines : List Line} (old : lines ⊆ kept) :
    appendNew kept lines = kept := by
  induction lines with
  | nil => rfl
  | cons first lines ih =>
    have rest := ih fun line member => old (List.mem_cons_of_mem _ member)
    rw [appendNew, List.foldl_cons, if_pos (old List.mem_cons_self)]
    exact rest

theorem appendNew_appendNew (kept xs ys : List Line) :
    appendNew kept (appendNew xs ys) = appendNew (appendNew kept xs) ys := by
  induction ys generalizing xs with
  | nil => rfl
  | cons first ys ih =>
    have step : ∀ lines, appendNew lines (first :: ys) =
        appendNew (if first ∈ lines then lines else lines ++ [first]) ys := fun _ => rfl
    rw [step, step, ih]
    congr 1
    by_cases old : first ∈ xs
    · rw [if_pos old, if_pos (mem_appendNew.2 (.inr old))]
    · rw [if_neg old, appendNew_append]
      rfl

theorem appendNew_eq_append_filter {kept lines : List Line} (once : lines.Nodup) :
    appendNew kept lines = kept ++ lines.filter fun line => line ∉ kept := by
  induction lines generalizing kept with
  | nil => simp [appendNew]
  | cons first lines ih =>
    rw [List.nodup_cons] at once
    rw [appendNew, List.foldl_cons]
    apply (ih once.2).trans
    by_cases old : first ∈ kept
    · simp [old]
    · have others : (lines.filter fun line => line ∉ kept ++ [first]) =
          lines.filter fun line => line ∉ kept := by
        apply List.filter_congr
        intro line member
        have other : line ≠ first := fun same => once.1 (same ▸ member)
        simp [other]
      rw [if_neg old, others]
      simp [old]

/-- A control put together from lines, which came in this order. -/
inductive Built : List Line → AllOnesControl → Prop where
  | new {lines : List Line} {c : AllOnesControl} (made : new lines = .ok c) : Built lines c
  | and {xs ys : List Line} {c d : AllOnesControl} (first : Built xs c) (second : Built ys d) :
      Built (xs ++ ys) (c.and d)
  | extend {lines : List Line} {c : AllOnesControl} (more : List Line) (built : Built lines c) :
      Built (lines ++ more) (c.extend more)

theorem new_eq_ok_iff {lines : List Line} {c : AllOnesControl} :
    new lines = .ok c ↔ lines ≠ [] ∧ c = ⟨appendNew [] lines⟩ := by
  constructor
  · exact new_eq_ok
  · intro ⟨present, made⟩
    rw [made]
    cases lines with
    | nil => exact absurd rfl present
    | cons first lines =>
      have listed : first ∈ appendNew [] (first :: lines) :=
        mem_appendNew.2 (.inr List.mem_cons_self)
      unfold new
      split
      · rename_i none
        rw [none] at listed
        cases listed
      · rfl

theorem new_append {xs : List Line} {c : AllOnesControl} (made : new xs = .ok c)
    (ys : List Line) : new (xs ++ ys) = .ok (c.extend ys) := by
  rw [new_eq_ok_iff] at made ⊢
  rw [made.2, extend, appendNew_append]
  exact ⟨List.append_ne_nil_of_left_ne_nil made.1 ys, rfl⟩

namespace Built

variable {xs ys : List Line} {c d : AllOnesControl}

theorem new_eq (built : Built xs c) : AllOnesControl.new xs = .ok c := by
  induction built with
  | new made => exact made
  | @and xs ys c d first second ih₁ ih₂ =>
    have joined : c.and d = c.extend ys := by
      rw [(new_eq_ok_iff.1 ih₁).2, (new_eq_ok_iff.1 ih₂).2, AllOnesControl.and, AllOnesControl.extend,
        appendNew_appendNew]
      rfl
    rw [joined]
    exact new_append ih₁ ys
  | extend more _ ih => exact new_append ih more

theorem lines_eq (built : Built xs c) : c.lines = appendNew [] xs := by
  rw [(new_eq_ok_iff.1 built.new_eq).2]

theorem mem_lines (built : Built xs c) {line : Line} : line ∈ c.lines ↔ line ∈ xs := by
  rw [built.lines_eq, mem_appendNew]
  simp

theorem lines_ne_nil (built : Built xs c) : c.lines ≠ [] := by
  have present := (new_eq_ok_iff.1 built.new_eq).1
  intro none
  apply present
  apply List.eq_nil_iff_forall_not_mem.2
  intro line member
  have listed := built.mem_lines.2 member
  rw [none] at listed
  cases listed

theorem nodup_lines (built : Built xs c) : c.lines.Nodup := by
  rw [built.lines_eq]
  exact nodup_appendNew .nil

theorem perm_and (first : Built xs c) (second : Built ys d) :
    (c.and d).lines.Perm (d.and c).lines := by
  apply (List.perm_ext_iff_of_nodup (first.and second).nodup_lines
    (second.and first).nodup_lines).2
  intro line
  rw [(first.and second).mem_lines, (second.and first).mem_lines, List.mem_append, List.mem_append]
  exact or_comm

end Built

/-- All lines of the control read one. -/
def Fires (c : AllOnesControl) (s : BasisState) : Prop := ∀ line ∈ c.lines, s line = true

theorem fires_and (c d : AllOnesControl) (s : BasisState) :
    (c.and d).Fires s ↔ c.Fires s ∧ d.Fires s := by
  simp only [Fires, AllOnesControl.and, mem_appendNew, or_imp, forall_and]

/-- Controls are ordered sets of lines. Whatever sequence of operations a control comes from, it is the
one made from all the lines in the order they came in, and it has lines, each once. Joining controls is
associative, idempotent and absorbing, keeps the lines of the first in front of what is new in the
second, gives the same lines the other way round, and fires exactly if both do. -/
theorem and_orderedUnion :
    (∀ lines c, Built lines c → new lines = .ok c ∧ c.lines ≠ [] ∧ c.lines.Nodup) ∧
    (∀ a b c : AllOnesControl, (a.and b).and c = a.and (b.and c)) ∧
    (∀ a : AllOnesControl, a.and a = a) ∧
    (∀ a b : AllOnesControl, (a.and b).and a = a.and b) ∧
    (∀ xs ys a b, Built xs a → Built ys b →
      (a.and b).lines = a.lines ++ b.lines.filter (fun line => line ∉ a.lines) ∧
      (a.and b).lines.Perm (b.and a).lines) ∧
    (∀ (a b : AllOnesControl) (s : BasisState), (a.and b).Fires s ↔ a.Fires s ∧ b.Fires s) ∧
    ∀ xs ys a, new xs = .ok a → new (xs ++ ys) = .ok (a.extend ys) := by
  refine ⟨?built, ?assoc, ?idempotent, ?absorbs, ?order, fires_and, ?extended⟩
  case built =>
    intro lines c built
    exact ⟨built.new_eq, built.lines_ne_nil, built.nodup_lines⟩
  case assoc =>
    intro a b c
    simp only [AllOnesControl.and, appendNew_appendNew]
  case idempotent =>
    intro a
    rw [AllOnesControl.and, appendNew_of_subset (List.Subset.refl a.lines)]
  case absorbs =>
    intro a b
    have old : a.lines ⊆ (a.and b).lines := fun line member => mem_appendNew.2 (.inl member)
    rw [AllOnesControl.and, appendNew_of_subset old]
  case order =>
    intro xs ys a b first second
    exact ⟨appendNew_eq_append_filter second.nodup_lines, first.perm_and second⟩
  case extended =>
    intro xs ys a made
    exact new_append made ys

/-- Two controls that share a line, joined and then extended by a line that is there and one that is
not. -/
theorem and_orderedUnion_shared : ∃ a b : AllOnesControl,
    Built [2, 0, 2] a ∧ Built [0, 5] b ∧ (a.and b).lines = [2, 0, 5] ∧ (b.and a).lines = [0, 5, 2] ∧
    new [2, 0, 2, 0, 5, 2, 7] = .ok ((a.and b).extend [2, 7]) ∧
    ((a.and b).extend [2, 7]).lines.Nodup ∧
    new ([2, 0, 2] ++ [0, 7]) = .ok (a.extend [0, 7]) := by
  obtain ⟨made, -, -, -, order, -, extended⟩ := and_orderedUnion
  have first : Built [2, 0, 2] ⟨[2, 0]⟩ := .new (by decide)
  have second : Built [0, 5] ⟨[0, 5]⟩ := .new (by decide)
  obtain ⟨joined, -, once⟩ := made _ _ ((first.and second).extend [2, 7])
  exact ⟨_, _, first, second, (order _ _ _ _ first second).1, (order _ _ _ _ second first).1, joined,
    once, extended _ _ _ first.new_eq⟩

end AllOnesControl

end QuantumLowering
