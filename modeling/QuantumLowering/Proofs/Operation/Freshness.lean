import Mathlib.Data.List.Nodup
import Mathlib.Data.List.Perm.Subperm
import QuantumLowering.Operation.Names

namespace QuantumLowering.NameSupply

theorem repr_injective {m n : Nat} (same : Nat.repr m = Nat.repr n) : m = n := by
  have digits := congrArg (fun s : String => Nat.ofDigitChars 10 s.toList 0) same
  simpa using digits

theorem length_candidate (base : String) {k : Nat} (later : k ≠ 0) :
    base.length < (candidate base k).length := by
  rw [candidate, if_neg later, String.length_append, String.length_append]
  have : "_".length = 1 := rfl
  omega

theorem candidate_injective {base : String} {j k : Nat} (same : candidate base j = candidate base k) :
    j = k := by
  by_cases first : j = 0
  · by_cases second : k = 0
    · rw [first, second]
    · have longer := length_candidate base second
      rw [← same, first] at longer
      exact absurd longer (Nat.lt_irrefl _)
  · by_cases second : k = 0
    · have longer := length_candidate base first
      rw [same, second] at longer
      exact absurd longer (Nat.lt_irrefl _)
    · rw [candidate, candidate, if_neg first, if_neg second] at same
      refine repr_injective (String.toList_injective ?_)
      have lists := congrArg String.toList same
      simp only [String.toList_append] at lists
      exact List.append_cancel_left lists

theorem exists_free (s : NameSupply) (base : String) (k : Nat) :
    ∃ j, k ≤ j ∧ j < k + (s.taken.length + 1) ∧ candidate base j ∉ s.taken := by
  by_contra! all
  have tried : ((List.range (s.taken.length + 1)).map fun i => candidate base (k + i)).Nodup := by
    refine List.Nodup.map (fun i j same => ?_) List.nodup_range
    have := candidate_injective same
    omega
  have inside : (List.range (s.taken.length + 1)).map (fun i => candidate base (k + i)) ⊆ s.taken := by
    intro name member
    obtain ⟨i, bound, rfl⟩ := List.mem_map.1 member
    have := List.mem_range.1 bound
    exact all (k + i) (by omega) (by omega)
  have fewer := (tried.subperm inside).length_le
  rw [List.length_map, List.length_range] at fewer
  omega

theorem candidate_firstFree {s : NameSupply} {base : String} {more k : Nat}
    (enough : ∃ j, k ≤ j ∧ j < k + more ∧ candidate base j ∉ s.taken) :
    candidate base (s.firstFree base more k) ∉ s.taken := by
  induction more generalizing k with
  | zero =>
    obtain ⟨j, above, below, -⟩ := enough
    omega
  | succ more ih =>
    unfold firstFree
    split
    · rename_i taken
      obtain ⟨j, above, below, free⟩ := enough
      have next : j ≠ k := by
        rintro rfl
        exact free (by simpa [isTaken] using taken)
      exact ih ⟨j, by omega, by omega, free⟩
    · rename_i free
      simpa [isTaken] using free

theorem fresh_not_mem (s : NameSupply) (base : String) : (s.fresh base).1 ∉ s.taken :=
  candidate_firstFree (exists_free s base _)

theorem mem_taken_foldl_reserve {names : List String} {s : NameSupply} {x : String} :
    x ∈ (names.foldl reserve s).taken ↔ x ∈ names ∨ x ∈ s.taken := by
  induction names generalizing s with
  | nil => simp
  | cons name names ih =>
    have here : x ∈ (s.reserve name).taken ↔ x = name ∨ x ∈ s.taken := by
      unfold reserve
      split
      · rename_i taken
        have listed : name ∈ s.taken := by simpa [isTaken] using taken
        constructor
        · exact .inr
        · rintro (rfl | member)
          · exact listed
          · exact member
      · simp
    rw [List.foldl_cons, ih, here, List.mem_cons]
    grind

/-- Between the two supplies the names are handed out, in this order. -/
inductive Issues : NameSupply → List String → NameSupply → Prop where
  | done (s : NameSupply) : Issues s [] s
  | next {s s' : NameSupply} {names : List String} (base : String)
    (rest : Issues (s.fresh base).2 names s') : Issues s ((s.fresh base).1 :: names) s'

namespace Issues

variable {s s' s'' : NameSupply} {names more : List String}

theorem append (first : Issues s names s') (second : Issues s' more s'') :
    Issues s (names ++ more) s'' := by
  induction first with
  | done => exact second
  | next base _ ih => exact .next base (ih second)

theorem append_map {α : Type} {f : α → String} {xs ys : List α} (first : Issues s (xs.map f) s')
    (second : Issues s' (ys.map f) s'') : Issues s ((xs ++ ys).map f) s'' := by
  rw [List.map_append]
  exact first.append second

theorem mem_taken (issues : Issues s names s') {x : String} :
    x ∈ s'.taken ↔ x ∈ names ∨ x ∈ s.taken := by
  induction issues with
  | done => simp
  | @next s s' names base _ ih =>
    have here : x ∈ (s.fresh base).2.taken ↔ x = (s.fresh base).1 ∨ x ∈ s.taken := List.mem_cons
    rw [ih, here, List.mem_cons]
    grind

theorem not_mem (issues : Issues s names s') {x : String} (member : x ∈ names) : x ∉ s.taken := by
  induction issues with
  | done => cases member
  | @next s s' names base _ ih =>
    rcases List.mem_cons.1 member with rfl | member
    · exact s.fresh_not_mem base
    · exact fun taken => ih member (List.mem_cons_of_mem _ taken)

theorem taken_eq (issues : Issues s names s') : s'.taken = names.reverse ++ s.taken := by
  induction issues with
  | done => rfl
  | @next s s' names base _ ih =>
    have here : (s.fresh base).2.taken = (s.fresh base).1 :: s.taken := rfl
    rw [ih, here, List.reverse_cons, List.append_assoc, List.singleton_append]

theorem singleton (s : NameSupply) (base : String) : Issues s [(s.fresh base).1] (s.fresh base).2 :=
  .next base (.done _)

theorem nodup (issues : Issues s names s') : names.Nodup := by
  induction issues with
  | done => exact List.nodup_nil
  | next base rest ih =>
    refine List.nodup_cons.2 ⟨fun again => ?_, ih⟩
    exact rest.not_mem again List.mem_cons_self

end Issues

end QuantumLowering.NameSupply
