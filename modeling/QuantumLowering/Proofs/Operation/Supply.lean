import Mathlib.Data.Nat.Find
import QuantumLowering.Proofs.Operation.Freshness

namespace QuantumLowering.NameSupply

def searched (s : NameSupply) (base : String) : Nat := (s.tried.get? base).getD 0

/-- Every candidate that has been tried is taken. -/
def Exhausted (s : NameSupply) : Prop :=
  ∀ base k, k < s.searched base → candidate base k ∈ s.taken

/-- The first candidate for a base that is not in use. -/
structure FirstFree (used : List String) (base : String) (k : Nat) : Prop where
  free : candidate base k ∉ used
  least : ∀ j < k, candidate base j ∈ used

section Search

variable {s : NameSupply} {base : String} {more start k : Nat}

theorem isTaken_iff {name : String} : s.isTaken name = true ↔ name ∈ s.taken := by
  simp [isTaken]

/-- A search ends at the first free candidate if it may go on that long. -/
theorem firstFree_eq (free : candidate base k ∉ s.taken)
    (before : ∀ j, start ≤ j → j < k → candidate base j ∈ s.taken) (from_ : start ≤ k)
    (enough : k < start + more) : s.firstFree base more start = k := by
  induction more generalizing start with
  | zero => omega
  | succ more ih =>
    unfold firstFree
    by_cases here : start = k
    · subst here
      rw [if_neg (mt isTaken_iff.1 free)]
    · have taken := before start (Nat.le_refl _) (by omega)
      rw [if_pos (isTaken_iff.2 taken)]
      exact ih (fun j above below => before j (by omega) below) (by omega) (by omega)

/-- A search passes over at most as many candidates as there are taken names. -/
theorem exists_firstFree (exhausted : s.Exhausted) (base : String) :
    ∃ k, FirstFree s.taken base k ∧ s.searched base ≤ k ∧
      k ≤ s.searched base + s.taken.length := by
  classical
  have some_ : ∃ k, candidate base k ∉ s.taken :=
    let ⟨k, _, _, free⟩ := s.exists_free base 0
    ⟨k, free⟩
  obtain ⟨j, above, below, free⟩ := s.exists_free base (s.searched base)
  have first : FirstFree s.taken base (Nat.find some_) :=
    ⟨Nat.find_spec some_, fun i less => not_not.1 (Nat.find_min some_ less)⟩
  refine ⟨_, first, Nat.le_of_not_lt fun less => first.free (exhausted base _ less), ?_⟩
  have := Nat.find_min' some_ free
  omega

theorem fresh_eq (first : FirstFree s.taken base k) (above : s.searched base ≤ k)
    (below : k ≤ s.searched base + s.taken.length) :
    s.fresh base = (candidate base k, ⟨s.tried.insert base (k + 1), candidate base k :: s.taken⟩) := by
  have ends := firstFree_eq first.free (fun j _ less => first.least j less) above
    (show k < s.searched base + (s.taken.length + 1) by omega)
  rw [searched] at ends
  rw [fresh, ends]

theorem FirstFree.unique {used : List String} {j : Nat} (first : FirstFree used base k)
    (other : FirstFree used base j) : k = j := by
  rcases Nat.lt_trichotomy k j with less | same | less
  · exact absurd (other.least k less) first.free
  · exact same
  · exact absurd (first.least j less) other.free

theorem FirstFree.congr {used used' : List String} (first : FirstFree used base k)
    (same : ∀ name, name ∈ used ↔ name ∈ used') : FirstFree used' base k :=
  ⟨fun member => first.free ((same _).2 member), fun j less => (same _).1 (first.least j less)⟩

def forget (s : NameSupply) : NameSupply := ⟨.empty, s.taken⟩

theorem exhausted_forget (s : NameSupply) : s.forget.Exhausted :=
  fun _ _ less => absurd less (Nat.not_lt_zero _)

theorem fresh_forget (exhausted : s.Exhausted) (base : String) :
    (s.forget.fresh base).1 = (s.fresh base).1 := by
  obtain ⟨k, first, above, below⟩ := exists_firstFree exhausted base
  obtain ⟨j, other, above', below'⟩ := exists_firstFree s.exhausted_forget base
  rw [fresh_eq first above below, fresh_eq other above' below', other.unique first]

end Search

inductive Request where
  | reserve (name : String)
  | fresh (base : String)
deriving DecidableEq, Repr

namespace Request

def isFresh : Request → Bool
  | .reserve _ => false
  | .fresh _ => true

end Request

/-- A request and the name it put in use. -/
structure Served where
  request : Request
  name : String
deriving DecidableEq, Repr

def serve (s : NameSupply) : Request → String × NameSupply
  | .reserve name => (name, s.reserve name)
  | .fresh base => s.fresh base

def serveAll (s : NameSupply) : List Request → List Served × NameSupply
  | [] => ([], s)
  | request :: later =>
    let (name, next) := s.serve request
    let (log, last) := next.serveAll later
    (⟨request, name⟩ :: log, last)

section Serve

variable {s : NameSupply}

theorem mem_taken_serve (s : NameSupply) (request : Request) (name : String) :
    name ∈ (s.serve request).2.taken ↔ name = (s.serve request).1 ∨ name ∈ s.taken := by
  cases request with
  | reserve reserved =>
    have member : name ∈ ([reserved].foldl reserve s).taken ↔ name ∈ [reserved] ∨ name ∈ s.taken :=
      mem_taken_foldl_reserve
    simpa [serve] using member
  | fresh base => exact List.mem_cons

theorem searched_reserve (s : NameSupply) (name base : String) :
    (s.reserve name).searched base = s.searched base := by
  unfold reserve
  split <;> rfl

theorem Exhausted.serve (exhausted : s.Exhausted) (request : Request) :
    (s.serve request).2.Exhausted := by
  intro base k less
  rw [mem_taken_serve]
  cases request with
  | reserve name =>
    rw [NameSupply.serve, searched_reserve] at less
    exact .inr (exhausted base k less)
  | fresh other =>
    obtain ⟨last, first, above, below⟩ := exists_firstFree exhausted other
    rw [NameSupply.serve, fresh_eq first above below] at less ⊢
    simp only [searched, Dictionary.get?_insert] at less
    split at less
    case isTrue same =>
      subst same
      rw [Option.getD_some] at less
      rcases Nat.lt_succ_iff_lt_or_eq.1 less with earlier | rfl
      · exact .inr (first.least k earlier)
      · exact .inl rfl
    case isFalse => exact .inr (exhausted base k less)

theorem Exhausted.serveAll (exhausted : s.Exhausted) (requests : List Request) :
    (s.serveAll requests).2.Exhausted := by
  induction requests generalizing s with
  | nil => exact exhausted
  | cons request later ih => exact ih (exhausted.serve request)

theorem mem_taken_serveAll (s : NameSupply) (requests : List Request) (name : String) :
    name ∈ (s.serveAll requests).2.taken ↔
      name ∈ (s.serveAll requests).1.map Served.name ∨ name ∈ s.taken := by
  induction requests generalizing s with
  | nil => simp [serveAll]
  | cons request later ih =>
    simp only [serveAll, List.map_cons, List.mem_cons]
    rw [ih, mem_taken_serve]
    tauto

theorem serve_fresh_not_mem {request : Request} (fresh : request.isFresh) (s : NameSupply) :
    (s.serve request).1 ∉ s.taken := by
  cases request with
  | reserve => cases fresh
  | fresh base => exact s.fresh_not_mem base

theorem serveAll_fresh_not_mem (s : NameSupply) (requests : List Request) :
    ∀ served ∈ (s.serveAll requests).1, served.request.isFresh → served.name ∉ s.taken := by
  induction requests generalizing s with
  | nil => simp [serveAll]
  | cons request later ih =>
    intro served member fresh taken
    rcases List.mem_cons.1 member with rfl | member
    · exact serve_fresh_not_mem fresh s taken
    · exact ih _ served member fresh ((mem_taken_serve s request _).2 (.inr taken))

theorem serveAll_pairwise (s : NameSupply) (requests : List Request) :
    (s.serveAll requests).1.Pairwise fun before after =>
      after.request.isFresh → after.name ≠ before.name := by
  induction requests generalizing s with
  | nil => exact .nil
  | cons request later ih =>
    refine .cons (fun served member fresh same => ?_) (ih _)
    exact serveAll_fresh_not_mem _ later served member fresh
      ((mem_taken_serve s request _).2 (.inl same))

end Serve

/-- Whatever was asked of a supply before, a fresh name is the first candidate for its base that is
not in use. The search that starts behind the candidates tried before ends there, however long it may
go on, and passes over no more candidates than there are taken names; a supply that starts all over
gives the same name. The name is taken from then on and no other name changes its standing. No fresh
name was in use before. -/
theorem fresh_firstFree (requests : List Request) (base : String) :
    let log := (empty.serveAll requests).1
    let s := (empty.serveAll requests).2
    (∃ k, FirstFree (log.map Served.name) base k ∧ (s.fresh base).1 = candidate base k ∧
      s.searched base ≤ k ∧ k ≤ s.searched base + s.taken.length ∧
      ∀ more, k < s.searched base + more → s.firstFree base more (s.searched base) = k) ∧
    (s.fresh base).1 = (s.forget.fresh base).1 ∧
    (∀ name, s.isTaken name ↔ name ∈ log.map Served.name) ∧
    (∀ name, (s.fresh base).2.isTaken name ↔ name = (s.fresh base).1 ∨ s.isTaken name) ∧
    log.Pairwise fun before after => after.request.isFresh → after.name ≠ before.name := by
  intro log s
  have used : ∀ name, name ∈ s.taken ↔ name ∈ log.map Served.name := by
    intro name
    have noneBefore : name ∉ empty.taken := List.not_mem_nil
    rw [mem_taken_serveAll, or_iff_left noneBefore]
  have exhausted : s.Exhausted := empty.exhausted_forget.serveAll requests
  obtain ⟨k, first, above, below⟩ := exists_firstFree exhausted base
  refine ⟨⟨k, first.congr used, ?_, above, below, fun more enough => ?_⟩,
    (fresh_forget exhausted base).symm, fun name => ?_, fun name => ?_, serveAll_pairwise _ _⟩
  · rw [fresh_eq first above below]
  · exact firstFree_eq first.free (fun j _ less => first.least j less) above enough
  · rw [isTaken_iff, used]
  · rw [isTaken_iff, isTaken_iff]
    exact List.mem_cons

example : ((empty.serveAll [.fresh "x_1", .reserve "x_2", .fresh "x", .fresh "x"]).1.map
    Served.name) = ["x_1", "x_2", "x", "x_3"] := by
  decide +kernel

end QuantumLowering.NameSupply
