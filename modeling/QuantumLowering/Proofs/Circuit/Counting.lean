import Mathlib.Algebra.GroupWithZero.Nat
import Mathlib.Algebra.Order.BigOperators.Group.List
import Mathlib.Data.List.MinMax
import Mathlib.Data.Prod.Lex
import QuantumLowering.Circuit.Outcome
import QuantumLowering.Proofs.Text.ByteOrder

namespace QuantumLowering

namespace Outcome

/-- The sum of the counts that a bit string is listed with. -/
def countOf (counts : List (String × Nat)) (bits : String) : Nat :=
  ((counts.filter fun entry => entry.1 = bits).map Prod.snd).sum

theorem ofCounts_concat (counts : List (String × Nat)) (last : String × Nat) :
    ofCounts (counts ++ [last]) = (ofCounts counts).insert last.1 last.2 := by
  simp [ofCounts]

theorem countOf_concat (counts : List (String × Nat)) (last : String × Nat) (bits : String) :
    countOf (counts ++ [last]) bits = countOf counts bits + if last.1 = bits then last.2 else 0 := by
  unfold countOf
  rw [List.filter_append, List.map_append, List.sum_append]
  by_cases same : last.1 = bits
  · simp [same]
  · simp [same]

theorem countOf_perm {xs ys : List (String × Nat)} (permuted : xs.Perm ys) (bits : String) :
    countOf xs bits = countOf ys bits :=
  ((permuted.filter _).map Prod.snd).sum_nat

theorem get_insert (o : Outcome) (bits : String) (count : Nat) (other : String) :
    (o.insert bits count).get other = o.get other + if bits = other then count else 0 := by
  rw [get, insert, Dictionary.get?_insert]
  by_cases same : other = bits
  · simp [same]
  · simp [same, Ne.symm same, get]

theorem get_ofCounts (counts : List (String × Nat)) (bits : String) :
    (ofCounts counts).get bits = countOf counts bits := by
  induction counts using List.reverseRecOn with
  | nil => rfl
  | append_singleton counts last ih => rw [ofCounts_concat, get_insert, ih, countOf_concat]

theorem get?_ofCounts (counts : List (String × Nat)) (bits : String) :
    (ofCounts counts).counts.get? bits =
      if bits ∈ counts.map Prod.fst then some (countOf counts bits) else none := by
  induction counts using List.reverseRecOn with
  | nil => rfl
  | append_singleton counts last ih =>
    rw [ofCounts_concat, insert, Dictionary.get?_insert, get_ofCounts, ih, countOf_concat]
    by_cases same : bits = last.1
    · simp [same]
    · have listed : bits ∈ (counts ++ [last]).map Prod.fst ↔ bits ∈ counts.map Prod.fst := by
        rw [List.map_append, List.mem_append]
        simp [same]
      simp only [same, Ne.symm same, if_false, Nat.add_zero, listed]

theorem mem_all_ofCounts {counts : List (String × Nat)} {bits : String} {count : Nat} :
    (bits, count) ∈ (ofCounts counts).all ↔
      bits ∈ counts.map Prod.fst ∧ count = countOf counts bits := by
  rw [all, Dictionary.mem_entries, get?_ofCounts]
  by_cases listed : bits ∈ counts.map Prod.fst
  · rw [if_pos listed, Option.some_inj]
    constructor
    · exact fun same => ⟨listed, same.symm⟩
    · exact fun h => h.2.symm
  · rw [if_neg listed]
    constructor
    · intro impossible
      cases impossible
    · exact fun h => absurd h.1 listed

theorem ofCounts_perm {xs ys : List (String × Nat)} (permuted : xs.Perm ys) :
    ofCounts xs = ofCounts ys := by
  have same : (ofCounts xs).counts = (ofCounts ys).counts := by
    apply Dictionary.ext_get?
    intro bits
    have listed : bits ∈ xs.map Prod.fst ↔ bits ∈ ys.map Prod.fst := (permuted.map _).mem_iff
    simp only [get?_ofCounts, countOf_perm permuted, listed]
  exact congrArg Outcome.mk same

theorem sum_insertEntry {entries : List (String × Nat)}
    (sorted : entries.Pairwise fun a b => a.1 < b.1) (bits : String) (count : Nat) :
    ((Dictionary.insertEntry bits ((entries.lookup bits).getD 0 + count) entries).map
      Prod.snd).sum = (entries.map Prod.snd).sum + count := by
  induction entries with
  | nil => simp [Dictionary.insertEntry]
  | cons head rest ih =>
    rw [Dictionary.insertEntry]
    by_cases before : bits < head.1
    · have new : (head :: rest).lookup bits = none := by
        apply List.lookup_eq_none_iff.2
        intro entry listed
        apply bne_iff_ne.2
        rcases List.mem_cons.1 listed with rfl | later
        · exact ne_of_lt before
        · exact ne_of_lt (lt_trans before (List.rel_of_pairwise_cons sorted later))
      rw [if_pos before, new]
      simp only [List.map_cons, List.sum_cons, Option.getD_none]
      omega
    · rw [if_neg before, List.lookup_cons]
      by_cases same : bits = head.1
      · simp only [same, BEq.rfl, if_true, List.map_cons, List.sum_cons, Option.getD_some]
        omega
      · simp only [beq_eq_false_iff_ne.2 same, if_neg same, List.map_cons, List.sum_cons,
          ih sorted.of_cons]
        omega

theorem total_insert (o : Outcome) (bits : String) (count : Nat) :
    (o.insert bits count).total = o.total + count :=
  sum_insertEntry o.counts.sorted bits count

theorem total_ofCounts (counts : List (String × Nat)) :
    (ofCounts counts).total = (counts.map Prod.snd).sum := by
  induction counts using List.reverseRecOn with
  | nil => rfl
  | append_singleton counts last ih => simp [ofCounts_concat, total_insert, ih]

theorem countOf_le_sum (counts : List (String × Nat)) (bits : String) :
    countOf counts bits ≤ (counts.map Prod.snd).sum :=
  (List.filter_sublist.map Prod.snd).sum_le_sum fun _ _ => Nat.zero_le _

def addWord (a b : Nat) : Option Nat := if a + b < UInt64.size then some (a + b) else none

def insertWord (o : Outcome) (bits : String) (count : Nat) : Option Outcome :=
  (addWord (o.get bits) count).map fun sum => ⟨o.counts.insert bits sum⟩

theorem foldlM_insertWord {counts : List (String × Nat)}
    (fits : (counts.map Prod.snd).sum < UInt64.size) :
    counts.foldlM (fun o entry => insertWord o entry.1 entry.2) empty =
      some (ofCounts counts) := by
  induction counts using List.reverseRecOn with
  | nil => rfl
  | append_singleton counts last ih =>
    rw [List.map_append, List.sum_append, List.map_singleton, List.sum_singleton] at fits
    have bound := countOf_le_sum counts last.1
    have step : addWord ((ofCounts counts).get last.1) last.2 =
        some ((ofCounts counts).get last.1 + last.2) := by
      rw [get_ofCounts]
      exact if_pos (by omega)
    rw [List.foldlM_append, ih (by omega), ofCounts_concat]
    simp only [List.foldlM_cons, List.foldlM_nil, Option.bind_eq_bind, Option.bind_some,
      insertWord, step, Option.map_some, insert]
    rfl

theorem foldlM_addWord {entries : List (String × Nat)} {sum : Nat}
    (fits : sum + (entries.map Prod.snd).sum < UInt64.size) :
    entries.foldlM (fun sum entry => addWord sum entry.2) sum =
      some (sum + (entries.map Prod.snd).sum) := by
  induction entries generalizing sum with
  | nil => rfl
  | cons first rest ih =>
    rw [List.map_cons, List.sum_cons] at fits ⊢
    have step : addWord sum first.2 = some (sum + first.2) := if_pos (by omega)
    rw [List.foldlM_cons, step, Option.bind_eq_bind, Option.bind_some, ih (by omega), Nat.add_assoc]

/-- Entries in the order of their counts, the highest first, and of their bit strings among equal
counts. -/
def rank (entry : String × Nat) : ℕᵒᵈ ×ₗ String := toLex (OrderDual.toDual entry.2, entry.1)

theorem rank_lt_iff {a b : String × Nat} :
    rank a < rank b ↔ b.2 < a.2 ∨ a.2 = b.2 ∧ a.1 < b.1 := by
  simp [rank, Prod.Lex.toLex_lt_toLex]

theorem rank_le_iff {a b : String × Nat} :
    rank a ≤ rank b ↔ b.2 < a.2 ∨ b.2 = a.2 ∧ a.1 ≤ b.1 := by
  simp [rank, Prod.Lex.toLex_le_toLex, eq_comm]

theorem rank_injective : Function.Injective rank := by
  intro a b same
  have parts := Prod.ext_iff.1 (toLex_inj.1 same)
  exact Prod.ext parts.2 (OrderDual.toDual_inj.1 parts.1)

def lastMax {α : Type} (order : α → α → Ordering) (entries : List α) : Option α :=
  entries.foldl (fun best next =>
    match best with
    | none => some next
    | some found => if order found next = .gt then some found else some next) none

def byCount (a b : String × Nat) : Ordering :=
  (compare a.2 b.2).then (compareOfLessAndEq (utf8Bytes b.1) (utf8Bytes a.1))

theorem byCount_eq_gt_iff {a b : String × Nat} : byCount a b = .gt ↔ rank a < rank b := by
  have bytes : compareOfLessAndEq (utf8Bytes b.1) (utf8Bytes a.1) = .gt ↔ a.1 < b.1 :=
    (compareOfLessAndEq_eq_gt List.le_antisymm List.le_total List.not_le _ _).trans utf8Bytes_lt_iff
  rw [byCount, Ordering.then_eq_gt, Nat.compare_eq_gt, Nat.compare_eq_eq, bytes, rank_lt_iff]

theorem mostFrequent_eq_argmin (o : Outcome) : o.mostFrequent = o.all.argmin rank := by
  have step : ∀ a b, precedes a b = decide (rank a < rank b) := by
    intro a b
    rw [Bool.eq_iff_iff, decide_eq_true_iff, rank_lt_iff]
    simp [precedes]
  unfold mostFrequent List.argmin
  congr 1
  funext best entry
  cases best with
  | none => rfl
  | some found => simp [List.argAux, step]

theorem lastMax_byCount (entries : List (String × Nat)) :
    lastMax byCount entries = entries.argmin rank := by
  unfold lastMax List.argmin
  congr 1
  funext best next
  cases best with
  | none => rfl
  | some found =>
    simp only [List.argAux, byCount_eq_gt_iff]
    rcases lt_trichotomy (rank found) (rank next) with before | same | after
    · rw [if_pos before, if_neg (lt_asymm before)]
    · rw [rank_injective same, ite_self]
    · rw [if_neg (lt_asymm after), if_pos after]

theorem argmin_rank_eq_some_iff {entries : List (String × Nat)} {best : String × Nat} :
    entries.argmin rank = some best ↔
      best ∈ entries ∧ ∀ entry ∈ entries, rank best ≤ rank entry := by
  rw [List.argmin_eq_some_iff]
  constructor
  · exact fun h => ⟨h.1, h.2.1⟩
  · intro ⟨listed, least⟩
    refine ⟨listed, least, ?_⟩
    intro entry other tied
    have same := rank_injective (le_antisymm tied (least entry other))
    rw [same]

theorem argmin_rank_perm {xs ys : List (String × Nat)} (permuted : xs.Perm ys) :
    xs.argmin rank = ys.argmin rank := by
  apply Option.ext
  intro best
  simp only [argmin_rank_eq_some_iff, permuted.mem_iff]

theorem mostFrequent_ofCounts_eq_none_iff {counts : List (String × Nat)} :
    (ofCounts counts).mostFrequent = none ↔ counts = [] := by
  rw [mostFrequent_eq_argmin, List.argmin_eq_none]
  constructor
  · intro none
    apply List.eq_nil_iff_forall_not_mem.2
    intro entry listed
    have seen : (entry.1, countOf counts entry.1) ∈ (ofCounts counts).all :=
      mem_all_ofCounts.2 ⟨List.mem_map_of_mem listed, rfl⟩
    rw [none] at seen
    cases seen
  · intro none
    rw [none]
    rfl

theorem mostFrequent_ofCounts_eq_some_iff {counts : List (String × Nat)} {bits : String}
    {count : Nat} : (ofCounts counts).mostFrequent = some (bits, count) ↔
      bits ∈ counts.map Prod.fst ∧ count = countOf counts bits ∧
      ∀ other ∈ counts.map Prod.fst, countOf counts other < count ∨
        countOf counts other = count ∧ utf8Bytes bits ≤ utf8Bytes other := by
  rw [mostFrequent_eq_argmin, argmin_rank_eq_some_iff, mem_all_ofCounts, and_assoc]
  simp only [utf8Bytes_le_iff]
  apply and_congr_right
  intro _
  apply and_congr_right
  intro _
  constructor
  · intro least other listed
    exact rank_le_iff.1 (least (other, countOf counts other) (mem_all_ofCounts.2 ⟨listed, rfl⟩))
  · intro least (other, often) seen
    obtain ⟨listed, rfl⟩ := mem_all_ofCounts.1 seen
    exact rank_le_iff.2 (least _ listed)

/-- Counts that sum up to less than a machine word holds can be listed in any order. The outcome is
the same and no addition on the way to it overflows. It gives for a bit string the sum of the counts
listed for it, and in total the sum of all counts. The bit string seen most often is the one of the
largest sum that has the smallest bytes, and there is none only if nothing is listed. It is found, and
the total does not overflow, whatever the order is in which the entries are visited. -/
theorem ofCounts_orderFree (counts : List (String × Nat))
    (fits : (counts.map Prod.snd).sum < UInt64.size) :
    (∀ listed, listed.Perm counts → ofCounts listed = ofCounts counts ∧
      listed.foldlM (fun o entry => insertWord o entry.1 entry.2) empty =
        some (ofCounts counts)) ∧
    (∀ bits, (ofCounts counts).get bits = countOf counts bits) ∧
    (ofCounts counts).total = (counts.map Prod.snd).sum ∧
    ((ofCounts counts).mostFrequent = none ↔ counts = []) ∧
    (∀ bits count, (ofCounts counts).mostFrequent = some (bits, count) ↔
      bits ∈ counts.map Prod.fst ∧ count = countOf counts bits ∧
      ∀ other ∈ counts.map Prod.fst, countOf counts other < count ∨
        countOf counts other = count ∧ utf8Bytes bits ≤ utf8Bytes other) ∧
    ∀ visited, visited.Perm (ofCounts counts).all →
      lastMax byCount visited = (ofCounts counts).mostFrequent ∧
      visited.foldlM (fun sum entry => addWord sum entry.2) 0 =
        some (ofCounts counts).total := by
  refine ⟨?listed, get_ofCounts counts, total_ofCounts counts, mostFrequent_ofCounts_eq_none_iff,
    fun _ _ => mostFrequent_ofCounts_eq_some_iff, ?visited⟩
  case listed =>
    intro listed permuted
    have sums : (listed.map Prod.snd).sum = (counts.map Prod.snd).sum :=
      (permuted.map Prod.snd).sum_nat
    rw [foldlM_insertWord (sums.trans_lt fits), ofCounts_perm permuted]
    exact ⟨rfl, rfl⟩
  case visited =>
    intro visited permuted
    have sums : (visited.map Prod.snd).sum = (ofCounts counts).total :=
      (permuted.map Prod.snd).sum_nat
    have bound : 0 + (visited.map Prod.snd).sum < UInt64.size := by
      rw [Nat.zero_add, sums, total_ofCounts]
      exact fits
    rw [lastMax_byCount, argmin_rank_perm permuted, mostFrequent_eq_argmin, foldlM_addWord bound,
      Nat.zero_add, sums]
    exact ⟨rfl, rfl⟩

/-- Two bit strings that are seen as often, one of them in two parts, and one that is not seen. -/
theorem ofCounts_orderFree_tied :
    let counts := [("10", 2), ("01", 3), ("00", 0), ("10", 1)]
    (counts.map Prod.snd).sum < UInt64.size ∧
      ofCounts [("10", 1), ("00", 0), ("10", 2), ("01", 3)] = ofCounts counts ∧
      (ofCounts counts).get "10" = 3 ∧ (ofCounts counts).total = 6 ∧
      (ofCounts counts).mostFrequent = some ("01", 3) ∧
      lastMax byCount [("01", 3), ("00", 0), ("10", 3)] = some ("01", 3) := by
  intro counts
  have fits : (counts.map Prod.snd).sum < UInt64.size := by decide
  obtain ⟨order, given, total, -, best, visited⟩ := ofCounts_orderFree counts fits
  have most : (ofCounts counts).mostFrequent = some ("01", 3) := (best _ _).2 (by decide)
  have found := (visited [("01", 3), ("00", 0), ("10", 3)] (by decide)).1
  exact ⟨fits, (order _ (by decide)).1, given _, total, most, found.trans most⟩

end Outcome

end QuantumLowering
