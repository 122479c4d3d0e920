import Mathlib.Data.List.Basic
import QuantumLowering.Circuit.Batch

namespace QuantumLowering

variable {σ : Type}

/-- The backend with a list of the batches it was called for, the first one first. -/
def Backend.logged (backend : Backend σ) : Backend (σ × List (List MeasurementProxy)) :=
  fun batch s => ((backend batch s.1).1, (backend batch s.1).2, s.2 ++ [batch])

namespace BatchExecutor

/-- What an answer of the backend comes to: there has to be an outcome for every proxy. -/
def settle (batch : List MeasurementProxy) :
    Except CircuitError (List Outcome) → Except CircuitError (List Outcome)
  | .error reason => .error reason
  | .ok outcomes =>
    if outcomes.length = batch.length then .ok outcomes
    else .error (.arityMismatch batch.length outcomes.length)

theorem settle_eq_ok_iff {batch : List MeasurementProxy}
    {answer : Except CircuitError (List Outcome)} {outcomes : List Outcome} :
    settle batch answer = .ok outcomes ↔
      answer = .ok outcomes ∧ outcomes.length = batch.length := by
  cases answer with
  | error reason => simp [settle]
  | ok found =>
    by_cases all : found.length = batch.length
    · rw [settle, if_pos all, Except.ok.injEq]
      constructor
      · intro same
        exact ⟨same, same ▸ all⟩
      · exact fun h => h.1
    · rw [settle, if_neg all]
      constructor
      · intro impossible
        cases impossible
      · intro ⟨same, enough⟩
        cases same
        exact absurd enough all

variable (backend : Backend σ) (state : σ)

theorem execute_spent (batch : List MeasurementProxy) :
    execute ⟨true⟩ backend batch state = (.error .alreadyExecuted, ⟨true⟩, state) := rfl

theorem execute_empty : new.execute backend [] state = (.error .emptyBatch, new, state) := rfl

theorem execute_first {batch : List MeasurementProxy} (present : batch ≠ []) :
    new.execute backend batch state =
      (settle batch (backend batch state).1, ⟨true⟩, (backend batch state).2) := by
  have full : batch.isEmpty = false := List.isEmpty_eq_false_iff.2 present
  unfold execute
  rw [full]
  cases called : backend batch state with
  | mk answer after =>
    cases answer with
    | error reason => rfl
    | ok outcomes =>
      simp only [new, settle]
      by_cases all : outcomes.length = batch.length
      · simp [all]
      · simp [all]

def executeAll (e : BatchExecutor) (backend : Backend σ) :
    List (List MeasurementProxy) → σ →
      List (Except CircuitError (List Outcome)) × BatchExecutor × σ
  | [], state => ([], e, state)
  | batch :: later, state =>
    let (answer, e, state) := e.execute backend batch state
    let (answers, e, state) := e.executeAll backend later state
    (answer :: answers, e, state)

theorem executeAll_append (e : BatchExecutor) (xs ys : List (List MeasurementProxy)) :
    e.executeAll backend (xs ++ ys) state =
      let (answers, e, state) := e.executeAll backend xs state
      let (more, e, state) := e.executeAll backend ys state
      (answers ++ more, e, state) := by
  induction xs generalizing e state with
  | nil => rfl
  | cons batch xs ih => simp only [List.cons_append, executeAll, ih]

theorem executeAll_spent (batches : List (List MeasurementProxy)) :
    executeAll ⟨true⟩ backend batches state =
      (List.replicate batches.length (.error .alreadyExecuted), ⟨true⟩, state) := by
  induction batches with
  | nil => rfl
  | cons batch batches ih =>
    simp only [executeAll, execute_spent, ih, List.length_cons, List.replicate_succ]

theorem executeAll_empty {batches : List (List MeasurementProxy)}
    (empty : ∀ batch ∈ batches, batch = []) : new.executeAll backend batches state =
      (List.replicate batches.length (.error .emptyBatch), new, state) := by
  induction batches with
  | nil => rfl
  | cons batch batches ih =>
    have first : batch = [] := empty batch List.mem_cons_self
    have rest := ih fun batch member => empty batch (List.mem_cons_of_mem _ member)
    simp only [first, executeAll, execute_empty, rest, List.length_cons, List.replicate_succ]

theorem executeAll_first {idle later : List (List MeasurementProxy)}
    {batch : List MeasurementProxy} (empty : ∀ batch ∈ idle, batch = []) (present : batch ≠ []) :
    new.executeAll backend (idle ++ batch :: later) state =
      (List.replicate idle.length (.error .emptyBatch) ++
        settle batch (backend batch state).1 ::
          List.replicate later.length (.error .alreadyExecuted),
        ⟨true⟩, (backend batch state).2) := by
  rw [executeAll_append, executeAll_empty backend state empty]
  simp only [executeAll, execute_first backend state present, executeAll_spent]

theorem exists_first (batches : List (List MeasurementProxy)) :
    (∀ batch ∈ batches, batch = []) ∨ ∃ idle batch later, batches = idle ++ batch :: later ∧
      (∀ other ∈ idle, other = []) ∧ batch ≠ [] := by
  cases found : batches.find? fun batch => batch ≠ [] with
  | none =>
    left
    simpa using List.find?_eq_none.1 found
  | some batch =>
    right
    obtain ⟨present, idle, later, split, before⟩ := List.find?_eq_some_iff_append.1 found
    exact ⟨idle, batch, later, split, by simpa using before, by simpa using present⟩

/-- Over any sequence of calls on a new executor and for any backend: as long as the batches are empty
they are refused as such, the executor stays new, and the backend is not called. The first batch with
proxies in it goes to the backend as it is. The call gives what the backend gives, if that is an outcome
for every proxy, and an error otherwise. Every call after it is refused, and the backend is not called
again. -/
theorem executeAll_once (backend : Backend σ) (batches : List (List MeasurementProxy)) (state : σ) :
    (∀ batch ∈ batches, batch = []) ∧
      new.executeAll backend batches state =
        (List.replicate batches.length (.error .emptyBatch), new, state) ∧
      new.executeAll backend.logged batches (state, []) =
        (List.replicate batches.length (.error .emptyBatch), new, state, []) ∨
    ∃ idle batch later answer, batches = idle ++ batch :: later ∧
      (∀ other ∈ idle, other = []) ∧ batch ≠ [] ∧
      new.executeAll backend.logged idle (state, []) =
        (List.replicate idle.length (.error .emptyBatch), new, state, []) ∧
      new.executeAll backend batches state =
        (List.replicate idle.length (.error .emptyBatch) ++
          answer :: List.replicate later.length (.error .alreadyExecuted),
          ⟨true⟩, (backend batch state).2) ∧
      new.executeAll backend.logged batches (state, []) =
        (List.replicate idle.length (.error .emptyBatch) ++
          answer :: List.replicate later.length (.error .alreadyExecuted),
          ⟨true⟩, (backend batch state).2, [batch]) ∧
      (∀ outcomes, answer = .ok outcomes ↔
        (backend batch state).1 = .ok outcomes ∧ outcomes.length = batch.length) ∧
      (∀ reason, (backend batch state).1 = .error reason → answer = .error reason) ∧
      ∀ outcomes, (backend batch state).1 = .ok outcomes → outcomes.length ≠ batch.length →
        answer = .error (.arityMismatch batch.length outcomes.length) := by
  rcases exists_first batches with empty | ⟨idle, batch, later, split, before, present⟩
  · left
    exact ⟨empty, executeAll_empty backend state empty,
      executeAll_empty backend.logged (state, []) empty⟩
  · right
    refine ⟨idle, batch, later, settle batch (backend batch state).1, split, before, present,
      executeAll_empty backend.logged (state, []) before, ?_, ?_, fun _ => settle_eq_ok_iff, ?_, ?_⟩
    · rw [split, executeAll_first backend state before present]
    · rw [split, executeAll_first backend.logged (state, []) before present]
      rfl
    · intro reason failed
      rw [failed, settle]
    · intro outcomes answered other
      rw [answered, settle, if_neg other]

example :
    new.executeAll (fun batch calls => (.ok (batch.dropLast.map fun _ => .empty), calls + 1))
        [[], [⟨0, [0]⟩, ⟨1, [1, 2]⟩], [], [⟨0, [0]⟩]] 0 =
      ([.error .emptyBatch, .error (.arityMismatch 2 1), .error .alreadyExecuted,
        .error .alreadyExecuted], ⟨true⟩, 1) := by
  decide

end BatchExecutor

end QuantumLowering
