import QuantumLowering.Circuit.Outcome
import QuantumLowering.Circuit.Proxy

namespace QuantumLowering

abbrev Backend (σ : Type) :=
  List MeasurementProxy → σ → Except CircuitError (List Outcome) × σ

structure BatchExecutor where
  executed : Bool
deriving DecidableEq, Repr, Inhabited

namespace BatchExecutor

def new : BatchExecutor := ⟨false⟩

/-- Executes a batch on the backend. The executor is spent by the call, whatever comes of it. -/
def execute {σ : Type} (e : BatchExecutor) (backend : Backend σ)
    (proxies : List MeasurementProxy) (state : σ) :
    Except CircuitError (List Outcome) × BatchExecutor × σ :=
  if e.executed then (.error .alreadyExecuted, e, state)
  else if proxies.isEmpty then (.error .emptyBatch, e, state)
  else
    match backend proxies state with
    | (.error reason, state) => (.error reason, ⟨true⟩, state)
    | (.ok outcomes, state) =>
      if outcomes.length = proxies.length then (.ok outcomes, ⟨true⟩, state)
      else (.error (.arityMismatch proxies.length outcomes.length), ⟨true⟩, state)

end BatchExecutor

end QuantumLowering
