import QuantumLowering.Syntax.Node
import QuantumLowering.Text.Dictionary

namespace QuantumLowering

/-- What an operation resolves to under a functor. A pending variant has been asked for and is not
derived yet. -/
inductive Resolution where
  | undefined
  | pending
  | variant (name : String)
deriving DecidableEq, Repr, Inhabited

namespace Resolution

def isDefined : Resolution → Bool
  | .undefined => false
  | _ => true

def ofRequest (requested : Bool) : Resolution := if requested then .pending else .undefined

end Resolution

structure OperationEntry where
  adjoint : Resolution
  controlled : Resolution
deriving DecidableEq, Repr, Inhabited

namespace OperationEntry

def none : OperationEntry := ⟨.undefined, .undefined⟩

def ofVariants (adjoint controlled : String) : OperationEntry :=
  ⟨.variant adjoint, .variant controlled⟩

def ofMarkers (m : Markers) : OperationEntry :=
  ⟨.ofRequest m.adjoint, .ofRequest m.controlled⟩

def get (e : OperationEntry) : GateFunctor → Resolution
  | .adjoint => e.adjoint
  | .controlled => e.controlled

def set (e : OperationEntry) (f : GateFunctor) (r : Resolution) : OperationEntry :=
  match f with
  | .adjoint => { e with adjoint := r }
  | .controlled => { e with controlled := r }

end OperationEntry

structure UndefinedVariant where
  operation : String
  functor : GateFunctor
deriving DecidableEq, Repr, Inhabited

def UndefinedVariant.message (e : UndefinedVariant) : String :=
  s!"Operation '{e.operation}' has no {e.functor.name} variant"

abbrev OperationTable := Dictionary OperationEntry

namespace OperationTable

def declare (t : OperationTable) (name : String) (m : Markers) : OperationTable :=
  t.insert name (.ofMarkers m)

def link (t : OperationTable) (name : String) (f : GateFunctor) (variant : String) :
    OperationTable :=
  t.insert name (((t.get? name).getD .none).set f (.variant variant))

def supports (t : OperationTable) (name : String) (f : GateFunctor) : Bool :=
  match t.get? name with
  | some entry => (entry.get f).isDefined
  | none => false

def require (t : OperationTable) (name : String) (chain : List GateFunctor) :
    Except UndefinedVariant Unit :=
  match chain.find? fun f => !t.supports name f with
  | some f => .error ⟨name, f⟩
  | none => .ok ()

/-- The variant of an operation under a functor. A pending one does not count. -/
def resolve (t : OperationTable) (name : String) (f : GateFunctor) :
    Except UndefinedVariant String :=
  match t.get? name with
  | none => .error ⟨name, f⟩
  | some entry =>
    match entry.get f with
    | .variant v => .ok v
    | _ => .error ⟨name, f⟩

def selfInverse (gate : String) : List (String × OperationEntry) :=
  let controlled := "_" ++ gate ++ "_ctl"
  [(gate, .ofVariants gate controlled), (controlled, .ofVariants controlled controlled)]

def invertible (gate : String) : List (String × OperationEntry) :=
  let adjoint := "_" ++ gate ++ "_adj"
  let controlled := "_" ++ gate ++ "_ctl"
  let both := "_" ++ gate ++ "_adj_ctl"
  [(gate, .ofVariants adjoint controlled), (adjoint, .ofVariants gate both),
    (controlled, .ofVariants both controlled), (both, .ofVariants controlled both)]

def preamble : OperationTable :=
  .ofList (["X", "H", "Z"].flatMap selfInverse ++ ["R1", "map"].flatMap invertible)

end OperationTable

end QuantumLowering
