import QuantumLowering.Circuit.Error

namespace QuantumLowering

def linesText (lines : List Line) : String :=
  "[" ++ ", ".intercalate (lines.map Line.text) ++ "]"

def maxProxyId : Nat := UInt32.size - 1

structure MeasurementProxy where
  id : Nat
  lines : List Line
deriving DecidableEq, Repr, Inhabited

/-- The proxies of an allocation of `width` lines, in the order of their first request. -/
structure ProxyCache where
  width : Nat
  proxies : List MeasurementProxy
deriving DecidableEq, Repr, Inhabited

namespace ProxyCache

def new (width : Nat) : ProxyCache := ⟨width, []⟩

def size (c : ProxyCache) : Nat := c.proxies.length

def ask (c : ProxyCache) (lines : List Line) : Except CircuitError MeasurementProxy × ProxyCache :=
  if lines.isEmpty then (.error (.unsupported .measuringNothing), c)
  else
    match lines.find? fun line => c.width ≤ line with
    | some line => (.error (.lineOutOfRange line c.width), c)
    | none =>
      match c.proxies.find? fun proxy => proxy.lines == lines with
      | some proxy => (.ok proxy, c)
      | none =>
        let proxy := ⟨min c.size maxProxyId, lines⟩
        (.ok proxy, ⟨c.width, c.proxies ++ [proxy]⟩)

def request (c : ProxyCache) (lines : List Line) :
    Except CircuitError (MeasurementProxy × ProxyCache) :=
  match c.ask lines with
  | (.ok proxy, c) => .ok (proxy, c)
  | (.error e, _) => .error e

end ProxyCache

end QuantumLowering
