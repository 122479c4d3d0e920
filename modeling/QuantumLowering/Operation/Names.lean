import QuantumLowering.Text.Dictionary

namespace QuantumLowering

/-- The names taken so far and, for each base, how many of its candidates have been tried. -/
structure NameSupply where
  tried : Dictionary Nat
  taken : List String
deriving Inhabited

namespace NameSupply

def empty : NameSupply := ⟨.empty, []⟩

def isTaken (s : NameSupply) (name : String) : Bool := s.taken.contains name

def reserve (s : NameSupply) (name : String) : NameSupply :=
  if s.isTaken name then s else { s with taken := name :: s.taken }

def candidate (base : String) (k : Nat) : String :=
  if k = 0 then base else base ++ "_" ++ Nat.repr k

/-- The first free candidate from the `k`-th on, among as many as the first argument says. -/
def firstFree (s : NameSupply) (base : String) : Nat → Nat → Nat
  | 0, k => k
  | more + 1, k => if s.isTaken (candidate base k) then s.firstFree base more (k + 1) else k

/-- Hands out a name. Of one more candidate than there are taken names, one is free. -/
def fresh (s : NameSupply) (base : String) : String × NameSupply :=
  let k := s.firstFree base (s.taken.length + 1) ((s.tried.get? base).getD 0)
  let name := candidate base k
  (name, ⟨s.tried.insert base (k + 1), name :: s.taken⟩)

end NameSupply

/-- The base for the name of a derived variant, which starts with an underscore. -/
def variantBase (name suffix : String) : String :=
  if name.startsWith "_" then name ++ "_" ++ suffix else "_" ++ name ++ "_" ++ suffix

end QuantumLowering
