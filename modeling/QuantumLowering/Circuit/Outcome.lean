import QuantumLowering.Text.Dictionary

namespace QuantumLowering

structure Outcome where
  counts : Dictionary Nat
deriving DecidableEq, Repr, Inhabited

namespace Outcome

def empty : Outcome := ⟨.empty⟩

def get (o : Outcome) (bits : String) : Nat := (o.counts.get? bits).getD 0

def insert (o : Outcome) (bits : String) (count : Nat) : Outcome :=
  ⟨o.counts.insert bits (o.get bits + count)⟩

def ofCounts (counts : List (String × Nat)) : Outcome :=
  counts.foldl (fun o (bits, count) => o.insert bits count) empty

def all (o : Outcome) : List (String × Nat) := o.counts.entries

def total (o : Outcome) : Nat := (o.all.map Prod.snd).foldr (· + ·) 0

def probability (o : Outcome) (bits : String) : Float :=
  if o.total = 0 then 0
  else (UInt64.ofNat (o.get bits)).toFloat / (UInt64.ofNat o.total).toFloat

def precedes (a b : String × Nat) : Bool := b.2 < a.2 || (a.2 == b.2 && a.1 < b.1)

def mostFrequent (o : Outcome) : Option (String × Nat) :=
  o.all.foldl (fun best entry =>
    match best with
    | none => some entry
    | some found => if precedes entry found then some entry else some found) none

end Outcome

end QuantumLowering
