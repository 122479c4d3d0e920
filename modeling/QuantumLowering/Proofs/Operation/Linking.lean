import Mathlib.Data.List.Nodup
import QuantumLowering.Proofs.Operation.Resolution

namespace QuantumLowering

structure Link where
  functor : GateFunctor
  operation : String
  variant : String
deriving DecidableEq, Repr

def Link.key (l : Link) : GateFunctor × String := (l.functor, l.operation)

namespace OperationTable

variable {t : OperationTable} {links : List Link}

def linkAll (t : OperationTable) (links : List Link) : OperationTable :=
  links.foldl (fun t l => t.link l.operation l.functor l.variant) t

@[simp]
theorem linkAll_nil (t : OperationTable) : t.linkAll [] = t := rfl

@[simp]
theorem linkAll_cons (t : OperationTable) (l : Link) (links : List Link) :
    t.linkAll (l :: links) = (t.link l.operation l.functor l.variant).linkAll links := rfl

theorem linkAll_append (t : OperationTable) (links more : List Link) :
    t.linkAll (links ++ more) = (t.linkAll links).linkAll more := List.foldl_append

theorem get?_link_of_ne {name n : String} (other : n ≠ name) (f : GateFunctor) (v : String) :
    (t.link name f v).get? n = t.get? n := by
  rw [link, Dictionary.get?_insert, if_neg other]

theorem get?_linkAll {n : String} (other : ∀ l ∈ links, l.operation ≠ n) :
    (t.linkAll links).get? n = t.get? n := by
  induction links generalizing t with
  | nil => rfl
  | cons l links ih =>
    rw [linkAll_cons, ih fun l member => other l (by simp [member])]
    exact get?_link_of_ne (Ne.symm (other l (by simp))) _ _

theorem resolve_link (t : OperationTable) (name : String) (f : GateFunctor) (v : String) :
    (t.link name f v).resolve name f = .ok v := by
  unfold resolve
  rw [link, Dictionary.get?_insert, if_pos rfl]
  simp only [OperationEntry.get_set, if_pos]

theorem resolve_link_of_ne {name n : String} {f g : GateFunctor} (other : (g, n) ≠ (f, name))
    (v : String) : (t.link name f v).resolve n g = t.resolve n g := by
  unfold resolve
  by_cases named : n = name
  · subst named
    have apart : g ≠ f := fun same => other (by rw [same])
    rw [link, Dictionary.get?_insert, if_pos rfl]
    simp only [OperationEntry.get_set, if_neg apart]
    cases t.get? n with
    | none => cases g <;> rfl
    | some entry => rfl
  · rw [get?_link_of_ne named]

theorem resolve_linkAll_of_not_mem {n : String} {g : GateFunctor}
    (other : (g, n) ∉ links.map Link.key) : (t.linkAll links).resolve n g = t.resolve n g := by
  induction links generalizing t with
  | nil => rfl
  | cons l links ih =>
    rw [List.map_cons, List.mem_cons, not_or] at other
    rw [linkAll_cons, ih other.2]
    exact resolve_link_of_ne other.1 _

theorem resolve_linkAll {l : Link} (distinct : (links.map Link.key).Nodup) (member : l ∈ links) :
    (t.linkAll links).resolve l.operation l.functor = .ok l.variant := by
  induction links generalizing t with
  | nil => cases member
  | cons first links ih =>
    rw [List.map_cons, List.nodup_cons] at distinct
    rw [linkAll_cons]
    rcases List.mem_cons.1 member with rfl | member
    · rw [resolve_linkAll_of_not_mem distinct.1, resolve_link]
    · exact ih distinct.2 member

def KnownIn (t t' : OperationTable) : Prop := ∀ n, t.contains n → t'.contains n

namespace KnownIn

variable {t' t'' : OperationTable}

theorem refl (t : OperationTable) : t.KnownIn t := fun _ listed => listed

theorem trans (first : t.KnownIn t') (second : t'.KnownIn t'') : t.KnownIn t'' :=
  fun n listed => second n (first n listed)

theorem insert (t : OperationTable) (name : String) (entry : OperationEntry) :
    t.KnownIn (Dictionary.insert t name entry) := by
  intro n listed
  unfold Dictionary.contains at listed ⊢
  rw [Dictionary.get?_insert]
  split
  · rfl
  · exact listed

theorem linkAll (t : OperationTable) (links : List Link) : t.KnownIn (t.linkAll links) := by
  induction links generalizing t with
  | nil => exact .refl t
  | cons l links ih => exact (insert t _ _).trans (ih _)

end KnownIn

end OperationTable

end QuantumLowering
