import QuantumLowering.Operation.Table

namespace QuantumLowering

theorem OperationEntry.get_set (e : OperationEntry) (f g : GateFunctor)
    (r : Resolution) : (e.set f r).get g = if g = f then r else e.get g := by
  cases f <;> cases g <;> rfl

namespace OperationTable

variable {t t' t'' : OperationTable}

/-- The operation has a variant under the functor. -/
def Resolves (t : OperationTable) (name : String) (f : GateFunctor) : Prop :=
  (t.resolve name f).isOk

def Grows (t t' : OperationTable) : Prop := ∀ name f, t.Resolves name f → t'.Resolves name f

namespace Grows

theorem refl (t : OperationTable) : t.Grows t := fun _ _ resolves => resolves

theorem trans (first : t.Grows t') (second : t'.Grows t'') : t.Grows t'' :=
  fun name f resolves => second name f (first name f resolves)

end Grows

theorem resolves_iff {name : String} {f : GateFunctor} :
    t.Resolves name f ↔ ∃ entry v, t.get? name = some entry ∧ entry.get f = .variant v := by
  unfold Resolves resolve
  cases t.get? name with
  | none => simp [Except.isOk, Except.toBool]
  | some entry =>
    simp only [Option.some.injEq, exists_and_left, exists_eq_left']
    cases entry.get f <;> simp [Except.isOk, Except.toBool]

theorem resolves_link (t : OperationTable) (name : String) (f : GateFunctor) (v : String) :
    (t.link name f v).Resolves name f := by
  refine resolves_iff.2 ⟨((t.get? name).getD .none).set f (.variant v), v, ?_, ?_⟩
  · rw [link, Dictionary.get?_insert, if_pos rfl]
  · rw [OperationEntry.get_set, if_pos rfl]

theorem grows_link (t : OperationTable) (name : String) (f : GateFunctor) (v : String) :
    t.Grows (t.link name f v) := by
  intro other g resolves
  obtain ⟨entry, w, found, resolved⟩ := resolves_iff.1 resolves
  by_cases same : other = name ∧ g = f
  · obtain ⟨rfl, rfl⟩ := same
    exact resolves_link t other g v
  · refine resolves_iff.2 ?_
    rw [link, Dictionary.get?_insert]
    by_cases named : other = name
    · subst named
      have other : g ≠ f := fun again => same ⟨rfl, again⟩
      refine ⟨_, w, if_pos rfl, ?_⟩
      rw [OperationEntry.get_set, if_neg other, found]
      exact resolved
    · exact ⟨entry, w, by rw [if_neg named, found], resolved⟩

/-- Every variant that the markers ask for is there. -/
def Settled (t : OperationTable) (name : String) (m : Markers) : Prop :=
  ∀ f, m.requests f → t.Resolves name f

theorem Settled.mono {name : String} {m : Markers} (settled : t.Settled name m)
    (grows : t.Grows t') : t'.Settled name m :=
  fun f asked => grows name f (settled f asked)

theorem settled_none (t : OperationTable) (name : String) : t.Settled name .none := by
  intro f asked
  cases f <;> cases asked

end OperationTable

end QuantumLowering
