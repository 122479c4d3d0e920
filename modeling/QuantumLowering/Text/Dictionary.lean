namespace QuantumLowering

/-- A finite map from names, its entries in strictly increasing order of their names. -/
structure Dictionary (β : Type) where
  entries : List (String × β)
  sorted : entries.Pairwise fun a b => a.1 < b.1

namespace Dictionary

variable {β : Type}

def empty : Dictionary β := ⟨[], .nil⟩

instance : Inhabited (Dictionary β) := ⟨empty⟩

instance [Repr β] : Repr (Dictionary β) := ⟨fun d n => reprPrec d.entries n⟩

@[ext]
theorem ext {d e : Dictionary β} (h : d.entries = e.entries) : d = e := by
  cases d; cases e; simp_all

instance [DecidableEq β] : DecidableEq (Dictionary β) := fun d e =>
  decidable_of_iff (d.entries = e.entries) ⟨ext, fun h => h ▸ rfl⟩

def size (d : Dictionary β) : Nat := d.entries.length

def isEmpty (d : Dictionary β) : Bool := d.entries.isEmpty

def names (d : Dictionary β) : List String := d.entries.map Prod.fst

def get? (d : Dictionary β) (name : String) : Option β := d.entries.lookup name

def contains (d : Dictionary β) (name : String) : Bool := (d.get? name).isSome

def insertEntry (name : String) (value : β) : List (String × β) → List (String × β)
  | [] => [(name, value)]
  | entry :: rest =>
    if name < entry.1 then (name, value) :: entry :: rest
    else if name = entry.1 then (name, value) :: rest
    else entry :: insertEntry name value rest

theorem mem_insertEntry {name : String} {value : β} {entries : List (String × β)}
    {entry : String × β} (h : entry ∈ insertEntry name value entries) :
    entry = (name, value) ∨ entry ∈ entries := by
  induction entries with
  | nil => simp_all [insertEntry]
  | cons head rest ih =>
    unfold insertEntry at h
    split at h
    · simpa using h
    · split at h
      · simp only [List.mem_cons] at h ⊢
        rcases h with h | h
        · exact .inl h
        · exact .inr (.inr h)
      · simp only [List.mem_cons] at h ⊢
        rcases h with h | h
        · exact .inr (.inl h)
        · rcases ih h with h | h
          · exact .inl h
          · exact .inr (.inr h)

theorem sorted_insertEntry {name : String} {value : β} {entries : List (String × β)}
    (h : entries.Pairwise fun a b => a.1 < b.1) :
    (insertEntry name value entries).Pairwise fun a b => a.1 < b.1 := by
  induction entries with
  | nil => simp [insertEntry]
  | cons head rest ih =>
    have below : ∀ entry ∈ rest, head.1 < entry.1 := fun _ => List.rel_of_pairwise_cons h
    have tail := List.Pairwise.of_cons h
    unfold insertEntry
    split
    case isTrue before =>
      refine .cons ?_ h
      intro entry mem
      rcases List.mem_cons.1 mem with rfl | mem
      · exact before
      · exact String.lt_trans before (below _ mem)
    case isFalse notBefore =>
      split
      case isTrue same =>
        refine .cons ?_ tail
        intro entry mem
        exact same ▸ below _ mem
      case isFalse distinct =>
        refine .cons ?_ (ih tail)
        intro entry mem
        rcases mem_insertEntry mem with rfl | mem
        · exact Std.lt_of_le_of_ne (Std.not_lt.1 notBefore) (Ne.symm distinct)
        · exact below _ mem

def insert (d : Dictionary β) (name : String) (value : β) : Dictionary β :=
  ⟨insertEntry name value d.entries, sorted_insertEntry d.sorted⟩

/-- The map of the given entries, where the last entry of a name counts. -/
def ofList (entries : List (String × β)) : Dictionary β :=
  entries.foldl (fun d entry => d.insert entry.1 entry.2) empty

theorem lookup_insertEntry (name : String) (value : β) (entries : List (String × β))
    (other : String) :
    (insertEntry name value entries).lookup other =
      if other = name then some value else entries.lookup other := by
  induction entries with
  | nil => grind [insertEntry]
  | cons head rest ih =>
    unfold insertEntry
    split
    · grind
    · split <;> grind

@[simp]
theorem get?_empty (name : String) : (empty : Dictionary β).get? name = none := rfl

theorem get?_insert (d : Dictionary β) (name : String) (value : β) (other : String) :
    (d.insert name value).get? other = if other = name then some value else d.get? other :=
  lookup_insertEntry name value d.entries other

theorem mem_entries {d : Dictionary β} {name : String} {value : β} :
    (name, value) ∈ d.entries ↔ d.get? name = some value := by
  constructor
  · intro listed
    obtain ⟨before, after, split⟩ := List.append_of_mem listed
    apply List.lookup_eq_some_iff.2
    refine ⟨before, after, split, ?_⟩
    intro entry earlier
    have apart := (List.pairwise_append.1 (split ▸ d.sorted)).2.2 entry earlier _ List.mem_cons_self
    exact bne_iff_ne.2 fun same => String.lt_irrefl _ (same ▸ apart)
  · intro found
    obtain ⟨before, after, split, -⟩ := List.lookup_eq_some_iff.1 found
    rw [split]
    exact List.mem_append_right _ List.mem_cons_self

theorem nodup_entries (d : Dictionary β) : d.entries.Nodup := by
  apply d.sorted.imp
  intro a b before same
  exact String.lt_irrefl _ (same ▸ before)

theorem ext_get? {d e : Dictionary β} (same : ∀ name, d.get? name = e.get? name) : d = e := by
  have members : ∀ entry, entry ∈ d.entries ↔ entry ∈ e.entries := by
    intro entry
    rw [mem_entries, mem_entries, same]
  have permuted := (List.perm_ext_iff_of_nodup d.nodup_entries e.nodup_entries).2 members
  apply ext
  apply permuted.eq_of_pairwise ?_ d.sorted e.sorted
  intro a b _ _ before after
  exact absurd before (String.lt_asymm after)

end Dictionary

end QuantumLowering
