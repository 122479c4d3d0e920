import Mathlib.Data.List.Lex
import QuantumLowering.Proofs.Syntax.Forests

/-!
What validation accepts and what it reports. A tree is valid when every reference that the body leads
to stays in the arena and no node is referred to twice; otherwise the error is that of the first wrong
reference on a depth-first walk. Places on the walk are paths, in the order of their texts.
-/

namespace QuantumLowering

namespace SyntaxTree

variable {t : SyntaxTree} {id : NodeId}

open Classical in
noncomputable def reachableIds (t : SyntaxTree) : List NodeId :=
  (List.range t.size).filter fun id => t.Reachable id

/-- What stands in the body and in the reachable nodes, as often as it stands there. -/
noncomputable def references (t : SyntaxTree) : List NodeId := t.body ++ t.reachableIds.flatMap t.refs

theorem mem_reachableIds : id ∈ t.reachableIds ↔ id < t.size ∧ t.Reachable id := by
  simp [reachableIds]

theorem nodup_reachableIds (t : SyntaxTree) : t.reachableIds.Nodup := List.nodup_range.filter _

theorem Reachable.refs (above : t.Reachable id) {part : NodeId} (listed : part ∈ t.refs id) :
    t.Reachable part := by
  cases found : t.nodes[id]? with
  | none => simp [SyntaxTree.refs, found] at listed
  | some node => exact above.part found (refs_eq found ▸ listed)

theorem mem_references_iff : id ∈ t.references ↔ t.Reachable id := by
  constructor
  · intro member
    rcases List.mem_append.1 member with top | below
    · exact .body top
    · obtain ⟨above, inside, listed⟩ := List.mem_flatMap.1 below
      exact (mem_reachableIds.1 inside).2.refs listed
  · intro reach
    cases reach with
    | body top => exact List.mem_append_left _ top
    | @part above part node reach found listed =>
      have inside := mem_reachableIds.2 ⟨(Array.getElem?_eq_some_iff.1 found).1, reach⟩
      exact List.mem_append_right _ (List.mem_flatMap.2 ⟨above, inside, refs_eq found ▸ listed⟩)

end SyntaxTree

variable {t : SyntaxTree}

theorem Spans.refs_eq {id : NodeId} {parts : List Unfolding} (spans : Spans t (.node id parts)) :
    t.refs id = parts.map Unfolding.root := by
  cases spans with
  | node found kids _ => exact (SyntaxTree.refs_eq found).trans kids

theorem perm_ids (us : List Unfolding) (spans : ∀ u ∈ us, Spans t u) :
    (us.map Unfolding.root ++ (us.flatMap Unfolding.ids).flatMap t.refs).Perm
      (us.flatMap Unfolding.ids) := by
  match us with
  | [] => simp
  | .node id parts :: rest =>
    have below : ∀ u ∈ parts ++ rest, Spans t u := fun u member =>
      (List.mem_append.1 member).elim (spans _ List.mem_cons_self |>.parts_span u)
        fun later => spans u (List.mem_cons_of_mem _ later)
    have ih := perm_ids (parts ++ rest) below
    rw [Unfolding.ids_node_append, List.map_cons, List.flatMap_cons,
      (spans _ List.mem_cons_self).refs_eq, List.cons_append, ← List.append_assoc]
    refine .cons id (.trans ?_ ih)
    rw [List.map_append]
    exact List.perm_append_comm.append_right _
termination_by (us.flatMap Unfolding.ids).length
decreasing_by
  rw [Unfolding.ids_node_append]
  simp

theorem Spans.count_refs {u : Unfolding} (spans : Spans t u) (once : u.ids.Nodup) {id : NodeId}
    (member : id ∈ u.ids) :
    (u.ids.flatMap t.refs).count id = if id = u.root then 0 else 1 := by
  have order := perm_ids [u] fun v listed => List.mem_singleton.1 listed ▸ spans
  have counts := order.count_eq id
  rw [List.map_singleton, List.flatMap_singleton, List.count_append,
    List.count_eq_one_of_mem once member, List.count_singleton] at counts
  by_cases top : id = u.root
  · subst top
    simpa using counts
  · simpa [top, Ne.symm top] using counts

theorem mem_ids_iff {us : List Unfolding} (roots : us.map Unfolding.root = t.body)
    (spans : ∀ u ∈ us, Spans t u) (id : NodeId) :
    id ∈ us.flatMap Unfolding.ids ↔ t.Reachable id := by
  constructor
  · intro member
    obtain ⟨u, inside, member⟩ := List.mem_flatMap.1 member
    have top : t.Reachable u.root := .body (roots ▸ List.mem_map_of_mem inside)
    exact (spans u inside).reachable top member
  · intro reach
    have order := perm_ids us spans
    induction reach with
    | body top => exact order.subset (List.mem_append_left _ (roots ▸ top))
    | part _ found listed ih =>
      refine order.subset (List.mem_append_right _ (List.mem_flatMap.2 ⟨_, ih, ?_⟩))
      exact SyntaxTree.refs_eq found ▸ listed

namespace SyntaxTree

variable {id : NodeId}

theorem references_of_valid (valid : t.validate = .ok ()) :
    t.references.Nodup ∧ ∀ id, t.Reachable id → id < t.size := by
  obtain ⟨us, roots, spans, once, -⟩ := exists_unfoldings_of_validateFrom valid
  have inside : ∀ id, t.Reachable id → id < t.size := by
    intro id reach
    obtain ⟨u, listed, member⟩ := List.mem_flatMap.1 ((mem_ids_iff roots spans id).2 reach)
    exact (spans u listed).lt_size member
  have live : t.reachableIds.Perm (us.flatMap Unfolding.ids) := by
    rw [List.perm_ext_iff_of_nodup t.nodup_reachableIds once]
    intro id
    rw [mem_reachableIds, mem_ids_iff roots spans]
    exact and_iff_right_of_imp (inside id)
  have order : t.references.Perm (us.flatMap Unfolding.ids) := by
    refine .trans ?_ (perm_ids us spans)
    rw [references, roots]
    exact (live.flatMap_right t.refs).append_left _
  exact ⟨order.nodup_iff.2 once, inside⟩

theorem valid_of_references (once : t.references.Nodup)
    (inside : ∀ id, t.Reachable id → id < t.size) : t.validate = .ok () := by
  have forest : Forest 0 t [] t.body t.reachableIds := by
    refine ⟨Nat.zero_le _, fun id member => ?_, t.nodup_reachableIds, once, fun id member => ?_⟩
    · exact ⟨Nat.zero_le _, (mem_reachableIds.1 member).1⟩
    · have reach := mem_references_iff.1 member
      exact mem_reachableIds.2 ⟨inside id reach, reach⟩
  obtain ⟨us, roots, spans, once, -⟩ := forest.exists_unfoldings
  rw [validate, ← roots]
  exact validateFrom_of_unfoldings us [] spans once (by simp)

theorem validate_ok_iff :
    t.validate = .ok () ↔ ∀ id, t.Reachable id → id < t.size ∧ t.references.count id = 1 := by
  constructor
  · intro valid id reach
    obtain ⟨once, inside⟩ := references_of_valid valid
    exact ⟨inside id reach, List.count_eq_one_of_mem once (mem_references_iff.2 reach)⟩
  · intro each
    refine valid_of_references (List.nodup_iff_count_le_one.2 fun id => ?_) fun id reach =>
      (each id reach).1
    by_cases reach : t.Reachable id
    · exact (each id reach).2.le
    · exact (List.count_eq_zero.2 (mt mem_references_iff.1 reach)).trans_le (Nat.zero_le 1)

/-- The id at the end of a path: the path's first entry is a place in the list, each later one a place
among the references of the node reached so far. -/
def follow (t : SyntaxTree) : List NodeId → List Nat → Option NodeId
  | _, [] => none
  | ids, [place] => ids[place]?
  | ids, place :: next :: path => ids[place]?.bind fun id => t.follow (t.refs id) (next :: path)

/-- The reference at the end of the path leads out of the arena, or to an id that was seen before or
is met on an earlier path. On a walk in depth-first order the earlier paths are the smaller ones. -/
structure Offends (t : SyntaxTree) (ids seen : List NodeId) (path : List Nat) (id : NodeId) :
    Prop where
  leads : t.follow ids path = some id
  wrong : t.size ≤ id ∨ id ∈ seen ∨ ∃ earlier < path, t.follow ids earlier = some id

structure FirstOffence (t : SyntaxTree) (ids seen : List NodeId) (path : List Nat) (id : NodeId) :
    Prop where
  offends : t.Offends ids seen path id
  first : ∀ earlier < path, ∀ other, ¬ t.Offends ids seen earlier other

def fault (t : SyntaxTree) (id : NodeId) : TreeError :=
  if id < t.size then .reachedTwice id else .notFound id

/-- The path into a list of ids that a path becomes when it leads into the list in which the first id
is replaced by the ids, so many, that its node refers to. -/
def liftPath (count : Nat) : List Nat → List Nat
  | [] => []
  | place :: path => if place < count then 0 :: place :: path else (place - count + 1) :: path

section Paths

variable {rest seen : List NodeId} {path : List Nat} {other : NodeId}

theorem follow_cons (t : SyntaxTree) (ids : List NodeId) (place : Nat) (path : List Nat) :
    t.follow ids (place :: path) =
      if path = [] then ids[place]? else ids[place]?.bind fun id => t.follow (t.refs id) path := by
  cases path with
  | nil => rfl
  | cons next path => simp [follow]

theorem follow_liftPath (t : SyntaxTree) (id : NodeId) (rest : List NodeId) (path : List Nat) :
    t.follow (id :: rest) (liftPath (t.refs id).length path) =
      t.follow (t.refs id ++ rest) path := by
  cases path with
  | nil => rfl
  | cons place path =>
    by_cases inside : place < (t.refs id).length
    · simp [liftPath, inside, follow_cons t, List.getElem?_append_left inside]
    · have outside := Nat.le_of_not_lt inside
      simp [liftPath, inside, follow_cons t, List.getElem?_append_right outside]

theorem liftPath_lt_liftPath (count : Nat) {path path' : List Nat} (less : path < path') :
    liftPath count path < liftPath count path' := by
  match path, path' with
  | _, [] => exact absurd less (List.not_lt_nil _)
  | [], _ :: _ =>
    simp only [liftPath]
    split <;> simp
  | place :: path, place' :: path' =>
    simp only [liftPath]
    rcases List.cons_lt_cons_iff.1 less with before | ⟨rfl, later⟩
    · split <;> split
      · exact List.cons_lt_cons_iff.2 (.inr ⟨rfl, List.cons_lt_cons_iff.2 (.inl before)⟩)
      · exact List.cons_lt_cons_iff.2 (.inl (by omega))
      · omega
      · exact List.cons_lt_cons_iff.2 (.inl (by omega))
    · split <;> simp [later]

theorem liftPath_lt_iff (count : Nat) {path path' : List Nat} :
    liftPath count path < liftPath count path' ↔ path < path' := by
  refine ⟨fun less => ?_, liftPath_lt_liftPath count⟩
  rcases lt_trichotomy path path' with before | rfl | behind
  · exact before
  · exact absurd less (lt_irrefl _)
  · exact absurd less (lt_asymm (liftPath_lt_liftPath count behind))

theorem zero_lt_liftPath (count : Nat) (place : Nat) (path : List Nat) :
    [0] < liftPath count (place :: path) := by
  simp only [liftPath]
  split <;> simp [List.cons_lt_cons_iff]

theorem eq_liftPath_of_follow (found : t.follow (id :: rest) path = some other) :
    path = [0] ∨ ∃ below, path = liftPath (t.refs id).length below := by
  match path with
  | [] => cases found
  | [0] => exact .inl rfl
  | 0 :: place :: path =>
    refine .inr ⟨place :: path, ?_⟩
    have inside : place < (t.refs id).length := by
      rw [follow_cons, if_neg (by simp), List.getElem?_cons_zero, Option.bind_some,
        follow_cons] at found
      by_contra outside
      rw [List.getElem?_eq_none (Nat.le_of_not_lt outside)] at found
      simp at found
    simp [liftPath, inside]
  | (place + 1) :: path =>
    refine .inr ⟨(place + (t.refs id).length) :: path, ?_⟩
    simp [liftPath]

end Paths

section Offences

variable {ids seen rest : List NodeId} {path : List Nat} {other : NodeId}

theorem FirstOffence.unique {path' : List Nat} {other' : NodeId}
    (first : t.FirstOffence ids seen path other) (first' : t.FirstOffence ids seen path' other') :
    other = other' := by
  rcases lt_trichotomy path path' with less | rfl | less
  · exact absurd first.offends (first'.first path less other)
  · exact Option.some.inj (first.offends.leads.symm.trans first'.offends.leads)
  · exact absurd first'.offends (first.first path' less other')

theorem firstOffence_head (wrong : t.size ≤ id ∨ id ∈ seen) :
    t.FirstOffence (id :: rest) seen [0] id := by
  refine ⟨⟨rfl, wrong.imp_right .inl⟩, fun earlier less other offends => ?_⟩
  cases earlier with
  | nil => cases offends.leads
  | cons place path => simp [List.cons_lt_cons_iff] at less

theorem offends_liftPath_iff (inside : id < t.size) (new : id ∉ seen) :
    t.Offends (id :: rest) seen (liftPath (t.refs id).length path) other ↔
      t.Offends (t.refs id ++ rest) (id :: seen) path other := by
  constructor
  · rintro ⟨leads, wrong⟩
    rw [follow_liftPath] at leads
    refine ⟨leads, wrong.imp_right fun met => ?_⟩
    rcases met with old | ⟨earlier, less, same⟩
    · exact .inl (List.mem_cons_of_mem _ old)
    · rcases eq_liftPath_of_follow same with rfl | ⟨below, rfl⟩
      · cases same
        exact .inl List.mem_cons_self
      · rw [follow_liftPath] at same
        exact .inr ⟨below, (liftPath_lt_iff _).1 less, same⟩
  · rintro ⟨leads, wrong⟩
    refine ⟨(follow_liftPath ..).trans leads, wrong.imp_right fun met => ?_⟩
    rcases met with old | ⟨earlier, less, same⟩
    · rcases List.mem_cons.1 old with rfl | old
      · cases path with
        | nil => cases leads
        | cons place path => exact .inr ⟨[0], zero_lt_liftPath .., rfl⟩
      · exact .inl old
    · exact .inr ⟨_, liftPath_lt_liftPath _ less, (follow_liftPath ..).trans same⟩

theorem not_offends_zero (inside : id < t.size) (new : id ∉ seen) :
    ¬ t.Offends (id :: rest) seen [0] other := by
  rintro ⟨leads, wrong⟩
  cases leads
  rcases wrong with outside | old | ⟨earlier, less, same⟩
  · exact absurd inside (Nat.not_lt.2 outside)
  · exact new old
  · cases earlier with
    | nil => cases same
    | cons place path => simp [List.cons_lt_cons_iff] at less

theorem FirstOffence.liftPath (first : t.FirstOffence (t.refs id ++ rest) (id :: seen) path other)
    (inside : id < t.size) (new : id ∉ seen) :
    t.FirstOffence (id :: rest) seen (liftPath (t.refs id).length path) other := by
  refine ⟨(offends_liftPath_iff inside new).2 first.offends, fun earlier less other' offends => ?_⟩
  rcases eq_liftPath_of_follow offends.leads with rfl | ⟨below, rfl⟩
  · exact not_offends_zero inside new offends
  · exact first.first below ((liftPath_lt_iff _).1 less) other'
      ((offends_liftPath_iff inside new).1 offends)

end Offences

theorem children_eq (t : SyntaxTree) (id : NodeId) :
    t.children id = if id < t.size then .ok (t.refs id) else .error (.notFound id) := by
  unfold children node SyntaxTree.refs
  cases found : t.nodes[id]? with
  | none =>
    have outside : ¬ id < t.size := Nat.not_lt.2 (Array.getElem?_eq_none_iff.1 found)
    rw [if_neg outside]
    rfl
  | some node =>
    have inside : id < t.size := (Array.getElem?_eq_some_iff.1 found).1
    rw [if_pos inside]
    rfl

theorem validateFrom_cases (t : SyntaxTree) (pending seen : List NodeId) :
    t.validateFrom pending seen = .ok () ∧ (∀ path id, ¬ t.Offends pending seen path id) ∨
      ∃ path id, t.FirstOffence pending seen path id ∧
        t.validateFrom pending seen = .error (t.fault id) := by
  fun_induction validateFrom t pending seen with
  | case1 seen =>
    refine .inl ⟨rfl, fun path id offends => ?_⟩
    cases path with
    | nil => cases offends.leads
    | cons place path => simpa [follow_cons] using offends.leads
  | case2 seen id rest e found =>
    rw [children_eq] at found
    split at found
    · cases found
    · rename_i outside
      cases found
      refine .inr ⟨[0], id, firstOffence_head (.inl (Nat.le_of_not_lt outside)), ?_⟩
      rw [fault, if_neg outside]
  | case3 seen id rest kids found again =>
    refine .inr ⟨[0], id, firstOffence_head (.inr again), ?_⟩
    rw [fault, if_pos (lt_size_of_children found)]
  | case4 seen id rest kids found new ih =>
    have inside := lt_size_of_children found
    rw [children_eq, if_pos inside] at found
    cases found
    -- What was found behind the id's references lies further down from here, or to the right.
    rcases ih with ⟨valid, none⟩ | ⟨path, other, first, failed⟩
    · refine .inl ⟨valid, fun path other offends => ?_⟩
      rcases eq_liftPath_of_follow offends.leads with rfl | ⟨below, rfl⟩
      · exact not_offends_zero inside new offends
      · exact none below other ((offends_liftPath_iff inside new).1 offends)
    · exact .inr ⟨_, other, first.liftPath inside new, failed⟩

theorem validateFrom_error_iff {pending seen : List NodeId} {e : TreeError} :
    t.validateFrom pending seen = .error e ↔
      ∃ path id, t.FirstOffence pending seen path id ∧ e = t.fault id := by
  constructor
  · intro failed
    rcases t.validateFrom_cases pending seen with ⟨valid, -⟩ | ⟨path, id, first, failed'⟩
    · rw [valid] at failed
      cases failed
    · exact ⟨path, id, first, Except.error.inj (failed.symm.trans failed')⟩
  · rintro ⟨path, id, first, rfl⟩
    rcases t.validateFrom_cases pending seen with ⟨-, none⟩ | ⟨path', id', first', failed⟩
    · exact absurd first.offends (none path id)
    · rw [first.unique first', failed]

def validateWithin (t : SyntaxTree) : Nat → List NodeId → List NodeId → Option (Except TreeError Unit)
  | 0, _, _ => none
  | _ + 1, [], _ => some (.ok ())
  | turns + 1, id :: rest, seen =>
    match t.children id with
    | .error e => some (.error e)
    | .ok kids =>
      if id ∈ seen then some (.error (.reachedTwice id))
      else t.validateWithin turns (kids ++ rest) (id :: seen)

theorem validateWithin_eq (t : SyntaxTree) (pending seen : List NodeId) {turns : Nat}
    (enough : unseen t.size seen < turns) :
    t.validateWithin turns pending seen = some (t.validateFrom pending seen) := by
  induction turns generalizing pending seen with
  | zero => exact absurd enough (Nat.not_lt_zero _)
  | succ turns ih =>
    cases pending with
    | nil => rw [validateWithin, validateFrom]
    | cons id rest =>
      rw [validateWithin, validateFrom]
      cases found : t.children id with
      | error e => simp only
      | ok kids =>
        by_cases again : id ∈ seen
        · simp only [again, ↓reduceIte, ↓reduceDIte]
        · have fewer := unseen_cons_lt (lt_size_of_children found) again
          simp only [again, ↓reduceIte, ↓reduceDIte]
          exact ih _ _ (by omega)

theorem unseen_nil (n : Nat) : unseen n [] = n := by
  simp [unseen]

/-- Validation accepts a tree if every reference that the body leads to stays in the arena and every
node reached is referred to once. Otherwise it reports the first wrong reference on the depth-first
walk from the body. On any tree the walk is over after one turn more than there are nodes. -/
theorem validate_outcome (t : SyntaxTree) :
    (t.validate = .ok () ↔ ∀ id, t.Reachable id → id < t.size ∧ t.references.count id = 1) ∧
      (∀ e, t.validate = .error e ↔
        ∃ path id, t.FirstOffence t.body [] path id ∧ e = t.fault id) ∧
      t.validateWithin (t.size + 1) t.body [] = some t.validate := by
  refine ⟨validate_ok_iff, fun e => validateFrom_error_iff, t.validateWithin_eq _ _ ?_⟩
  rw [unseen_nil]
  exact Nat.lt_succ_self _

example : (⟨#[.expr (.list [0]), .stmt (.expr 0)], [1]⟩ : SyntaxTree).validate =
    .error (.reachedTwice 0) := by
  cbv

end SyntaxTree

end QuantumLowering
