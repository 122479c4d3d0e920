import QuantumLowering.Proofs.Lowering.Batching
import QuantumLowering.Proofs.Lowering.Discipline
import QuantumLowering.Proofs.Lowering.Visits
import QuantumLowering.Syntax.Listing

/-!
Where the batch of an allocation block stands. The statements of the block are lowered one after the
other, and each comes with the measurements recorded while it was lowered. The batch of them all goes
right before what became of the first statement that recorded one.
-/

namespace QuantumLowering

open LowerM

/-- A statement of an allocation block, the statements that stand in its place, and the measurements
recorded while it was lowered. -/
structure Part where
  source : StmtTerm
  lowered : List StmtTerm
  recorded : List (Hoisted Unit)

theorem stmt_eq {t : SyntaxTree} {id : NodeId} {s : Stmt NodeId}
    (found : t.nodes[id]? = some (.stmt s)) : t.stmt id = .ok s := by
  rw [SyntaxTree.stmt, found]

theorem SyntaxTree.Reads.length_eq {t : SyntaxTree} {ids : List NodeId} {block : List StmtTerm}
    (reads : t.Reads ids block) : ids.length = block.length := by
  obtain ⟨stmts, rfl, rfl, -⟩ := reads
  rw [List.length_map, List.length_map]

def SyntaxTree.ReadsEntries (t : SyntaxTree) (block : NodeId) (entries : List HoistEntry)
    (recorded : List (Hoisted Unit)) : Prop :=
  ∃ rows : List (Hoisted NodeId), rows.map (Hoisted.entry block) = entries ∧
    rows.map Hoisted.erase = recorded ∧ Holds t (rows.flatMap Hoisted.cells)

section Parts

variable (o : Options) (known : List String) (lower : NodeId → LowerM (List NodeId)) (block : NodeId)

/-- A statement of the block is lowered, to stand at the place. The innermost table gets the entries of
the measurements that were in it, and the names of their values are new. -/
structure Part.Arises (place : Nat) (part : Part) (s : LoweringState) (id : NodeId)
    (ids : List NodeId) (s' : LoweringState) : Prop where
  ran : (do ContextM.enterStatement place; lower id : LowerM (List NodeId)) s = .ok ids s'
  source : s.tree.Reads [id] [part.source]
  lowered : s'.tree.Reads ids part.lowered
  batched : Batched o known true [part.source] part.lowered part.recorded
  entries : ∃ entries, s'.context.tables = s.context.tables.modifyHead (· ++ entries) ∧
    s'.tree.ReadsEntries block entries part.recorded
  index : ∀ h ∈ part.recorded, h.index = place
  taken : s.context.names.taken ⊆ s'.context.names.taken
  fresh : ∀ h ∈ part.recorded, h.placeholder ∉ s.context.names.taken
  uses : part.lowered.flatMap StmtTree.identifiers ⊆ o.boilerplateAlias :: s'.context.names.taken

inductive Unrolls : Nat → List Part → LoweringState → List NodeId → LoweringState → Prop where
  | done (place : Nat) (s : LoweringState) : Unrolls place [] s [] s
  | next {place : Nat} {part : Part} {parts : List Part} {s s' s'' : LoweringState} {id : NodeId}
    {ids rest : List NodeId} (here : part.Arises o known lower block place s id ids s')
    (after : Unrolls (place + ids.length) parts s' rest s'') :
    Unrolls place (part :: parts) s (id :: rest) s''

end Parts

/-- The body of an allocation block that is left: that of its parts, with the batch of their
measurements before the first part that recorded one. The names of the measured values do not occur
earlier, apart from one that is also the name of the boilerplate import. -/
inductive Arranged (o : Options) (known : List String) (parts : List Part) : List StmtTerm → Prop where
  | plain (quiet : ∀ part ∈ parts, part.recorded = []) :
    Arranged o known parts (parts.flatMap Part.lowered)
  | batched {early late : List Part} {first : Part} {proxies : List String}
    (split : parts = early ++ first :: late) (quiet : ∀ part ∈ early, part.recorded = [])
    (measured : first.recorded ≠ [])
    (paired : proxies.length = (parts.flatMap Part.recorded).length)
    (once : proxies.Nodup) (new : ∀ x ∈ proxies, x ∉ known)
    (apart : ∀ h ∈ parts.flatMap Part.recorded,
      h.placeholder ∈ (early.flatMap Part.lowered).flatMap StmtTree.identifiers →
        h.placeholder = o.boilerplateAlias) :
    Arranged o known parts (early.flatMap Part.lowered ++
      batchOf o (parts.flatMap Part.recorded) proxies ++ (first :: late).flatMap Part.lowered)

namespace Unrolls

variable {o : Options} {known : List String} {lower : NodeId → LowerM (List NodeId)} {block : NodeId}
  {place : Nat} {parts early late : List Part} {s s' : LoweringState} {ids : List NodeId}

theorem taken (unrolls : Unrolls o known lower block place parts s ids s') :
    s.context.names.taken ⊆ s'.context.names.taken := by
  induction unrolls with
  | done => exact List.Subset.refl _
  | next here _ ih => exact List.Subset.trans here.taken ih

theorem place_le (unrolls : Unrolls o known lower block place parts s ids s') :
    ∀ h ∈ parts.flatMap Part.recorded, place ≤ h.index := by
  induction unrolls with
  | done => simp
  | next here _ ih =>
    intro h member
    rcases List.mem_append.1 member with first | rest
    · exact (here.index h first).ge
    · exact (Nat.le_add_right _ _).trans (ih h rest)

theorem fresh (unrolls : Unrolls o known lower block place parts s ids s') :
    ∀ h ∈ parts.flatMap Part.recorded, h.placeholder ∉ s.context.names.taken := by
  induction unrolls with
  | done => simp
  | next here _ ih =>
    intro h member
    rcases List.mem_append.1 member with first | rest
    · exact here.fresh h first
    · exact fun used => ih h rest (here.taken used)

theorem uses (unrolls : Unrolls o known lower block place parts s ids s') :
    (parts.flatMap Part.lowered).flatMap StmtTree.identifiers ⊆
      o.boilerplateAlias :: s'.context.names.taken := by
  induction unrolls with
  | done => simp
  | next here after ih =>
    rw [List.flatMap_cons, List.flatMap_append, List.append_subset]
    exact ⟨List.Subset.trans here.uses (List.cons_subset_cons _ after.taken), ih⟩

theorem split (unrolls : Unrolls o known lower block place (early ++ late) s ids s') :
    ∃ front back middle, Unrolls o known lower block place early s front middle ∧
      Unrolls o known lower block (place + (early.flatMap Part.lowered).length) late middle back s' := by
  induction early generalizing place s ids with
  | nil => exact ⟨[], ids, s, .done place s, unrolls⟩
  | cons part early ih =>
    rcases unrolls with _ | ⟨here, after⟩
    obtain ⟨front, back, middle, first, rest⟩ := ih after
    refine ⟨_ :: front, back, middle, .next here first, ?_⟩
    rw [List.flatMap_cons, List.length_append, ← Nat.add_assoc, ← here.lowered.length_eq]
    exact rest

theorem min_index {first : Part}
    (unrolls : Unrolls o known lower block place (early ++ first :: late) s ids s')
    (quiet : ∀ part ∈ early, part.recorded = []) (measured : first.recorded ≠ []) :
    (((early ++ first :: late).flatMap Part.recorded).map Hoisted.index).min? =
      some (place + (early.flatMap Part.lowered).length) := by
  obtain ⟨front, back, middle, -, rest⟩ := unrolls.split
  have least := rest.place_le
  rcases rest with _ | ⟨here, -⟩
  obtain ⟨h, member⟩ := List.exists_mem_of_ne_nil _ measured
  rw [List.flatMap_append, List.flatMap_eq_nil_iff.2 quiet, List.nil_append, List.min?_eq_some_iff]
  refine ⟨List.mem_map.2 ⟨h, List.mem_append_left _ member, here.index h member⟩, fun i inside => ?_⟩
  obtain ⟨h, member, rfl⟩ := List.mem_map.1 inside
  exact least h member

theorem apart (unrolls : Unrolls o known lower block place (early ++ late) s ids s') :
    ∀ h ∈ late.flatMap Part.recorded,
      h.placeholder ∈ (early.flatMap Part.lowered).flatMap StmtTree.identifiers →
        h.placeholder = o.boilerplateAlias := by
  obtain ⟨front, back, middle, first, rest⟩ := unrolls.split
  intro h member used
  rcases List.mem_cons.1 (first.uses used) with boilerplate | taken
  · exact boilerplate
  · exact absurd taken (rest.fresh h member)

theorem arranged {p p' : Progress} {stmts : List StmtTerm}
    (unrolls : Unrolls o known lower block 0 parts s ids s') (reserved : known ⊆ p.names.taken)
    (emitted : PlanM.emitBatch o (parts.flatMap Part.recorded) (parts.flatMap Part.lowered) p =
      .ok (stmts, p')) : Arranged o known parts stmts := by
  rcases (emitBatch_cases _ _ _ _ emitted).2 with
    ⟨empty, -, rfl⟩ | ⟨position, proxies, lowest, paired, issues, rfl⟩
  · exact .plain (List.flatMap_eq_nil_iff.1 empty)
  · -- the lowest place is that of the first part with a measurement
    cases found : parts.find? fun part => !part.recorded.isEmpty with
    | none =>
      have quiet : ∀ part ∈ parts, part.recorded = [] := by simpa using found
      rw [List.flatMap_eq_nil_iff.2 quiet] at lowest
      cases lowest
    | some first =>
      obtain ⟨measured, early, late, rfl, quiet⟩ := List.find?_eq_some_iff_append.1 found
      have quiet : ∀ part ∈ early, part.recorded = [] := by simpa using quiet
      have measured : first.recorded ≠ [] := by simpa using measured
      have position : position = (early.flatMap Part.lowered).length := by
        simpa using lowest.symm.trans (unrolls.min_index quiet measured)
      have joined : (early ++ first :: late).flatMap Part.lowered =
          early.flatMap Part.lowered ++ (first :: late).flatMap Part.lowered := List.flatMap_append
      rw [joined, position, List.take_left, List.drop_left]
      refine .batched rfl quiet measured paired issues.nodup
        (fun x member used => issues.not_mem member (reserved used)) fun h member => ?_
      rw [List.flatMap_append, List.flatMap_eq_nil_iff.2 quiet, List.nil_append] at member
      exact unrolls.apart h member

end Unrolls

theorem Tracks.erase_eq {c c' : Context} {p p' : Progress} {new : List (Hoisted NodeId)}
    {found : List (Hoisted Unit)} (tracks : Tracks c p c' p' new) (takes : Takes p p' found) :
    new.map Hoisted.erase = found := by
  cases open_ : p.batch with
  | none => rw [tracks.closed open_, takes.closed open_, List.map_nil]
  | some b =>
    have batch := takes.batch
    rw [tracks.batch, open_] at batch
    simpa using batch

/-- The block is the innermost one that is open. The known names are taken, and the names that wait
with the measurements may be used. -/
structure Innermost (o : Options) (known : List String) (block : NodeId) (c : Context) (p : Progress) :
    Prop where
  matched : Matches o c p
  block : c.frames.head?.map AllocationFrame.block = some block
  reserved : known ⊆ p.names.taken
  pending : p.pending ⊆ p.allowed o

namespace Innermost

variable {o : Options} {known : List String} {block : NodeId} {c c' : Context} {p p' : Progress}
  {new : List (Hoisted NodeId)} {suffix : List HoistEntry}

theorem opened (innermost : Innermost o known block c p) : ∃ b, p.batch = some b := by
  have stack := innermost.matched.stack
  cases open_ : p.batch with
  | none =>
    have inside := innermost.block
    rw [open_] at stack
    rw [stack.1] at inside
    cases inside
  | some b => exact ⟨b, rfl⟩

theorem standing (innermost : Innermost o known block c p) (index : Nat) :
    Innermost o known block (c.standing index) (p.standing index) := by
  refine ⟨innermost.matched.standing index, ?_, innermost.reserved, ?_⟩
  · rw [← innermost.block, Context.standing]
    cases c.frames <;> rfl
  · have same : (p.standing index).pending = p.pending := by
      unfold Progress.pending Progress.standing
      cases p.batch <;> rfl
    rw [same]
    exact innermost.pending

theorem suffix_eq {index : Nat} (innermost : Innermost o known block c p)
    (tracks : Tracks (c.standing index) (p.standing index) c' p' new)
    (records : Records suffix (c.standing index) c') :
    suffix = new.map (Hoisted.entry block) ∧ ∀ h ∈ new, h.index = index := by
  obtain ⟨b, open_⟩ := innermost.opened
  have stack := innermost.matched.stack
  have inside := innermost.block
  rw [open_] at stack
  obtain ⟨block', frames, table, tables, frames_eq, tables_eq, -, -⟩ := stack
  rw [frames_eq] at inside
  obtain rfl : block' = block := by simpa using inside
  have recorded := records.tables.symm.trans tracks.tables
  simp only [Context.standing, Context.recording, frames_eq, tables_eq, List.modifyHead_cons,
    List.cons.injEq, List.append_cancel_left_eq, and_true] at recorded
  refine ⟨recorded, fun h member => ?_⟩
  obtain ⟨frame, head, -, place⟩ := records.inPlace _ (recorded ▸ List.mem_map_of_mem member)
  rw [Context.standing, frames_eq] at head
  cases head
  exact place

end Innermost

structure Familiar (o : Options) (known : List String) (depth : Nat) (s : StmtTree NodeId) : Prop where
  height : s.height ≤ depth
  names : s.erase.names ⊆ known
  identifiers : s.erase.identifiers ⊆ o.boilerplateAlias :: known

section Lower

variable {o : Options} {known : List String} {depth place : Nat} {block : NodeId} {t : SyntaxTree}
  {c : Context} {p : Progress} {after : LoweringState}

theorem lowerStatementWithin_arises {s : StmtTree NodeId} {ids : List NodeId}
    (innermost : Innermost o known block c p) (familiar : Familiar o known depth s)
    (owned : Owns t s.cells)
    (ran : lowerStatementWithin depth s.label ⟨t, c.standing place⟩ = .ok ids after) :
    ∃ (stmts : List (StmtTree NodeId)) (new : List (Hoisted NodeId)) (p' : Progress),
      Part.Arises o known (lowerStatementWithin depth) block place
        ⟨s.erase, stmts.map StmtTree.erase, new.map Hoisted.erase⟩ ⟨t, c⟩ s.label ids after ∧
      stmts.map StmtTree.label = ids ∧
      Becomes t after.tree s.cells (stmts.flatMap StmtTree.cells ++ new.flatMap Hoisted.cells) ∧
      Tracks (c.standing place) (p.standing place) after.context p' new ∧
      Takes p p' (new.map Hoisted.erase) ∧ Innermost o known block after.context p' := by
  obtain ⟨b, open_⟩ := innermost.opened
  have inside := innermost.standing place
  have allowed : s.erase.identifiers ⊆ (p.standing place).allowed o :=
    List.Subset.trans familiar.identifiers (List.cons_subset_cons _ inside.reserved)
  obtain ⟨⟨r, p'⟩, -, ⟨new, ⟨stmts, erased, labels, becomes⟩, tracks⟩, lowers⟩ :=
    ((lowerStatementWithin_runs s familiar.height inside.matched owned).and_yields
      (lowerStmt_lowers s.erase _)).exists_of_ok ran
  obtain ⟨found, takes, batched⟩ := lowers.batches (by simpa using familiar.names) inside.reserved
  have draws := lowers.draws (by simpa using allowed) inside.pending
  obtain rfl := tracks.erase_eq takes
  obtain ⟨suffix, records⟩ := lowerStatementWithin_records depth s.label _ _ _ ran
  obtain ⟨recorded, places⟩ := innermost.suffix_eq tracks records
  have matched' := tracks.matched inside.matched
  dsimp only at erased
  subst erased
  have held := Holds.append_iff.1 becomes.held
  have supply : after.context.names = p'.names := matched'.names
  refine ⟨stmts, new, p', ?_, labels, becomes, tracks, (Takes.standing place).none_then takes, matched',
    ?_, takes.reserves inside.reserved, draws.pending⟩
  · exact {
      ran := (LowerM.run_bind
        (Runs.lift_contextM (run_enterStatement innermost.matched open_ place))).trans ran
      source := ⟨[s], rfl, rfl, by simpa using owned.held⟩
      lowered := ⟨stmts, labels, rfl, held.1⟩
      batched := by simpa [Progress.standing, open_] using batched
      entries := ⟨suffix, records.tables, new, recorded.symm, rfl, held.2⟩
      index := by simpa [Hoisted.erase] using places
      taken := by simpa [innermost.matched.names, supply, Progress.standing] using takes.taken
      fresh := by simpa [innermost.matched.names, Progress.standing] using takes.fresh
      uses := by simpa [Progress.allowed, supply] using draws.names }
  · rw [tracks.frames]
    exact inside.block

structure Unrolled (o : Options) (known : List String) (depth place : Nat) (block : NodeId)
    (t : SyntaxTree) (c : Context) (p : Progress) (body : List (StmtTree NodeId)) (parts : List Part)
    (stmts : List (StmtTree NodeId)) (new : List (Hoisted NodeId)) (after : LoweringState)
    (p' : Progress) : Prop where
  unrolls : Unrolls o known (lowerStatementWithin depth) block place parts ⟨t, c⟩
    (body.map StmtTree.label) after
  sources : parts.map Part.source = body.map StmtTree.erase
  lowered : parts.flatMap Part.lowered = stmts.map StmtTree.erase
  recorded : parts.flatMap Part.recorded = new.map Hoisted.erase
  becomes : Becomes t after.tree (body.flatMap StmtTree.cells)
    (stmts.flatMap StmtTree.cells ++ new.flatMap Hoisted.cells)
  tracks : ∃ index, Tracks (c.standing index) (p.standing index) after.context p' new
  takes : Takes p p' (new.map Hoisted.erase)
  innermost : Innermost o known block after.context p'

theorem Unrolled.nil (innermost : Innermost o known block c p) (place : Nat) :
    Unrolled o known depth place block t c p [] [] [] [] ⟨t, c⟩ p := by
  refine ⟨.done _ _, rfl, rfl, rfl, .refl .nil, ?_, .refl p, innermost⟩
  obtain ⟨b, open_⟩ := innermost.opened
  obtain ⟨sameContext, sameProgress⟩ := innermost.matched.standing_self open_
  refine ⟨b.statement, ?_⟩
  rw [sameContext, sameProgress]
  exact .refl innermost.matched

theorem lowerAllocated_unrolls {body : List (StmtTree NodeId)} {lowered all : List NodeId}
    (innermost : Innermost o known block c p) (familiar : ∀ s ∈ body, Familiar o known depth s)
    (owned : Owns t (body.flatMap StmtTree.cells))
    (ran : lowerAllocated (lowerStatementWithin depth) lowered (body.map StmtTree.label) ⟨t, c⟩ =
      .ok all after) :
    ∃ parts stmts new p', all = lowered ++ stmts.map StmtTree.label ∧
      Unrolled o known depth lowered.length block t c p body parts stmts new after p' := by
  -- each statement leaves the block innermost, with the names it took in the supply
  induction body generalizing t c p lowered with
  | nil =>
    cases ran
    exact ⟨[], [], [], p, by simp, .nil innermost _⟩
  | cons s body ih =>
    rw [List.flatMap_cons] at owned
    obtain ⟨⟨⟩, s₁, entered, ended⟩ := LowerM.exists_of_bind_ok ran
    obtain ⟨ids, ⟨t₁, c₁⟩, here, ended⟩ := LowerM.exists_of_bind_ok ended
    obtain ⟨b, open_⟩ := innermost.opened
    cases entered.symm.trans (Runs.lift_contextM
      (run_enterStatement innermost.matched open_ lowered.length))
    obtain ⟨stmts, new, p₁, arises, rfl, first, tracks, takes, innermost₁⟩ :=
      lowerStatementWithin_arises innermost (familiar s List.mem_cons_self) owned.left here
    obtain ⟨parts, stmts', later, p₂, rfl, rest⟩ := ih innermost₁
      (fun s inside => familiar s (List.mem_cons_of_mem _ inside))
      ((first.frame_owned owned).owns owned).right ended
    obtain ⟨index, tracks'⟩ := rest.tracks
    have unrolls := rest.unrolls
    rw [List.length_append] at unrolls
    refine ⟨_ :: parts, stmts ++ stmts', new ++ later, p₂, ?_, .next arises unrolls, ?_, ?_, ?_, ?_,
      ⟨index, ?_⟩, ?_, rest.innermost⟩
    · rw [List.map_append, List.append_assoc]
    · rw [List.map_cons, List.map_cons, rest.sources]
    · rw [List.flatMap_cons, List.map_append, rest.lowered]
    · rw [List.flatMap_cons, List.map_append, rest.recorded]
    · refine (first.append rest.becomes owned).perm .rfl (List.perm_iff_count.2 fun cell => ?_)
      simp only [List.flatMap_append, List.count_append]
      omega
    · have moved := tracks.standing index
      rw [Context.standing_standing, Progress.standing_standing] at moved
      exact moved.trans tracks'
    · rw [List.map_append]
      exact takes.trans rest.takes

end Lower

/-- The allocation block is lowered: its statements one after the other, in a block that is opened
before the first of them and closed behind the last. The entries of its table are of the measurements
recorded by then. The tree comes to hold the block with another body, and the batch stands in it. -/
structure Emission (o : Options) (known : List String) (depth : Nat) (id context : NodeId)
    (binding : Option NodeId) (body : List NodeId) (parts : List Part) (s s' : LoweringState) : Prop where
  sources : s.tree.Reads body (parts.map Part.source)
  lowered : ∃ opened last entries closed,
    (ContextM.pushAllocation id : LowerM Unit) s = .ok () opened ∧
    Unrolls o known (lowerStatementWithin depth) id 0 parts opened body last ∧
    (ContextM.popAllocation id : LowerM (List HoistEntry)) last = .ok entries closed ∧
    last.tree.ReadsEntries id entries (parts.flatMap Part.recorded)
  once : ((parts.flatMap Part.recorded).map Hoisted.placeholder).Nodup
  arranged : ∃ ids stmts, s'.tree.stmt id = .ok (.scoped context binding ids) ∧
    s'.tree.Reads ids stmts ∧ Arranged o known parts stmts

theorem lowerAllocation_emits {o : Options} {known : List String} {depth : Nat} {id context : NodeId}
    {binding : Option NodeId} {t : SyntaxTree} {c : Context} {p : Progress}
    {body : List (StmtTree NodeId)} {s' : LoweringState} (matched : Matches o c p)
    (reserved : known ⊆ p.names.taken)
    (familiar : ∀ s ∈ body, Familiar o known depth s)
    (owned : Owns t ((id, .stmt (.scoped context binding (body.map StmtTree.label))) ::
      body.flatMap StmtTree.cells))
    (ran : lowerAllocation (lowerStatementWithin depth) id (body.map StmtTree.label) ⟨t, c⟩ =
      .ok () s') :
    ∃ parts, Emission o known depth id context binding (body.map StmtTree.label) parts ⟨t, c⟩ s' := by
  obtain ⟨⟨⟩, s₀, pushed, ended⟩ := LowerM.exists_of_bind_ok ran
  cases pushed
  obtain ⟨ids, ⟨t₁, c₁⟩, lowered, ended⟩ := LowerM.exists_of_bind_ok ended
  obtain ⟨entries, s₂, popped, ended⟩ := LowerM.exists_of_bind_ok ended
  obtain ⟨ids', ⟨t₃, c₃⟩, emitted, ended⟩ := LowerM.exists_of_bind_ok ended
  have innermost : Innermost o known id
      { c with frames := ⟨id, 0⟩ :: c.frames, tables := [] :: c.tables }
      { p with batch := some ⟨0, []⟩ } :=
    ⟨matched.opened id, rfl, reserved, by simp [Progress.pending]⟩
  obtain ⟨parts, stmts, new, p₁, rfl, unrolled⟩ :=
    lowerAllocated_unrolls innermost familiar owned.tail lowered
  obtain ⟨index, tracks⟩ := unrolled.tracks
  obtain ⟨closed, -, kept⟩ := run_popAllocation matched tracks
  cases popped.symm.trans (Runs.lift_contextM closed)
  have inBody := unrolled.becomes.cons_owned owned
  have owned₁ := inBody.owns owned
  obtain ⟨⟨r, p₂⟩, planned, whole, erased, rfl, -, second⟩ :=
    (emitBatch_runs new stmts (kept.matched matched) owned₁.tail).exists_of_ok emitted
  dsimp only at erased
  subst erased
  have inBlock := inBody.trans (second.cons_owned owned₁)
  cases ended.symm.trans (Runs.lift_treeM (run_setScopedBody (inBlock.held _ List.mem_cons_self)))
  have held := Holds.cons_iff.1 (inBlock.put_head owned
    (.stmt (.scoped context binding (whole.map StmtTree.label)))).held
  rw [← unrolled.recorded, ← unrolled.lowered] at planned
  have reserved₁ : known ⊆ ({ p₁ with batch := p.batch } : Progress).names.taken :=
    unrolled.takes.reserves reserved
  exact ⟨parts, {
    sources := ⟨body, rfl, unrolled.sources.symm, owned.tail.held⟩
    lowered := ⟨_, _, _, _, rfl, unrolled.unrolls, popped, new, rfl, unrolled.recorded.symm,
      (Holds.append_iff.1 unrolled.becomes.held).2⟩
    once := unrolled.recorded ▸ unrolled.takes.once
    arranged := ⟨_, _, stmt_eq held.1, ⟨whole, rfl, rfl, held.2⟩,
      unrolled.unrolls.arranged reserved₁ planned⟩ }⟩

/-- Every allocation block that is lowered while a module is, whether the module is lowered in the end
or not, comes to have its batch in place. Known are the identifiers of the module. -/
theorem lowerAllocation_arranged {t : SyntaxTree} {o : Options} {boilerplate : Bool} {visit : Visit}
    {context : NodeId} {binding : Option NodeId} {body : List NodeId} {s s' : LoweringState}
    (kinded : t.WellKinded) (valid : t.validate = .ok ()) (visits : t.Visits o boilerplate visit)
    (found : visit.state.tree.stmt visit.id = .ok (.scoped context binding body))
    (searched : replaceMeasurements context visit.state = .ok () s)
    (ran : lowerAllocation (lowerStatementWithin visit.depth) visit.id body s = .ok () s') :
    ∃ input parts, t.Reads t.body input ∧
      Emission o (input.flatMap StmtTree.identifiers) visit.depth visit.id context binding body parts
        s s' := by
  obtain ⟨all, placed⟩ := exists_placed kinded valid
  obtain ⟨⟨block, p, enters⟩, reserved⟩ := placed.enters visits
  have same := found.symm.trans (enters.label ▸ stmt_eq enters.owned.held.stmt_node)
  cases block with
  | «scoped» id context binding body =>
    cases same
    obtain rfl : id = visit.id := enters.label
    have owned := enters.owned
    rw [StmtTree.cells_scoped] at owned
    obtain ⟨⟨r, p₁⟩, -, d, new, -, -, tracks, first⟩ :=
      (replaceMeasurements_runs enters.matched context owned.tail.left.left).exists_of_ok searched
    have inContext := ((first.frame_owned owned.tail.left).frame_owned owned.tail).cons_owned owned
    have outer := inContext.owns owned
    obtain ⟨handed, issues⟩ := (issued_replaceMeasurements context.label).ensures _ _ _ searched
    have reserved₁ : (all.map StmtTree.erase).flatMap StmtTree.identifiers ⊆ p₁.names.taken :=
      fun x used => tracks.names ▸ issues.mem_taken.2 (.inr (reserved used))
    have familiar : ∀ s ∈ body, Familiar o ((all.map StmtTree.erase).flatMap StmtTree.identifiers)
        visit.depth s := by
      intro s member
      have inside : s ∈ (StmtTree.scoped visit.id context binding body).inner := member
      have erased := StmtTree.inner_erase _ ▸ List.mem_map_of_mem inside
      have lower := StmtTree.height_inner inside
      have bound := enters.bound
      exact ⟨by omega, List.Subset.trans (StmtTree.names_inner erased) enters.names,
        List.Subset.trans (StmtTree.identifiers_inner erased) enters.identifiers⟩
    obtain ⟨parts, emission⟩ := lowerAllocation_emits (tracks.matched enters.matched) reserved₁ familiar
      (outer.perm (List.perm_middle.symm.trans List.perm_append_comm)).left ran
    exact ⟨_, parts, ⟨all, placed.labels, rfl, placed.owned.held⟩, emission⟩
  | _ => cases same

def clobberingBlock : StmtTree NodeId :=
  .scoped 19 (.node 2 (.call (.node 0 (.name "allocate")) [.node 1 (.int 1)] []))
    (some (.node 3 (.name "q")))
    [.conditional 13 (.node 8 (.call (.node 4 (.name "superposition")) [.node 7 (.compare
        (.node 5 (.name "q")) .equal (.node 6 (.int 0)))] []))
      [.expr 12 (.node 11 (.call (.node 9 (.name "X")) [.node 10 (.name "t")] []))] [],
    .assign 18 (.node 14 (.name "x"))
      (.node 17 (.call (.node 15 (.name "measure")) [.node 16 (.name "q")] []))]

def clobberingModule : SyntaxTree :=
  ⟨#[.expr (.name "allocate"), .expr (.int 1), .expr (.call 0 [1] []), .expr (.name "q"),
    .expr (.name "superposition"), .expr (.name "q"), .expr (.int 0), .expr (.compare 5 .equal 6),
    .expr (.call 4 [7] []), .expr (.name "X"), .expr (.name "t"), .expr (.call 9 [10] []),
    .stmt (.expr 11), .stmt (.conditional 8 [12] []), .expr (.name "x"), .expr (.name "measure"),
    .expr (.name "q"), .expr (.call 15 [16] []), .stmt (.assign 14 17),
    .stmt (.scoped 2 (some 3) [13, 18])], [19]⟩

theorem clobberingModule_placed : Placed clobberingModule [clobberingBlock] := by
  refine ⟨rfl, ?_, ?_⟩
  · simp [clobberingModule, clobberingBlock, Expr.map, Expr.children, Holds, StmtTree.label]
  · simp [clobberingBlock, Expr.map, Expr.children, StmtTree.label]

def clobberingOptions : Options := { Options.default with boilerplateAlias := "_m1" }

/-- The placeholder occurs earlier, where it is the name of the import. -/
theorem lowerAllocation_arranged_clobbering :
    ∃ state s s' input parts,
      clobberingModule.Visits clobberingOptions false ⟨20, 19, state⟩ ∧
      replaceMeasurements 2 state = .ok () s ∧
      lowerAllocation (lowerStatementWithin 20) 19 [13, 18] s = .ok () s' ∧
      clobberingModule.Reads clobberingModule.body input ∧
      Emission clobberingOptions (input.flatMap StmtTree.identifiers) 20 19 2 (some 3) [13, 18] parts
        s s' ∧
      (s'.tree.renderStmtWithin 20 19).toOption = some ["with allocate(1) as q:",
        "    with _m1.control_scope(q, 0) as __control:", "        Controlled[X](__control, t)",
        "    _mp1 = measure(q)", "    (_m1,) = _m1.execute(_mp1)", "    x = _m1"] := by
  have placed := clobberingModule_placed
  have visits := visits_first (run_front_false placed clobberingOptions) rfl
  have outside := (matches_start clobberingOptions [clobberingBlock]).stack.1
  have searched := run_replaceMeasurements_outside (s := ⟨clobberingModule, _⟩) outside 2
  have succeeds : LowerM.succeeds (lowerAllocation (lowerStatementWithin 20) 19 [13, 18])
      ⟨clobberingModule,
        (Context.new clobberingOptions).enterAll ([clobberingBlock].flatMap StmtTree.cells)⟩ := by
    decide +kernel
  have listed : ((LowerM.final (lowerAllocation (lowerStatementWithin 20) 19 [13, 18])
      ⟨clobberingModule, (Context.new clobberingOptions).enterAll
        ([clobberingBlock].flatMap StmtTree.cells)⟩).tree.renderStmtWithin 20 19).toOption =
      some ["with allocate(1) as q:", "    with _m1.control_scope(q, 0) as __control:",
        "        Controlled[X](__control, t)", "    _mp1 = measure(q)",
        "    (_m1,) = _m1.execute(_mp1)", "    x = _m1"] := by
    decide +kernel
  obtain ⟨⟨⟩, s', ran⟩ := LowerM.exists_of_succeeds succeeds
  rw [LowerM.final, ran] at listed
  obtain ⟨input, parts, reads, emission⟩ :=
    lowerAllocation_arranged placed.wellKinded placed.validate visits rfl searched ran
  exact ⟨_, _, s', input, parts, visits, searched, ran, reads, emission, listed⟩

end QuantumLowering
