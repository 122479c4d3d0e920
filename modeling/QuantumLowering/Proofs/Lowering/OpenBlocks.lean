import QuantumLowering.Proofs.Lowering.Effects
import QuantumLowering.Proofs.Operation.Freshness

namespace QuantumLowering

inductive ContextCall where
  | push (block : NodeId)
  | enter (index : Nat)
  | record (call : NodeId)
  | pop (block : NodeId)
  | suspend
  | resume (set : Nat)
  | fresh (base : String)
  | reserve (name : String)
deriving DecidableEq, Repr, Inhabited

/-- A name that the supply learnt of: it was reserved, handed out, or handed out as the placeholder of
a measurement. -/
inductive NameEvent where
  | reserved (name : String)
  | handed (name : String)
  | recorded (entry : HoistEntry)
deriving DecidableEq, Repr, Inhabited

namespace NameEvent

def name : NameEvent → String
  | .reserved name => name
  | .handed name => name
  | .recorded entry => entry.placeholder

def entry? : NameEvent → Option HoistEntry
  | .recorded entry => some entry
  | _ => none

/-- A name that is handed out later is not the earlier one. Reserving it again is no harm. -/
def Apart (earlier : NameEvent) : NameEvent → Prop
  | .reserved _ => True
  | later => earlier.name ≠ later.name

end NameEvent

/-- A context, the sets of blocks that were set aside, and the names it learnt of, oldest first. A set
is still there after it was resumed, so it can be resumed again. -/
structure Session where
  context : Context
  suspended : List Suspended
  log : List NameEvent

namespace Session

def new (o : Options) : Session := ⟨.new o, [], []⟩

def note (event : NameEvent) (s : Session) : Session := { s with log := s.log ++ [event] }

def latest (s : Session) : Option HoistEntry := s.context.tables.head?.bind List.getLast?

def run {α : Type} (s : Session) (act : ContextM α) (keep : α → Session → Session) : Session :=
  match act s.context with
  | .ok a c => keep a { s with context := c }
  | .error _ c => { s with context := c }

theorem run_ok {α : Type} {s : Session} {act : ContextM α} {a : α} {c : Context}
    (ran : act s.context = .ok a c) (keep : α → Session → Session) :
    s.run act keep = keep a { s with context := c } := by
  rw [run, ran]

theorem run_error {α : Type} {s : Session} {act : ContextM α} {e : LoweringError} {c : Context}
    (failed : act s.context = .error e c) (keep : α → Session → Session) :
    s.run act keep = { s with context := c } := by
  rw [run, failed]

def call (s : Session) : ContextCall → Session
  | .push block => s.run (ContextM.pushAllocation block) fun _ => id
  | .enter index => s.run (ContextM.enterStatement index) fun _ => id
  | .record call => s.run (ContextM.recordMeasurement call) fun placeholder s =>
    match placeholder, s.latest with
    | some _, some entry => s.note (.recorded entry)
    | _, _ => s
  | .pop block => s.run (ContextM.popAllocation block) fun _ => id
  | .suspend => s.run ContextM.suspendAllocations fun set s =>
    { s with suspended := s.suspended ++ [set] }
  | .resume i =>
    match s.suspended[i]? with
    | some set => s.run (ContextM.resumeAllocations set) fun _ => id
    | none => s
  | .fresh base => s.run (ContextM.freshName base) fun name => note (.handed name)
  | .reserve name => s.run (ContextM.reserve name) fun _ => note (.reserved name)

def after (o : Options) (calls : List ContextCall) : Session := calls.foldl call (new o)

def tables (s : Session) : List (List HoistEntry) :=
  s.context.tables ++ s.suspended.flatMap Suspended.tables

/-- Every measurement that was entered into a table, oldest first. -/
def recorded (s : Session) : List HoistEntry := s.log.filterMap NameEvent.entry?

theorem mem_recorded {s : Session} {entry : HoistEntry} :
    entry ∈ s.recorded ↔ .recorded entry ∈ s.log := by
  refine List.mem_filterMap.trans ⟨?_, fun member => ⟨_, member, rfl⟩⟩
  rintro ⟨event, member, same⟩
  cases event <;> cases same
  exact member

end Session

/-- There are as many tables as blocks, and the entries of a table belong to the block at its place. -/
def Matched (frames : List AllocationFrame) (tables : List (List HoistEntry)) : Prop :=
  List.Forall₂ (fun frame table => ∀ entry ∈ table, entry.block = frame.block) frames tables

/-- Blocks and tables match, what is in a table was recorded, and a name handed out is none of those
before it. -/
structure Session.Upheld (s : Session) : Prop where
  blocks : Matched s.context.frames s.context.tables
  suspended : ∀ set ∈ s.suspended, Matched set.frames set.tables
  entries : ∀ table ∈ s.tables, ∀ entry ∈ table, .recorded entry ∈ s.log
  taken : ∀ event ∈ s.log, event.name ∈ s.context.names.taken
  apart : s.log.Pairwise NameEvent.Apart

namespace Session.Upheld

variable {s : Session} {o : Options}

theorem new (o : Options) : (Session.new o).Upheld where
  blocks := .nil
  suspended := by simp [Session.new]
  entries := by simp [Session.tables, Session.new, Context.new]
  taken := by simp [Session.new]
  apart := .nil

theorem move (upheld : s.Upheld) {frames : List AllocationFrame} {tables : List (List HoistEntry)}
    (blocks : Matched frames tables) (kept : ∀ table ∈ tables, table = [] ∨ table ∈ s.tables) :
    Session.Upheld { s with context := { s.context with frames := frames, tables := tables } } where
  blocks := blocks
  suspended := upheld.suspended
  entries := by
    intro table member entry inside
    rcases List.mem_append.1 member with member | member
    · rcases kept table member with rfl | member
      · cases inside
      · exact upheld.entries table member entry inside
    · exact upheld.entries table (List.mem_append_right _ member) entry inside
  taken := upheld.taken
  apart := upheld.apart

theorem learn (upheld : s.Upheld) {names : NameSupply} (event : NameEvent)
    (grown : ∀ name ∈ s.context.names.taken, name ∈ names.taken) (listed : event.name ∈ names.taken)
    (apart : ∀ earlier ∈ s.log, earlier.Apart event) :
    Session.Upheld ({ s with context := { s.context with names := names } }.note event) where
  blocks := upheld.blocks
  suspended := upheld.suspended
  entries := fun table member entry inside =>
    List.mem_append_left _ (upheld.entries table member entry inside)
  taken := by
    intro e member
    rcases List.mem_append.1 member with member | member
    · exact grown _ (upheld.taken e member)
    · obtain rfl := List.mem_singleton.1 member
      exact listed
  apart := by
    refine List.pairwise_append.2 ⟨upheld.apart, List.pairwise_singleton _ _, ?_⟩
    intro earlier member later last
    obtain rfl := List.mem_singleton.1 last
    exact apart earlier member

theorem handOut (upheld : s.Upheld) (base : String) (event : NameEvent)
    (named : event.name = (s.context.names.fresh base).1) :
    Session.Upheld ({ s with
      context := { s.context with names := (s.context.names.fresh base).2 } }.note event) := by
  refine upheld.learn event (fun _ => List.mem_cons_of_mem _) (named ▸ List.mem_cons_self) ?_
  intro earlier member
  have other : earlier.name ≠ event.name := by
    intro same
    have taken := upheld.taken earlier member
    rw [same, named] at taken
    exact s.context.names.fresh_not_mem base taken
  cases event with
  | reserved => trivial
  | handed | recorded => exact other

theorem push (upheld : s.Upheld) (block : NodeId) : (s.call (.push block)).Upheld := by
  refine upheld.move (.cons (by simp) upheld.blocks) fun table member => ?_
  rcases List.mem_cons.1 member with rfl | member
  · exact .inl rfl
  · exact .inr (List.mem_append_left _ member)

theorem enter (upheld : s.Upheld) (index : Nat) : (s.call (.enter index)).Upheld := by
  rw [Session.call]
  obtain failed | ⟨frame, frames, opened, ran⟩ := ContextM.enterStatement_cases index s.context
  · rw [Session.run_error failed]
    exact upheld
  · rw [Session.run_ok ran]
    have blocks := upheld.blocks
    rw [opened] at blocks
    obtain ⟨table, tables, belong, rest, listed⟩ := List.forall₂_cons_left_iff.1 blocks
    refine upheld.move ?_ fun table member => .inr (List.mem_append_left _ member)
    rw [listed]
    exact .cons belong rest

theorem enterEntry (upheld : s.Upheld) {frame : AllocationFrame} {frames : List AllocationFrame}
    {table : List HoistEntry} {tables : List (List HoistEntry)} {entry : HoistEntry}
    (opened : s.context.frames = frame :: frames) (listed : s.context.tables = table :: tables)
    (belongs : entry.block = frame.block) (logged : .recorded entry ∈ s.log) :
    Session.Upheld { s with context := { s.context with tables := (table ++ [entry]) :: tables } } where
  blocks := by
    have blocks := upheld.blocks
    rw [opened, listed] at blocks
    obtain ⟨belong, rest⟩ := List.forall₂_cons.1 blocks
    change Matched s.context.frames _
    rw [opened]
    refine .cons (fun e member => ?_) rest
    rcases List.mem_append.1 member with member | member
    · exact belong e member
    · rw [List.mem_singleton.1 member]
      exact belongs
  suspended := upheld.suspended
  entries := by
    intro found member e inside
    rcases List.mem_append.1 member with member | member
    · rcases List.mem_cons.1 member with rfl | member
      · rcases List.mem_append.1 inside with inside | inside
        · exact upheld.entries table (List.mem_append_left _ (listed ▸ List.mem_cons_self)) e inside
        · rw [List.mem_singleton.1 inside]
          exact logged
      · exact upheld.entries found
          (List.mem_append_left _ (listed ▸ List.mem_cons_of_mem _ member)) e inside
    · exact upheld.entries found (List.mem_append_right _ member) e inside
  taken := upheld.taken
  apart := upheld.apart

theorem record (upheld : s.Upheld) (call : NodeId) : (s.call (.record call)).Upheld := by
  rw [Session.call]
  obtain nothing | ⟨frame, frames, table, tables, base, opened, listed, ran⟩ :=
    ContextM.recordMeasurement_cases call s.context
  · rw [Session.run_ok nothing]
    exact upheld
  rw [Session.run_ok ran]
  let entry : HoistEntry := ⟨frame.block, frame.statement, call, (s.context.names.fresh base).1⟩
  have last : (table ++ [entry]).getLast? = some entry := List.getLast?_concat
  simp only [Session.latest, List.head?_cons, Option.bind_some]
  rw [last]
  -- the name is logged first, so that the entry is a recorded one when it gets into its table
  have handed := upheld.handOut base (.recorded entry) rfl
  exact handed.enterEntry opened listed rfl (List.mem_append_right _ (List.mem_singleton_self _))

theorem pop (upheld : s.Upheld) (block : NodeId) : (s.call (.pop block)).Upheld := by
  rw [Session.call]
  obtain ⟨-, failed⟩ | ⟨-, failed⟩ | ⟨frame, frames, table, tables, opened, listed, ran⟩ :=
    ContextM.popAllocation_cases block s.context
  · rw [Session.run_error failed]
    exact upheld
  · rw [Session.run_error failed]
    exact upheld
  have blocks := upheld.blocks
  rw [opened, listed] at blocks
  obtain ⟨-, rest⟩ := List.forall₂_cons.1 blocks
  have closed := upheld.move rest fun table member =>
    .inr (List.mem_append_left _ (listed ▸ List.mem_cons_of_mem _ member))
  by_cases same : frame.block = block
  · rw [if_pos same] at ran
    rw [Session.run_ok ran]
    exact closed
  · rw [if_neg same] at ran
    rw [Session.run_error ran]
    exact closed

theorem suspend (upheld : s.Upheld) : (s.call .suspend).Upheld where
  blocks := .nil
  suspended := by
    intro set member
    rcases List.mem_append.1 member with member | member
    · exact upheld.suspended set member
    · obtain rfl := List.mem_singleton.1 member
      exact upheld.blocks
  entries := by
    intro table member entry inside
    refine upheld.entries table ?_ entry inside
    obtain ⟨set, member, inside⟩ := List.mem_flatMap.1 member
    rcases List.mem_append.1 member with member | member
    · exact List.mem_append_right _ (List.mem_flatMap.2 ⟨set, member, inside⟩)
    · obtain rfl := List.mem_singleton.1 member
      exact List.mem_append_left _ inside
  taken := upheld.taken
  apart := upheld.apart

theorem resume (upheld : s.Upheld) (i : Nat) : (s.call (.resume i)).Upheld := by
  rw [Session.call]
  cases found : s.suspended[i]? with
  | none => exact upheld
  | some set =>
    have member := List.mem_of_getElem? found
    dsimp only
    obtain ran | ⟨e, failed⟩ := ContextM.resumeAllocations_cases set s.context
    · rw [Session.run_ok ran]
      exact upheld.move (upheld.suspended set member) fun table inside =>
        .inr (List.mem_append_right _ (List.mem_flatMap.2 ⟨set, member, inside⟩))
    · rw [Session.run_error failed]
      exact upheld

theorem fresh (upheld : s.Upheld) (base : String) : (s.call (.fresh base)).Upheld :=
  upheld.handOut base (.handed (s.context.names.fresh base).1) rfl

theorem reserve (upheld : s.Upheld) (name : String) : (s.call (.reserve name)).Upheld := by
  have taken : ∀ x, x ∈ ([name].foldl NameSupply.reserve s.context.names).taken ↔
      x ∈ [name] ∨ x ∈ s.context.names.taken := fun _ => NameSupply.mem_taken_foldl_reserve
  refine upheld.learn (.reserved name) (fun x member => ?_) ?_ fun _ _ => trivial
  · exact (taken x).2 (.inr member)
  · exact (taken name).2 (.inl (List.mem_singleton_self name))

theorem call (upheld : s.Upheld) (call : ContextCall) : (s.call call).Upheld := by
  cases call with
  | push block => exact upheld.push block
  | enter index => exact upheld.enter index
  | record call => exact upheld.record call
  | pop block => exact upheld.pop block
  | suspend => exact upheld.suspend
  | resume i => exact upheld.resume i
  | fresh base => exact upheld.fresh base
  | reserve name => exact upheld.reserve name

theorem foldl (upheld : s.Upheld) (calls : List ContextCall) :
    (calls.foldl Session.call s).Upheld := by
  induction calls generalizing s with
  | nil => exact upheld
  | cons call calls ih => exact ih (upheld.call call)

theorem after (o : Options) (calls : List ContextCall) : (Session.after o calls).Upheld :=
  (Upheld.new o).foldl calls

theorem nodup_recorded (upheld : s.Upheld) : (s.recorded.map HoistEntry.placeholder).Nodup := by
  rw [List.Nodup, List.pairwise_map, Session.recorded, List.pairwise_filterMap]
  refine upheld.apart.imp fun {earlier later} apart entry same entry' same' => ?_
  cases earlier <;> cases same
  cases later <;> cases same'
  exact apart

theorem reserved_not_mem (upheld : s.Upheld) {earlier later : List NameEvent} {entry : HoistEntry}
    (split : s.log = earlier ++ .recorded entry :: later) :
    .reserved entry.placeholder ∉ earlier := by
  intro member
  have apart := upheld.apart
  rw [split, List.pairwise_append] at apart
  exact apart.2.2 _ member _ List.mem_cons_self rfl

theorem not_unevenStacks (upheld : s.Upheld) (block : NodeId) (frames tables : Nat) (c : Context) :
    ContextM.popAllocation block s.context ≠
      .error (.invariant (.unevenStacks frames tables)) c := by
  intro failed
  obtain ⟨uneven, -⟩ | ⟨-, ended⟩ | ⟨frame, frames, table, tables, -, -, ended⟩ :=
    ContextM.popAllocation_cases block s.context
  · exact uneven upheld.blocks.length_eq
  · cases ended.symm.trans failed
  · rw [ended] at failed
    split at failed <;> cases failed

end Session.Upheld

/-- From a new context on, after any calls in any order and whether they succeed or fail: the open
blocks and those set aside have their tables, with the entries of their own block; no placeholder is
entered twice or was reserved before; and closing a block never finds more or fewer tables than
blocks. -/
theorem Session.after_matched (o : Options) (calls : List ContextCall) :
    (after o calls).context.frames.length = (after o calls).context.tables.length ∧
      Matched (after o calls).context.frames (after o calls).context.tables ∧
      (∀ set ∈ (after o calls).suspended,
        set.frames.length = set.tables.length ∧ Matched set.frames set.tables) ∧
      (∀ table ∈ (after o calls).tables, ∀ entry ∈ table, entry ∈ (after o calls).recorded) ∧
      ((after o calls).recorded.map HoistEntry.placeholder).Nodup ∧
      (∀ earlier entry later, (after o calls).log = earlier ++ .recorded entry :: later →
        .reserved entry.placeholder ∉ earlier) ∧
      ∀ block frames tables c, ContextM.popAllocation block (after o calls).context ≠
        .error (.invariant (.unevenStacks frames tables)) c := by
  have upheld := Upheld.after o calls
  refine ⟨upheld.blocks.length_eq, upheld.blocks, fun set member => ?_, ?_, upheld.nodup_recorded,
    fun _ _ _ => upheld.reserved_not_mem, upheld.not_unevenStacks⟩
  · have matched := upheld.suspended set member
    exact ⟨matched.length_eq, matched⟩
  · exact fun table member entry inside =>
      mem_recorded.2 (upheld.entries table member entry inside)

example :
    let s := Session.after .default [.reserve "_m2", .push 1, .record 10, .record 11, .suspend,
      .push 2, .pop 5, .resume 0]
    s.recorded.map HoistEntry.placeholder = ["_m1", "_m2_1"] ∧
      s.context.frames = [⟨1, 0⟩] ∧ s.context.tables.map List.length = [2] := by
  decide +kernel

end QuantumLowering
