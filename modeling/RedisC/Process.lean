/-
The process: the main thread, the workers and the memory that they share.

The main thread runs the handlers.  An entry that it deletes is destroyed by the main
thread itself or, if its sorted set is large, by a worker of the pool.  The threads
interleave at every call of `tree_dispose`, at every release of a block and at every
section under the mutex; `malloc` may give out again any block that has been
released, also to the main thread while a worker is still at work.

The invariant says who owns each live block: an entry of the map, a job in the queue,
or a thread that is inside `entry_destroy`.
-/

import RedisC.Ownership
import RedisC.ThreadPool

namespace RedisC

open Allocator BalancedTree Fallible LabelledRun

/-! ### Destruction of an entry -/

/-- A call of `tree_dispose` that has not returned: it is about to test its argument, to
go on with the right child, or to release its node. -/
inductive DisposeCall
  | enter (node : Option Ptr)
  | right (node : Ptr)
  | free (node : Ptr)
  deriving DecidableEq, Repr

/-- Where a thread is in `entry_destroy`: nowhere, before the test of the type, in
`zset_dispose` with the calls of `tree_dispose`, or before `delete ent`. -/
inductive Activity
  | idle
  | destroying (ent : Ptr)
  | disposing (ent : Ptr) (calls : List DisposeCall)
  | deleting (ent : Ptr)
  deriving DecidableEq, Repr

abbrev ProcFault := MemFault Fault Block

/-- The links in the nodes of the sorted set of an entry. -/
def Entry.links (entry : Entry) : AvlMem :=
  match entry.zset with
  | none => fun _ => {}
  | some zset => zset.avl

/-- One step of `entry_destroy`, up to the next call or release. -/
def destroyStep (entry : Ptr → Entry) (live : Finset Block) :
    Activity → Except ProcFault (Finset Block × Activity)
  | .idle => .ok (live, .idle)
  | .destroying ent => do
      use live (.entry ent)
      match (entry ent).type, (entry ent).zset with
      | .str, _ => pure (live, .deleting ent)
      | .zset, none => .error (.program .nullDeref)
      | .zset, some zset => do
          use live (.zset ent)
          pure (live, .disposing ent [.enter zset.tree])
  | .disposing ent (.enter none :: calls) => .ok (live, .disposing ent calls)
  | .disposing ent (.enter (some node) :: calls) => do
      use live (.znode node)
      pure (live, .disposing ent (.enter ((entry ent).links node).left :: .right node :: calls))
  | .disposing ent (.right node :: calls) => do
      use live (.znode node)
      pure (live, .disposing ent (.enter ((entry ent).links node).right :: .free node :: calls))
  | .disposing ent (.free node :: calls) => do
      let live ← release live (.znode node)
      pure (live, .disposing ent calls)
  | .disposing ent [] => do
      -- `hm_destroy` is given the map of the set, and `delete` reads the pointer to the set
      use live (.zset ent)
      use live (.entry ent)
      let live ← release live (.zset ent)
      pure (live, .deleting ent)
  | .deleting ent => do
      let live ← release live (.entry ent)
      pure (live, .idle)

/-! ### The process -/

inductive Thread
  | main
  | worker (i : Nat)
  deriving DecidableEq, Repr

structure Process where
  g : GData := {}
  pool : ThreadPool := {}
  activity : Thread → Activity := fun _ => .idle
  /-- the blocks that are allocated -/
  live : Finset Block := ∅

/-- `entry_del_async`, the only function that is ever queued; its address does not matter. -/
def entryDelAsync : Ptr := 0

def processInit (numOfThreads : Nat) : Except Fault Process := do
  let pool ← threadPoolInit numOfThreads
  pure { pool := pool }

/-- A call of the main thread, a step of a thread inside `entry_destroy`, or a move of the
pool.  `woken` is the worker that `pthread_cond_signal` wakes, if a job is queued. -/
inductive ProcEvent
  | main (call : MainCall) (woken : Option Nat)
  | destroy (thread : Thread)
  | checked (i : Nat)
  | finished (i : Nat)
  | spurious (i : Nat)

/-- The addresses that `new` and `malloc` return are those of no live block. -/
def MainCall.Unallocated (live : Finset Block) : MainCall → Prop
  | .request alloc _ => Block.entry alloc.entry ∉ live ∧ Block.znode alloc.znode ∉ live
  | _ => True

/-- What the threads, the scheduler and the allocator keep to. -/
def ProcEvent.Allowed (p : Process) : ProcEvent → Prop
  | .main call woken =>
      p.activity .main = .idle ∧ call.Unallocated p.live ∧ Signals p.pool.threads woken
  | .destroy thread => p.activity thread ≠ .idle
  | .checked i => ∃ worker, p.pool.threads[i]? = some worker ∧ worker.checking = true
  | .finished i =>
      (∃ w, p.pool.threads[i]? = some (.running w)) ∧ p.activity (.worker i) = .idle
  | .spurious i => p.pool.threads[i]? = some .waiting

/-- What a call of the main thread does to the memory and to the pool. -/
def Process.apply (p : Process) (g : GData) (woken : Option Nat) :
    MemEffect → Except ProcFault Process
  | .none => .ok { p with g := g }
  | .allocates blocks => .ok { p with g := g, live := allocate p.live blocks }
  | .frees block => do
      let live ← release p.live block
      pure { p with g := g, live := live }
  | .destroys ent =>
      .ok { p with g := g, activity := Function.update p.activity .main (.destroying ent) }
  | .queues ent =>
      .ok { p with g := g, pool := threadPoolQueue p.pool ⟨entryDelAsync, ent⟩ woken }

def ProcEvent.exec (strtod : Strtod) (p : Process) : ProcEvent → Except ProcFault Process
  | .main call woken => do
      let (g, effect) ← program (call.exec strtod p.g)
      p.apply g woken effect
  | .destroy thread => do
      let (live, activity) ← destroyStep p.g.entry p.live (p.activity thread)
      pure { p with live := live, activity := Function.update p.activity thread activity }
  | .checked i => do
      match ← program (workerSection p.pool i) with
      | (pool, none) => pure { p with pool := pool }
      | (pool, some w) =>
          pure { p with
            pool := pool
            activity := Function.update p.activity (.worker i) (.destroying w.arg) }
  | .finished i => .ok { p with pool := { p.pool with threads := p.pool.threads.set i .ready } }
  | .spurious i => .ok { p with pool := { p.pool with threads := p.pool.threads.set i .woken } }

def ProcStep (strtod : Strtod) (p : Process) (event : ProcEvent) (after : Process) : Prop :=
  event.Allowed p ∧ event.exec strtod p = .ok after

/-! ### Owners -/

/-- The nodes that the calls of `tree_dispose` have still to release. -/
def CallsOwn (links : AvlMem) : List DisposeCall → Multiset Ptr → Prop
  | [], nodes => nodes = 0
  | .enter root :: calls, nodes => ∃ tree parent rest, rootPtr tree = root ∧
      Linked links parent tree ∧ CallsOwn links calls rest ∧
      nodes = (inorder tree : Multiset Ptr) + rest
  | .right node :: calls, nodes => ∃ tree parent rest, rootPtr tree = (links node).right ∧
      Linked links parent tree ∧ CallsOwn links calls rest ∧
      nodes = {node} + ((inorder tree : Multiset Ptr) + rest)
  | .free node :: calls, nodes => ∃ rest, CallsOwn links calls rest ∧ nodes = {node} + rest

def Owns (entry : Ptr → Entry) : Activity → Multiset Block → Prop
  | .idle, blocks => blocks = 0
  | .destroying ent, blocks => (entry ent).Sound ∧ blocks = (entry ent).blocks ent
  | .disposing ent calls, blocks => ∃ nodes, CallsOwn (entry ent).links calls nodes ∧
      blocks = {Block.entry ent} + ({Block.zset ent} + nodes.map Block.znode)
  | .deleting ent, blocks => blocks = {Block.entry ent}

section

variable {entry : Ptr → Entry} {live : Finset Block} {rest : Multiset Block}

theorem CallsOwn.enter_some {links : AvlMem} {node : Ptr} {calls : List DisposeCall}
    {nodes : Multiset Ptr} (owned : CallsOwn links (.enter (some node) :: calls) nodes) :
    CallsOwn links (.enter (links node).left :: .right node :: calls) nodes ∧
      ∃ others, nodes = {node} + others := by
  obtain ⟨tree, parent, others, root, linked, owned, nodesIs⟩ := owned
  cases tree with
  | nil => cases root
  | node value left right =>
      cases root
      obtain ⟨wired, -, leftLinked, rightLinked⟩ := linked
      have parts : nodes = (inorder left : Multiset Ptr) +
          ({node} + ((inorder right : Multiset Ptr) + others)) := by
        rw [nodesIs, inorder, ← Multiset.coe_add, ← Multiset.cons_coe, ← Multiset.singleton_add]
        abel
      refine ⟨⟨left, some node, _, wired.left.symm, leftLinked,
        ⟨right, some node, others, wired.right.symm, rightLinked, owned, rfl⟩, parts⟩,
        inorder left + (inorder right + others), ?_⟩
      rw [parts]
      abel

/-- What a step gains is counted in quarters of a block: a node costs four steps, two to
enter its children and two for the call itself. -/
def DisposeCall.progress : DisposeCall → Int
  | .enter _ => -1
  | .right _ => 1
  | .free _ => 3

def Activity.progress : Activity → Int
  | .idle => 0
  | .destroying _ => 0
  | .disposing _ calls => 6 + (calls.map DisposeCall.progress).sum
  | .deleting _ => 3

structure Destroyed (entry : Ptr → Entry) (live : Finset Block) (rest : Multiset Block)
    (before : Activity) (result : Finset Block × Activity) : Prop where
  owns : ∃ blocks, Owns entry result.2 blocks ∧ result.1.val = blocks + rest
  paid : 4 * (result.1.card : Int) + before.progress + 1 ≤ 4 * live.card + result.2.progress

private theorem card_eq_of_val {blocks : Multiset Block} (held : live.val = blocks) :
    live.card = blocks.card := by
  rw [← held]
  rfl

theorem disposeStep_spec {ent : Ptr} {calls : List DisposeCall} {nodes : Multiset Ptr}
    (calling : CallsOwn (entry ent).links calls nodes)
    (held : live.val = {Block.entry ent} + ({Block.zset ent} + nodes.map Block.znode) + rest) :
    Meets (fun _ => False) (Destroyed entry live rest (.disposing ent calls))
      (destroyStep entry live (.disposing ent calls)) := by
  cases calls with
  | nil =>
      have none : nodes = 0 := calling
      rw [none, Multiset.map_zero, add_zero] at held
      have heldZset : live.val = {Block.zset ent} + ({Block.entry ent} + rest) := by
        rw [held]
        abel
      have heldEntry : live.val = {Block.entry ent} + ({Block.zset ent} + rest) := by
        rw [held, add_assoc]
      obtain ⟨liveNew, released, liveNewIs⟩ := release_of_held (φ := Fault) heldZset
      rw [destroyStep, use_of_held heldZset, ok_bind, use_of_held heldEntry, ok_bind, released]
      refine ⟨⟨_, rfl, liveNewIs⟩, ?_⟩
      have cards := card_eq_of_val heldZset
      have cardsNew := card_eq_of_val liveNewIs
      rw [Multiset.card_add, Multiset.card_singleton, ← cardsNew] at cards
      change 4 * (liveNew.card : Int) + (6 + 0) + 1 ≤ 4 * live.card + 3
      omega
  | cons call calls =>
      cases call with
      | enter target =>
          cases target with
          | none =>
              obtain ⟨tree, parent, others, root, -, calling, nodesIs⟩ := calling
              have empty : tree = .nil := by
                cases tree with
                | nil => rfl
                | node value left right => cases root
              subst empty
              refine ⟨⟨_, ⟨others, calling, rfl⟩, ?_⟩, ?_⟩
              · rw [held, nodesIs, inorder, Multiset.coe_nil, zero_add]
              · simp only [Activity.progress, DisposeCall.progress, List.map_cons, List.sum_cons]
                omega
          | some node =>
              obtain ⟨parts, others, nodesIs⟩ := calling.enter_some
              have heldNode : live.val = {Block.znode node} +
                  ({Block.entry ent} + {Block.zset ent} + others.map Block.znode + rest) := by
                rw [held, nodesIs, Multiset.map_add, Multiset.map_singleton]
                abel
              rw [destroyStep, use_of_held heldNode, ok_bind]
              refine ⟨⟨_, ⟨nodes, parts, rfl⟩, held⟩, ?_⟩
              simp only [Activity.progress, DisposeCall.progress, List.map_cons, List.sum_cons]
              omega
      | right node =>
          obtain ⟨tree, parent, others, root, linked, calling, nodesIs⟩ := calling
          have heldNode : live.val = {Block.znode node} + ({Block.entry ent} + {Block.zset ent} +
              ((inorder tree : Multiset Ptr) + others).map Block.znode + rest) := by
            rw [held, nodesIs, Multiset.map_add, Multiset.map_singleton]
            abel
          rw [destroyStep, use_of_held heldNode, ok_bind]
          refine ⟨⟨_, ⟨nodes, ⟨tree, parent, {node} + others, root, linked,
            ⟨others, calling, rfl⟩, ?_⟩, rfl⟩, held⟩, ?_⟩
          · rw [nodesIs]
            abel
          · simp only [Activity.progress, DisposeCall.progress, List.map_cons, List.sum_cons]
            omega
      | free node =>
          obtain ⟨others, calling, nodesIs⟩ := calling
          have heldNode : live.val = {Block.znode node} +
              ({Block.entry ent} + ({Block.zset ent} + others.map Block.znode) + rest) := by
            rw [held, nodesIs, Multiset.map_add, Multiset.map_singleton]
            abel
          obtain ⟨liveNew, released, liveNewIs⟩ := release_of_held (φ := Fault) heldNode
          rw [destroyStep, released]
          refine ⟨⟨_, ⟨others, calling, rfl⟩, liveNewIs⟩, ?_⟩
          have cards := card_eq_of_val heldNode
          have cardsNew := card_eq_of_val liveNewIs
          rw [Multiset.card_add, Multiset.card_singleton, ← cardsNew] at cards
          simp only [Activity.progress, DisposeCall.progress, List.map_cons, List.sum_cons]
          omega

theorem destroyStep_spec {activity : Activity} {blocks : Multiset Block}
    (owns : Owns entry activity blocks) (held : live.val = blocks + rest)
    (busy : activity ≠ .idle) :
    Meets (fun _ => False) (Destroyed entry live rest activity)
      (destroyStep entry live activity) := by
  cases activity with
  | idle => exact absurd rfl busy
  | destroying ent =>
      obtain ⟨sound, rfl⟩ := owns
      have heldEntry : live.val = {Block.entry ent} + ((entry ent).held ent + rest) := by
        rw [held, Entry.blocks, add_assoc]
      rw [destroyStep, use_of_held heldEntry, ok_bind]
      cases type : (entry ent).type with
      | str =>
          refine ⟨⟨_, rfl, ?_⟩, ?_⟩
          · rw [held, Entry.blocks, Entry.held, type, add_zero]
          · change 4 * (live.card : Int) + 0 + 1 ≤ 4 * live.card + 3
            omega
      | zset =>
          obtain ⟨zset, nodes, zsetIs, holds⟩ := sound type
          have blocksIs := Entry.blocks_of_zset type zsetIs ent
          have heldZset : live.val = {Block.zset ent} +
              ({Block.entry ent} + (zset.blocks + rest)) := by
            rw [held, blocksIs]
            abel
          simp only [zsetIs, use_of_held heldZset, ok_bind, pure_eq_ok]
          obtain ⟨tree, root, linked, -, nodesIs⟩ := holds.tree
          have links : (entry ent).links = zset.avl := by
            rw [Entry.links, zsetIs]
          refine ⟨⟨_, ⟨nodes, ⟨tree, none, 0, root, ?_, rfl, ?_⟩, rfl⟩, ?_⟩, ?_⟩
          · rw [links]
            exact linked
          · rw [← nodesIs, add_zero]
          · rw [held, blocksIs, holds.blocks_eq]
          · change 4 * (live.card : Int) + 0 + 1 ≤ 4 * live.card + (6 + (-1 + 0))
            omega
  | disposing ent calls =>
      obtain ⟨nodes, calling, rfl⟩ := owns
      exact disposeStep_spec calling held
  | deleting ent =>
      have owned : blocks = {Block.entry ent} := owns
      rw [owned] at held
      obtain ⟨liveNew, released, liveNewIs⟩ := release_of_held (φ := Fault) held
      rw [destroyStep, released]
      refine ⟨⟨0, rfl, ?_⟩, ?_⟩
      · rw [liveNewIs, zero_add]
      · have cards := card_eq_of_val held
        have cardsNew := card_eq_of_val liveNewIs
        rw [Multiset.card_add, Multiset.card_singleton, ← cardsNew] at cards
        change 4 * (liveNew.card : Int) + 3 + 1 ≤ 4 * live.card + 0
        omega

theorem CallsOwn.progress_le {links : AvlMem} {calls : List DisposeCall} {nodes : Multiset Ptr}
    (owned : CallsOwn links calls nodes) :
    (calls.map DisposeCall.progress).sum ≤ 3 * (nodes.card : Int) := by
  induction calls generalizing nodes with
  | nil =>
      rw [show nodes = 0 from owned]
      exact le_refl 0
  | cons call calls ih =>
      rw [List.map_cons, List.sum_cons]
      cases call with
      | enter root =>
          obtain ⟨tree, parent, others, -, -, owned, rfl⟩ := owned
          have later := ih owned
          rw [Multiset.card_add, DisposeCall.progress]
          omega
      | right node =>
          obtain ⟨tree, parent, others, -, -, owned, rfl⟩ := owned
          have later := ih owned
          rw [Multiset.card_add, Multiset.card_add, Multiset.card_singleton, DisposeCall.progress]
          omega
      | free node =>
          obtain ⟨others, owned, rfl⟩ := owned
          have later := ih owned
          rw [Multiset.card_add, Multiset.card_singleton, DisposeCall.progress]
          omega

theorem Owns.progress_le {activity : Activity} {blocks : Multiset Block}
    (owns : Owns entry activity blocks) : activity.progress ≤ 4 * (blocks.card : Int) := by
  cases activity with
  | idle => exact Int.mul_nonneg (by decide) (Int.natCast_nonneg _)
  | destroying ent => exact Int.mul_nonneg (by decide) (Int.natCast_nonneg _)
  | disposing ent calls =>
      obtain ⟨nodes, calling, rfl⟩ := owns
      have bound := calling.progress_le
      rw [Multiset.card_add, Multiset.card_add, Multiset.card_singleton, Multiset.card_singleton,
        Multiset.card_map, Activity.progress]
      omega
  | deleting ent =>
      rw [show blocks = {Block.entry ent} from owns, Multiset.card_singleton]
      change (3 : Int) ≤ 4
      decide

theorem Owns.congr {entryNew : Ptr → Entry} {activity : Activity} {blocks : Multiset Block}
    (owns : Owns entry activity blocks)
    (same : ∀ ent, Block.entry ent ∈ blocks → entryNew ent = entry ent) :
    Owns entryNew activity blocks := by
  have first : ∀ {ent : Ptr} {others : Multiset Block},
      Block.entry ent ∈ {Block.entry ent} + others :=
    fun {_ _} => Multiset.mem_add.mpr (.inl (Multiset.mem_singleton_self _))
  cases activity with
  | idle => exact owns
  | destroying ent =>
      obtain ⟨sound, rfl⟩ := owns
      rw [Owns, same ent first]
      exact ⟨sound, rfl⟩
  | disposing ent calls =>
      obtain ⟨nodes, calling, rfl⟩ := owns
      refine ⟨nodes, ?_, rfl⟩
      rw [same ent first]
      exact calling
  | deleting ent => exact owns

theorem Entry.mem_blocks (entry : Entry) (ent : Ptr) : Block.entry ent ∈ entry.blocks ent :=
  Multiset.mem_add.mpr (.inl (Multiset.mem_singleton_self _))

theorem Entry.eq_of_entry_mem {entry : Entry} {ent other : Ptr}
    (member : Block.entry other ∈ entry.blocks ent) : other = ent := by
  rcases Multiset.mem_add.mp member with here | held
  · cases Multiset.mem_singleton.mp here
    rfl
  · unfold Entry.held at held
    split at held
    · rcases Multiset.mem_add.mp held with contrary | contrary
      · cases Multiset.mem_singleton.mp contrary
      · obtain ⟨node, -, contrary⟩ := Multiset.mem_map.mp contrary
        cases contrary
    · cases held
    · cases held

theorem Entry.eq_of_zset_mem {entry : Entry} {ent other : Ptr}
    (member : Block.zset other ∈ entry.blocks ent) : other = ent := by
  rcases Multiset.mem_add.mp member with contrary | held
  · cases Multiset.mem_singleton.mp contrary
  · unfold Entry.held at held
    split at held
    · rcases Multiset.mem_add.mp held with here | contrary
      · cases Multiset.mem_singleton.mp here
        rfl
      · obtain ⟨node, -, contrary⟩ := Multiset.mem_map.mp contrary
        cases contrary
    · cases held
    · cases held

theorem Owns.entry_mem {activity : Activity} {blocks : Multiset Block} {ent : Ptr}
    (owns : Owns entry activity blocks) (member : Block.zset ent ∈ blocks) :
    Block.entry ent ∈ blocks := by
  cases activity with
  | idle =>
      rw [show blocks = 0 from owns] at member
      cases member
  | destroying other =>
      obtain ⟨-, rfl⟩ := owns
      cases Entry.eq_of_zset_mem member
      exact Entry.mem_blocks _ _
  | disposing other calls =>
      obtain ⟨nodes, -, rfl⟩ := owns
      have same : ent = other := by
        rcases Multiset.mem_add.mp member with contrary | held
        · cases Multiset.mem_singleton.mp contrary
        · rcases Multiset.mem_add.mp held with here | contrary
          · cases Multiset.mem_singleton.mp here
            rfl
          · obtain ⟨node, -, contrary⟩ := Multiset.mem_map.mp contrary
            cases contrary
      rw [same]
      exact Multiset.mem_add.mpr (.inl (Multiset.mem_singleton_self _))
  | deleting other =>
      rw [show blocks = {Block.entry other} from owns] at member
      cases Multiset.mem_singleton.mp member

private theorem mem_blocksOf_iff {ents : Multiset Ptr} {block : Block} :
    block ∈ blocksOf entry ents ↔ ∃ ent ∈ ents, block ∈ (entry ent).blocks ent := by
  rw [blocksOf, ← Multiset.join, Multiset.mem_join]
  constructor
  · rintro ⟨blocks, member, inside⟩
    obtain ⟨ent, entMember, rfl⟩ := Multiset.mem_map.mp member
    exact ⟨ent, entMember, inside⟩
  · rintro ⟨ent, member, inside⟩
    exact ⟨_, Multiset.mem_map_of_mem _ member, inside⟩

private theorem entry_mem_blocksOf_iff {ents : Multiset Ptr} {ent : Ptr} :
    Block.entry ent ∈ blocksOf entry ents ↔ ent ∈ ents := by
  rw [mem_blocksOf_iff]
  constructor
  · rintro ⟨other, member, inside⟩
    rw [Entry.eq_of_entry_mem inside]
    exact member
  · intro member
    exact ⟨ent, member, Entry.mem_blocks _ _⟩

end

/-! ### The invariant -/

def Process.crew (p : Process) : Finset Thread :=
  insert .main ((Finset.range p.pool.threads.length).image .worker)

/-- Every live block has one owner. -/
structure Process.Owned (p : Process) (ents : List Ptr) (dict : Dict)
    (due : Bytes → Option UInt64) (share : Thread → Multiset Block) : Prop where
  represents : p.g.Represents ents dict due
  shares : ∀ thread, Owns p.g.entry (p.activity thread) (share thread)
  queued : ∀ w ∈ p.pool.queue, (p.g.entry w.arg).Sound
  live : p.live.val = blocksOf p.g.entry ents +
    (blocksOf p.g.entry (p.pool.queue.map Work.arg) + ∑ thread ∈ p.crew, share thread)
  busy : ∀ i, p.activity (.worker i) ≠ .idle → ∃ w, p.pool.threads[i]? = some (.running w)

def Process.Safe (p : Process) : Prop := ∃ ents dict due share, p.Owned ents dict due share

section

variable {p : Process} {ents : List Ptr} {dict : Dict} {due : Bytes → Option UInt64}
variable {share : Thread → Multiset Block}

theorem Process.Owned.mem_live_iff (owned : p.Owned ents dict due share) {block : Block} :
    block ∈ p.live ↔ block ∈ blocksOf p.g.entry ents ∨
      block ∈ blocksOf p.g.entry (p.pool.queue.map Work.arg) ∨
        ∃ thread ∈ p.crew, block ∈ share thread := by
  rw [← Finset.mem_val, owned.live, Multiset.mem_add, Multiset.mem_add, Multiset.mem_sum]

theorem Process.Owned.entry_live (owned : p.Owned ents dict due share) {ent : Ptr}
    (member : Block.zset ent ∈ p.live) : Block.entry ent ∈ p.live := by
  have inMap : ∀ {others : Multiset Ptr}, Block.zset ent ∈ blocksOf p.g.entry others →
      Block.entry ent ∈ blocksOf p.g.entry others := by
    intro others inside
    obtain ⟨other, otherMember, held⟩ := mem_blocksOf_iff.mp inside
    rw [entry_mem_blocksOf_iff, Entry.eq_of_zset_mem held]
    exact otherMember
  rw [owned.mem_live_iff] at member ⊢
  rcases member with inside | inside | ⟨thread, crew, inside⟩
  · exact .inl (inMap inside)
  · exact .inr (.inl (inMap inside))
  · exact .inr (.inr ⟨thread, crew, (owned.shares thread).entry_mem inside⟩)

theorem Process.Owned.fresh (owned : p.Owned ents dict due share) {call : MainCall}
    (unallocated : call.Unallocated p.live) : ∀ block ∈ call.fresh, block ∉ p.live := by
  cases call with
  | request alloc cmd =>
      obtain ⟨newEntry, newZnode⟩ := unallocated
      intro block member
      rw [MainCall.fresh, List.mem_cons, List.mem_cons, List.mem_singleton] at member
      rcases member with rfl | rfl | rfl
      · exact newEntry
      · exact fun contrary => newEntry (owned.entry_live contrary)
      · exact newZnode
  | expire now key ttlMs =>
      intro block member
      cases member
  | ttl now key =>
      intro block member
      cases member
  | round nowUs =>
      intro block member
      cases member

theorem Process.Owned.apart (owned : p.Owned ents dict due share) {call : MainCall}
    (unallocated : call.Unallocated p.live) : call.Apart p.g.entry ents := by
  cases call with
  | request alloc cmd =>
      obtain ⟨newEntry, newZnode⟩ := unallocated
      constructor
      · intro member
        apply newEntry
        rw [owned.mem_live_iff]
        exact .inl (entry_mem_blocksOf_iff.mpr (Multiset.mem_coe.mpr member))
      · intro ent member held
        apply newZnode
        rw [owned.mem_live_iff]
        exact .inl (mem_blocksOf_iff.mpr
          ⟨ent, Multiset.mem_coe.mpr member, Multiset.mem_add.mpr (.inr held)⟩)
  | expire now key ttlMs => trivial
  | ttl now key => trivial
  | round nowUs => trivial

theorem Process.Owned.frame (owned : p.Owned ents dict due share) {effect : MemEffect}
    {after : GData} {entsNew : List Ptr} (accounts : Accounts p.g ents effect after entsNew)
    (fresh : ∀ block ∈ effect.allocated, block ∉ p.live) {ent : Ptr}
    (elsewhere : Block.entry ent ∈ blocksOf p.g.entry (p.pool.queue.map Work.arg) +
      ∑ thread ∈ p.crew, share thread) : after.entry ent = p.g.entry ent := by
  apply accounts.frame
  · intro member
    have inMap : Block.entry ent ∈ blocksOf p.g.entry ents :=
      entry_mem_blocksOf_iff.mpr (Multiset.mem_coe.mpr member)
    exact notMem_of_held owned.live inMap elsewhere
  · intro contrary
    apply fresh _ contrary
    rw [← Finset.mem_val, owned.live]
    exact Multiset.mem_add.mpr (.inr elsewhere)

theorem Process.Owned.mem_crew (owned : p.Owned ents dict due share) {thread : Thread}
    (busy : p.activity thread ≠ .idle) : thread ∈ p.crew := by
  cases thread with
  | main => exact Finset.mem_insert_self _ _
  | worker i =>
      obtain ⟨w, found⟩ := owned.busy i busy
      have inside := (List.getElem?_eq_some_iff.mp found).1
      exact Finset.mem_insert_of_mem
        (Finset.mem_image_of_mem _ (Finset.mem_range.mpr inside))

theorem Process.Owned.share_of_idle (owned : p.Owned ents dict due share) {thread : Thread}
    (idle : p.activity thread = .idle) : share thread = 0 := by
  have owns := owned.shares thread
  rw [idle] at owns
  exact owns

theorem Process.Owned.mem_sum (owned : p.Owned ents dict due share) {thread : Thread}
    {block : Block} (member : block ∈ share thread) :
    block ∈ ∑ thread ∈ p.crew, share thread := by
  rw [Multiset.mem_sum]
  refine ⟨thread, owned.mem_crew fun idle => ?_, member⟩
  rw [owned.share_of_idle idle] at member
  cases member

structure Process.Kept (p : Process) (share : Thread → Multiset Block) (g : GData) : Prop where
  shares : ∀ thread, Owns g.entry (p.activity thread) (share thread)
  queued : ∀ w ∈ p.pool.queue, (g.entry w.arg).Sound
  blocks : blocksOf g.entry (p.pool.queue.map Work.arg : List Ptr) =
    blocksOf p.g.entry (p.pool.queue.map Work.arg : List Ptr)

theorem Process.Owned.kept (owned : p.Owned ents dict due share) {effect : MemEffect}
    {after : GData} {entsNew : List Ptr} (accounts : Accounts p.g ents effect after entsNew)
    (fresh : ∀ block ∈ effect.allocated, block ∉ p.live) : p.Kept share after := by
  have same : ∀ ent ∈ (p.pool.queue.map Work.arg : List Ptr),
      after.entry ent = p.g.entry ent := by
    intro ent member
    apply owned.frame accounts fresh
    exact Multiset.mem_add.mpr (.inl (entry_mem_blocksOf_iff.mpr (Multiset.mem_coe.mpr member)))
  constructor
  · intro thread
    apply (owned.shares thread).congr
    intro ent member
    apply owned.frame accounts fresh
    exact Multiset.mem_add.mpr (.inr (owned.mem_sum member))
  · intro w member
    rw [same w.arg (List.mem_map_of_mem member)]
    exact owned.queued w member
  · apply blocksOf_congr
    intro ent member
    rw [same ent (Multiset.mem_coe.mp member)]

private theorem shares_update {entry : Ptr → Entry} {activity : Thread → Activity}
    (shares : ∀ thread, Owns entry (activity thread) (share thread)) {thread : Thread}
    {new : Activity} {blocks : Multiset Block} (owns : Owns entry new blocks) (other : Thread) :
    Owns entry (Function.update activity thread new other)
      (Function.update share thread blocks other) := by
  by_cases same : other = thread
  · rw [same, Function.update_self, Function.update_self]
    exact owns
  · rw [Function.update_of_ne same, Function.update_of_ne same]
    exact shares other

private theorem condSignal_length (threads : List Worker) (woken : Option Nat) :
    (condSignal threads woken).length = threads.length := by
  cases woken with
  | none => rfl
  | some i => exact List.length_set

private theorem condSignal_running {threads : List Worker} {woken : Option Nat}
    (signals : Signals threads woken) {i : Nat} {w : Work}
    (running : threads[i]? = some (.running w)) :
    (condSignal threads woken)[i]? = some (.running w) := by
  cases woken with
  | none => exact running
  | some j =>
      have apart : j ≠ i := by
        intro same
        subst same
        rw [show threads[j]? = some .waiting from signals] at running
        cases running
      rw [condSignal, List.getElem?_set_ne apart]
      exact running

theorem Process.crew_eq {q : Process}
    (same : q.pool.threads.length = p.pool.threads.length) : q.crew = p.crew := by
  rw [Process.crew, Process.crew, same]

/-- What a call does to the memory never fails, and every block keeps one owner. -/
theorem Process.Owned.apply_spec (owned : p.Owned ents dict due share)
    (idle : p.activity .main = .idle) {effect : MemEffect} {after : GData}
    (accounted : Accounted p.g ents effect after) (nodup : effect.allocated.Nodup)
    (fresh : ∀ block ∈ effect.allocated, block ∉ p.live) {woken : Option Nat}
    (signals : Signals p.pool.threads woken) :
    Meets (fun _ => False) Process.Safe (p.apply after woken effect) := by
  obtain ⟨entsNew, dictNew, dueNew, represents, accounts⟩ := accounted
  have kept := owned.kept accounts fresh
  have balance := accounts.balance
  have live := owned.live
  cases effect with
  | none =>
      refine ⟨entsNew, dictNew, dueNew, share, represents, kept.shares, kept.queued, ?_,
        owned.busy⟩
      change blocksOf after.entry entsNew + 0 = blocksOf p.g.entry ents + 0 at balance
      rw [add_zero, add_zero] at balance
      change p.live.val = blocksOf after.entry entsNew + (blocksOf after.entry _ + _)
      rw [balance, kept.blocks]
      exact live
  | allocates blocks =>
      refine ⟨entsNew, dictNew, dueNew, share, represents, kept.shares, kept.queued, ?_,
        owned.busy⟩
      change blocksOf after.entry entsNew + 0 = blocksOf p.g.entry ents + blocks at balance
      change (allocate p.live blocks).val =
        blocksOf after.entry entsNew + (blocksOf after.entry _ + _)
      rw [add_zero] at balance
      rw [allocate_val (Multiset.coe_nodup.mp nodup)
        (fun block member => fresh block (Multiset.mem_coe.mpr member)), live, balance,
        kept.blocks]
      change _ = _ + (_ + ∑ thread ∈ p.crew, share thread)
      abel
  | frees block =>
      change blocksOf after.entry entsNew + {block} = blocksOf p.g.entry ents + 0 at balance
      have held : p.live.val = {block} + (blocksOf after.entry entsNew +
          (blocksOf after.entry (p.pool.queue.map Work.arg : List Ptr) +
            ∑ thread ∈ p.crew, share thread)) := by
        rw [live, kept.blocks, ← add_zero (blocksOf p.g.entry ents), ← balance]
        abel
      obtain ⟨liveNew, released, liveNewIs⟩ := release_of_held held
      rw [Process.apply, released]
      exact ⟨entsNew, dictNew, dueNew, share, represents, kept.shares, kept.queued, liveNewIs,
        owned.busy⟩
  | destroys ent =>
      change blocksOf after.entry entsNew + (after.entry ent).blocks ent =
        blocksOf p.g.entry ents + 0 at balance
      have inCrew : Thread.main ∈ p.crew := Finset.mem_insert_self _ _
      obtain ⟨others, before, later⟩ := sum_exchange inCrew share ((after.entry ent).blocks ent)
      rw [owned.share_of_idle idle, zero_add] at before
      refine ⟨entsNew, dictNew, dueNew, Function.update share .main ((after.entry ent).blocks ent),
        represents, ?_, kept.queued, ?_, ?_⟩
      · exact shares_update kept.shares ⟨accounts.sound ent rfl, rfl⟩
      · change p.live.val = blocksOf after.entry entsNew + (blocksOf after.entry _ +
          ∑ thread ∈ p.crew, Function.update share .main ((after.entry ent).blocks ent) thread)
        rw [live, kept.blocks, later, before, ← add_zero (blocksOf p.g.entry ents), ← balance]
        abel
      · intro i busy
        apply owned.busy i
        change Function.update p.activity .main (.destroying ent) (.worker i) ≠ .idle at busy
        rw [Function.update_of_ne (fun contrary => by cases contrary)] at busy
        exact busy
  | queues ent =>
      change blocksOf after.entry entsNew + (after.entry ent).blocks ent =
        blocksOf p.g.entry ents + 0 at balance
      refine ⟨entsNew, dictNew, dueNew, share, represents, kept.shares, ?_, ?_, ?_⟩
      · intro w member
        rcases List.mem_append.mp member with old | new
        · exact kept.queued w old
        · rw [List.mem_singleton.mp new]
          exact accounts.sound ent rfl
      · rw [Process.crew_eq (q := { p with
          g := after, pool := threadPoolQueue p.pool ⟨entryDelAsync, ent⟩ woken })
          (condSignal_length p.pool.threads woken)]
        change p.live.val = blocksOf after.entry entsNew +
          (blocksOf after.entry
            ((p.pool.queue ++ [(⟨entryDelAsync, ent⟩ : Work)]).map Work.arg : List Ptr) +
            ∑ thread ∈ p.crew, share thread)
        have longer : blocksOf after.entry
            ((p.pool.queue ++ [(⟨entryDelAsync, ent⟩ : Work)]).map Work.arg : List Ptr) =
            (after.entry ent).blocks ent +
              blocksOf after.entry (p.pool.queue.map Work.arg : List Ptr) := by
          rw [← blocksOf_cons, Multiset.cons_coe, List.map_append, List.map_singleton,
            Multiset.coe_eq_coe.mpr (List.perm_append_singleton ent _)]
        rw [longer, live, kept.blocks, ← add_zero (blocksOf p.g.entry ents), ← balance]
        abel
      · intro i busy
        obtain ⟨w, running⟩ := owned.busy i busy
        exact ⟨w, condSignal_running signals running⟩

/-- A worker that is not inside `entry_destroy` changes its place in the pool. -/
theorem Process.Owned.withThread (owned : p.Owned ents dict due share) {i : Nat}
    (idle : p.activity (.worker i) = .idle) (worker : Worker) :
    Process.Owned { p with pool := ⟨p.pool.threads.set i worker, p.pool.queue⟩ }
      ents dict due share := by
  refine ⟨owned.represents, owned.shares, owned.queued, ?_, ?_⟩
  · rw [Process.crew_eq (q := { p with
      pool := ⟨p.pool.threads.set i worker, p.pool.queue⟩ }) List.length_set]
    exact owned.live
  · intro j busy
    have apart : i ≠ j := by
      intro same
      subst same
      exact busy idle
    obtain ⟨w, running⟩ := owned.busy j busy
    refine ⟨w, ?_⟩
    change (p.pool.threads.set i worker)[j]? = _
    rw [List.getElem?_set_ne apart]
    exact running

theorem Process.Owned.idle_of_found (owned : p.Owned ents dict due share) {i : Nat}
    {worker : Worker} (found : p.pool.threads[i]? = some worker)
    (other : ∀ w, worker ≠ .running w) : p.activity (.worker i) = .idle := by
  by_contra busy
  obtain ⟨w, running⟩ := owned.busy i busy
  rw [found] at running
  exact other w (Option.some.inj running)

theorem Process.Owned.take (owned : p.Owned ents dict due share) {i : Nat} {worker : Worker}
    (found : p.pool.threads[i]? = some worker) (idle : p.activity (.worker i) = .idle) {w : Work}
    {others : List Work} (front : p.pool.queue = w :: others) :
    Process.Owned { p with
        pool := { threads := p.pool.threads.set i (.running w), queue := others }
        activity := Function.update p.activity (.worker i) (.destroying w.arg) }
      ents dict due
      (Function.update share (.worker i) ((p.g.entry w.arg).blocks w.arg)) := by
  have inside := (List.getElem?_eq_some_iff.mp found).1
  have inCrew : Thread.worker i ∈ p.crew := Finset.mem_insert_of_mem
    (Finset.mem_image_of_mem _ (Finset.mem_range.mpr inside))
  have sound := owned.queued w (front ▸ List.mem_cons_self)
  obtain ⟨rest, before, later⟩ := sum_exchange inCrew share ((p.g.entry w.arg).blocks w.arg)
  rw [owned.share_of_idle idle, zero_add] at before
  refine ⟨owned.represents, shares_update owned.shares ⟨sound, rfl⟩, ?_, ?_, ?_⟩
  · intro other member
    exact owned.queued other (front ▸ List.mem_cons_of_mem _ member)
  · rw [Process.crew_eq (q := { p with
      pool := { threads := p.pool.threads.set i (.running w), queue := others }
      activity := Function.update p.activity (.worker i) (.destroying w.arg) }) List.length_set,
      later]
    change p.live.val = blocksOf p.g.entry ents +
      (blocksOf p.g.entry (others.map Work.arg : List Ptr) + _)
    rw [owned.live, front, List.map_cons, ← Multiset.cons_coe, blocksOf_cons, before]
    abel
  · intro j busy
    change ∃ w', (p.pool.threads.set i (.running w))[j]? = some (.running w')
    by_cases same : j = i
    · rw [same]
      exact ⟨w, List.getElem?_set_self inside⟩
    · change Function.update p.activity (.worker i) (.destroying w.arg) (.worker j) ≠ .idle at busy
      rw [Function.update_of_ne (fun contrary => same (Thread.worker.inj contrary))] at busy
      rw [List.getElem?_set_ne (Ne.symm same)]
      exact owned.busy j busy

theorem Process.Owned.destroy (owned : p.Owned ents dict due share) {thread : Thread}
    (busy : p.activity thread ≠ .idle) :
    Meets (fun _ => False)
      (fun result : Finset Block × Activity =>
        (∃ blocks, Process.Owned { p with
            live := result.1
            activity := Function.update p.activity thread result.2 }
          ents dict due (Function.update share thread blocks)) ∧
        4 * (result.1.card : Int) + (p.activity thread).progress + 1 ≤
          4 * p.live.card + result.2.progress)
      (destroyStep p.g.entry p.live (p.activity thread)) := by
  have inCrew := owned.mem_crew busy
  obtain ⟨others, before, -⟩ := sum_exchange inCrew share 0
  have held : p.live.val = share thread + (blocksOf p.g.entry ents +
      (blocksOf p.g.entry (p.pool.queue.map Work.arg : List Ptr) + others)) := by
    rw [owned.live, before]
    abel
  apply (destroyStep_spec (owned.shares thread) held busy).mono
  intro result destroyed
  obtain ⟨⟨blocks, owns, liveNew⟩, paid⟩ := destroyed
  refine ⟨⟨blocks, owned.represents, shares_update owned.shares owns, owned.queued, ?_, ?_⟩, paid⟩
  · obtain ⟨sameOthers, beforeToo, later⟩ := sum_exchange inCrew share blocks
    rw [before] at beforeToo
    have same := add_left_cancel beforeToo
    change result.1.val = blocksOf p.g.entry ents + (blocksOf p.g.entry _ +
      ∑ thread' ∈ p.crew, Function.update share thread blocks thread')
    rw [liveNew, later, same]
    abel
  · intro i stillBusy
    change Function.update p.activity thread result.2 (.worker i) ≠ .idle at stillBusy
    by_cases same : Thread.worker i = thread
    · exact owned.busy i (same ▸ busy)
    · rw [Function.update_of_ne same] at stillBusy
      exact owned.busy i stillBusy

end

/-! ### One event -/

/-- An event may only stop the process where a handler does, for a reason of its own. -/
def ProcEvent.Excused (strtod : Strtod) (p : Process) : ProcEvent → ProcFault → Prop
  | .main call _, fault =>
      ∃ stopped, call.exec strtod p.g = .error stopped ∧ fault = .program stopped
  | _, _ => False

private theorem nodup_fresh (call : MainCall) : (call.fresh : Multiset Block).Nodup := by
  cases call with
  | request alloc cmd => simp [MainCall.fresh]
  | expire now key ttlMs => exact Multiset.nodup_zero
  | ttl now key => exact Multiset.nodup_zero
  | round nowUs => exact Multiset.nodup_zero

theorem Process.Safe.exec_spec (strtod : Strtod) {p : Process} (safe : p.Safe)
    (event : ProcEvent) (allowed : event.Allowed p) :
    Meets (event.Excused strtod p) Process.Safe (event.exec strtod p) := by
  obtain ⟨ents, dict, due, share, owned⟩ := safe
  cases event with
  | main call woken =>
      obtain ⟨idle, unallocated, signals⟩ := allowed
      have accounted := call.accounts strtod owned.represents (owned.apart unallocated)
      have allocates := call.allocates strtod p.g
      have fresh := owned.fresh unallocated
      rw [ProcEvent.exec]
      cases called : call.exec strtod p.g with
      | error stopped => exact ⟨stopped, called, rfl⟩
      | ok result =>
          have within := allocates.of_ok called
          have applied := owned.apply_spec idle (accounted.of_ok called)
            (Multiset.nodup_of_le within (nodup_fresh call))
            (fun block member => fresh block
              (Multiset.mem_coe.mp (Multiset.mem_of_le within member))) signals
          exact applied.widen fun _ => False.elim
  | destroy thread =>
      rw [ProcEvent.exec]
      apply (owned.destroy allowed).bind
      intro result destroyed
      obtain ⟨⟨blocks, ownedNew⟩, -⟩ := destroyed
      exact ⟨ents, dict, due, _, ownedNew⟩
  | checked i =>
      obtain ⟨worker, found, awake⟩ := allowed
      have idle : p.activity (.worker i) = .idle := by
        apply owned.idle_of_found found
        intro w contrary
        rw [contrary] at awake
        cases awake
      rw [ProcEvent.exec]
      obtain ⟨⟨pool, taken⟩, returned, cases⟩ := (workerSection_spec p.pool i).returns
      rw [returned]
      rcases cases with slept | took
      · obtain ⟨drained, rfl, rfl⟩ := slept
        have slept := owned.withThread idle .waiting
        rw [drained] at slept
        exact ⟨ents, dict, due, share, slept⟩
      · obtain ⟨w, others, front, rfl, rfl⟩ := took
        exact ⟨ents, dict, due, _, owned.take found idle front⟩
  | finished i =>
      obtain ⟨-, idle⟩ := allowed
      exact ⟨ents, dict, due, share, owned.withThread idle .ready⟩
  | spurious i =>
      have idle := owned.idle_of_found allowed fun w contrary => by cases contrary
      exact ⟨ents, dict, due, share, owned.withThread idle .woken⟩

/-! ### Runs -/

private theorem processInit_safe {numOfThreads : Nat} {start : Process}
    (started : processInit numOfThreads = .ok start) : start.Safe := by
  obtain ⟨pool, poolIs, startIs⟩ := bind_eq_ok started
  cases startIs
  have drained : pool.queue = [] := by
    unfold threadPoolInit at poolIs
    split at poolIs
    · cases poolIs
      rfl
    · cases poolIs
  refine ⟨[], _, _, fun _ => 0, GData.Represents.empty, fun _ => rfl, ?_, ?_, ?_⟩
  · intro w member
    rw [show pool.queue = [] from drained] at member
    cases member
  · change 0 = blocksOf _ 0 + (blocksOf _ (pool.queue.map Work.arg : List Ptr) + _)
    rw [drained, Finset.sum_const_zero]
    rfl
  · intro i busy
    exact absurd rfl busy

/-- The pool inside the process makes the moves of a pool. -/
theorem ProcStep.pool {strtod : Strtod} {p after : Process} {event : ProcEvent}
    (step : ProcStep strtod p event after) :
    after.pool = p.pool ∨ ∃ move, PoolStep p.pool move after.pool := by
  obtain ⟨allowed, executed⟩ := step
  cases event with
  | main call woken =>
      obtain ⟨result, -, applied⟩ := bind_eq_ok executed
      obtain ⟨g, effect⟩ := result
      cases effect with
      | none =>
          cases applied
          exact .inl rfl
      | allocates blocks =>
          cases applied
          exact .inl rfl
      | frees block =>
          obtain ⟨live, -, same⟩ := bind_eq_ok applied
          cases same
          exact .inl rfl
      | destroys ent =>
          cases applied
          exact .inl rfl
      | queues ent =>
          cases applied
          exact .inr ⟨.queued ⟨entryDelAsync, ent⟩ woken, allowed.2.2, rfl⟩
  | destroy thread =>
      obtain ⟨result, -, same⟩ := bind_eq_ok executed
      cases same
      exact .inl rfl
  | checked i =>
      obtain ⟨⟨pool, taken⟩, returned, same⟩ := bind_eq_ok executed
      refine .inr ⟨.checked i taken, allowed, ?_⟩
      rw [program_eq_ok returned]
      cases taken with
      | none =>
          cases same
          rfl
      | some w =>
          cases same
          rfl
  | finished i =>
      cases executed
      obtain ⟨⟨w, running⟩, -⟩ := allowed
      exact .inr ⟨.finished i w, running, rfl⟩
  | spurious i =>
      cases executed
      exact .inr ⟨.spurious i, allowed, rfl⟩

private theorem process_run_pool {strtod : Strtod} {start p : Process} {trace : List ProcEvent}
    (run : Runs (ProcStep strtod) start trace p) :
    ∃ moves, Runs PoolStep start.pool moves p.pool := by
  induction run with
  | nil state => exact ⟨[], .nil _⟩
  | cons head tail ih =>
      obtain ⟨moves, later⟩ := ih
      rcases head.pool with same | ⟨move, first⟩
      · rw [same] at later
        exact ⟨moves, later⟩
      · exact ⟨move :: moves, .cons first later⟩

def Process.progress (p : Process) : Int := ∑ thread ∈ p.crew, (p.activity thread).progress

def ProcEvent.isRequest : ProcEvent → Bool
  | .main (.request _ _) _ => true
  | _ => false

def ProcEvent.isDestroy : ProcEvent → Bool
  | .destroy _ => true
  | _ => false

private theorem progress_update {p : Process} {thread : Thread} (member : thread ∈ p.crew)
    (activity : Activity) :
    ∑ other ∈ p.crew, (Function.update p.activity thread activity other).progress +
      (p.activity thread).progress = p.progress + activity.progress := by
  obtain ⟨others, before, later⟩ := sum_exchange member
    (fun other => (p.activity other).progress) activity.progress
  have same : (fun other => (Function.update p.activity thread activity other).progress) =
      Function.update (fun other => (p.activity other).progress) thread activity.progress := by
    funext other
    exact Function.apply_update (fun _ => Activity.progress) p.activity thread activity other
  rw [same, later, Process.progress, before]
  ring

private theorem card_allocate_le (live : Finset Block) (blocks : List Block) :
    (allocate live blocks).card ≤ live.card + blocks.length := by
  induction blocks with
  | nil => exact le_refl _
  | cons block blocks ih =>
      have one := Finset.card_insert_le block (allocate live blocks)
      change (insert block (allocate live blocks)).card ≤ live.card + (blocks.length + 1)
      omega

private theorem cost_fresh_le (call : MainCall) (woken : Option Nat) :
    4 * (call.fresh.length : Int) ≤ if (ProcEvent.main call woken).isRequest then 12 else 0 := by
  cases call with
  | request alloc cmd => exact le_refl _
  | expire now key ttlMs => exact le_refl _
  | ttl now key => exact le_refl _
  | round nowUs => exact le_refl _

/-- A request brings at most three blocks, for four steps each, and a step inside
`entry_destroy` uses one of them up. -/
theorem ProcStep.paid {strtod : Strtod} {p after : Process} {event : ProcEvent} (safe : p.Safe)
    (step : ProcStep strtod p event after) :
    4 * (after.live.card : Int) + p.progress + (if event.isDestroy then 1 else 0) ≤
      4 * p.live.card + after.progress + (if event.isRequest then 12 else 0) := by
  obtain ⟨ents, dict, due, share, owned⟩ := safe
  obtain ⟨allowed, executed⟩ := step
  have inCrew : Thread.main ∈ p.crew := Finset.mem_insert_self _ _
  have still : ∀ {q : Process}, q.pool.threads.length = p.pool.threads.length →
      q.activity = p.activity → q.progress = p.progress := by
    intro q lengths same
    rw [Process.progress, Process.progress, Process.crew_eq lengths, same]
  cases event with
  | main call woken =>
      obtain ⟨⟨g, effect⟩, called, applied⟩ := bind_eq_ok executed
      have cost := cost_fresh_le call woken
      refine le_trans ?_ (add_le_add_right cost _)
      change 4 * (after.live.card : Int) + p.progress + 0 ≤
        4 * p.live.card + after.progress + 4 * call.fresh.length
      cases effect with
      | none =>
          cases applied
          change 4 * (p.live.card : Int) + p.progress + 0 ≤
            4 * (p.live.card : Int) + p.progress + 4 * call.fresh.length
          omega
      | allocates blocks =>
          cases applied
          have within := (call.allocates strtod p.g).of_ok (program_eq_ok called)
          have few : blocks.length ≤ call.fresh.length := Multiset.card_le_card within
          have cards := card_allocate_le p.live blocks
          change 4 * ((allocate p.live blocks).card : Int) + p.progress + 0 ≤
            4 * (p.live.card : Int) + p.progress + 4 * call.fresh.length
          omega
      | frees block =>
          obtain ⟨live, released, same⟩ := bind_eq_ok applied
          cases same
          unfold release at released
          split at released
          · cases released
            have cards := Finset.card_erase_le (a := block) (s := p.live)
            change 4 * ((p.live.erase block).card : Int) + p.progress + 0 ≤
              4 * (p.live.card : Int) + p.progress + 4 * call.fresh.length
            omega
          · cases released
      | destroys ent =>
          cases applied
          have moved := progress_update inCrew (.destroying ent)
          rw [allowed.1] at moved
          change _ + (0 : Int) = p.progress + 0 at moved
          change 4 * (p.live.card : Int) + p.progress + 0 ≤ 4 * (p.live.card : Int) +
            ∑ thread ∈ p.crew, (Function.update p.activity .main (.destroying ent) thread).progress
              + 4 * call.fresh.length
          omega
      | queues ent =>
          cases applied
          rw [still (q := { p with
            g := g, pool := threadPoolQueue p.pool ⟨entryDelAsync, ent⟩ woken })
            (condSignal_length p.pool.threads woken) rfl]
          change 4 * (p.live.card : Int) + p.progress + 0 ≤ _
          omega
  | destroy thread =>
      obtain ⟨⟨live, activity⟩, stepped, same⟩ := bind_eq_ok executed
      cases same
      have paid := ((owned.destroy allowed).of_ok stepped).2
      have moved := progress_update (owned.mem_crew allowed) activity
      change 4 * (live.card : Int) + p.progress + 1 ≤ 4 * (p.live.card : Int) +
        ∑ other ∈ p.crew, (Function.update p.activity thread activity other).progress + 0
      dsimp only at paid
      omega
  | checked i =>
      obtain ⟨worker, found, awake⟩ := allowed
      have idle : p.activity (.worker i) = .idle := by
        apply owned.idle_of_found found
        intro w contrary
        rw [contrary] at awake
        cases awake
      obtain ⟨⟨pool, taken⟩, returned, same⟩ := bind_eq_ok executed
      have lengths := PoolStep.threads_length
        (show PoolStep p.pool (.checked i taken) pool from
          ⟨⟨worker, found, awake⟩, program_eq_ok returned⟩)
      cases taken with
      | none =>
          cases same
          rw [still (q := { p with pool := pool }) lengths rfl]
          exact le_refl _
      | some w =>
          cases same
          have inside := (List.getElem?_eq_some_iff.mp found).1
          have moved := progress_update (Finset.mem_insert_of_mem
            (Finset.mem_image_of_mem _ (Finset.mem_range.mpr inside))) (.destroying w.arg)
          rw [idle] at moved
          change _ + (0 : Int) = p.progress + 0 at moved
          have later : Process.progress { p with
              pool := pool
              activity := Function.update p.activity (.worker i) (.destroying w.arg) } =
              ∑ thread ∈ p.crew,
                (Function.update p.activity (.worker i) (.destroying w.arg) thread).progress := by
            rw [Process.progress, Process.crew_eq (q := { p with
              pool := pool
              activity := Function.update p.activity (.worker i) (.destroying w.arg) }) lengths]
          rw [later]
          change 4 * (p.live.card : Int) + p.progress + 0 ≤ _ + 0
          omega
  | finished i =>
      cases executed
      rw [still (q := { p with pool := { p.pool with threads := p.pool.threads.set i .ready } })
        List.length_set rfl]
      exact le_refl _
  | spurious i =>
      cases executed
      rw [still (q := { p with pool := { p.pool with threads := p.pool.threads.set i .woken } })
        List.length_set rfl]
      exact le_refl _

/-- The blocks that the main thread reaches from the map. -/
def GData.blocks (g : GData) : Multiset Block := blocksOf g.entry g.owners

/-- The blocks that the jobs in the queue reach. -/
def Process.pending (p : Process) : Multiset Block :=
  blocksOf p.g.entry (p.pool.queue.map Work.arg)

theorem Process.Owned.blocks_eq {p : Process} {ents : List Ptr} {dict : Dict}
    {due : Bytes → Option UInt64} {share : Thread → Multiset Block}
    (owned : p.Owned ents dict due share) : p.g.blocks = blocksOf p.g.entry ents := by
  have perm : (p.g.owners : Multiset Ptr) = ents :=
    Multiset.coe_eq_coe.mpr owned.represents.keyed.nodes_perm
  rw [GData.blocks, perm]

theorem ProcStep.safe (strtod : Strtod) (p : Process) (event : ProcEvent) (after : Process)
    (safe : p.Safe) (step : ProcStep strtod p event after) : after.Safe :=
  (safe.exec_spec strtod event step.1).of_ok step.2

private theorem process_runs_safe {strtod : Strtod} {numOfThreads : Nat} {start p : Process}
    {trace : List ProcEvent} (started : processInit numOfThreads = .ok start)
    (run : Runs (ProcStep strtod) start trace p) : p.Safe :=
  run.invariant (ProcStep.safe strtod) (processInit_safe started)

/-- Whatever the interleaving of the handlers with the threads that destroy entries, and
whatever addresses the allocator gives out again: a thread inside `entry_destroy` uses
and releases live blocks only, and a call of the main thread releases none that is not
live.  Every live block is reached from the map, reached from a job in the queue, or
still to be released by one thread inside `entry_destroy`, and by only one of these. -/
theorem process_memory_safe (strtod : Strtod) {numOfThreads : Nat} {start p : Process}
    {trace : List ProcEvent} (started : processInit numOfThreads = .ok start)
    (run : Runs (ProcStep strtod) start trace p) :
    (∀ event : ProcEvent, event.Allowed p →
      Meets (event.Excused strtod p) (fun _ => True) (event.exec strtod p)) ∧
    ∃ share : Thread → Multiset Block,
      (∀ thread, Owns p.g.entry (p.activity thread) (share thread)) ∧
      p.live.val = p.g.blocks + (p.pending + ∑ thread ∈ p.crew, share thread) := by
  have safe := process_runs_safe started run
  constructor
  · intro event allowed
    exact (safe.exec_spec strtod event allowed).mono fun _ _ => trivial
  · obtain ⟨ents, dict, due, share, owned⟩ := safe
    refine ⟨share, owned.shares, ?_⟩
    rw [owned.live, owned.blocks_eq]
    rfl

/-- A step of a thread that destroys entries, as opposed to a call of the main thread or a
whim of the scheduler. -/
def ProcEvent.byThread : ProcEvent → Bool
  | .main _ _ => false
  | .destroy _ => true
  | .checked _ => true
  | .finished _ => true
  | .spurious _ => false

theorem Process.Owned.progress_le {p : Process} {ents : List Ptr} {dict : Dict}
    {due : Bytes → Option UInt64} {share : Thread → Multiset Block}
    (owned : p.Owned ents dict due share) : p.progress ≤ 4 * p.live.card := by
  have each : p.progress ≤ ∑ thread ∈ p.crew, 4 * ((share thread).card : Int) :=
    Finset.sum_le_sum fun thread _ => (owned.shares thread).progress_le
  have total : (∑ thread ∈ p.crew, (share thread).card) ≤ p.live.card := by
    rw [← Multiset.card_sum, card_eq_of_val owned.live, Multiset.card_add, Multiset.card_add]
    omega
  rw [← Finset.mul_sum, ← Nat.cast_sum] at each
  omega

private theorem process_budget {strtod : Strtod} {start p : Process} {trace : List ProcEvent}
    (run : Runs (ProcStep strtod) start trace p) (safe : start.Safe) :
    4 * (p.live.card : Int) + start.progress + trace.countP ProcEvent.isDestroy ≤
      4 * start.live.card + p.progress + 12 * trace.countP ProcEvent.isRequest := by
  induction run with
  | nil state => exact le_refl _
  | cons head tail ih =>
      have later := ih (ProcStep.safe strtod _ _ _ safe head)
      have first := head.paid safe
      rw [List.countP_cons, List.countP_cons]
      split_ifs at first ⊢ <;> push_cast <;> omega

/-- When no thread has anything to do, the jobs and the shares are empty. -/
private theorem process_quiet (strtod : Strtod) {numOfThreads : Nat} {start p : Process}
    {trace : List ProcEvent} (started : processInit numOfThreads = .ok start)
    (run : Runs (ProcStep strtod) start trace p)
    (quiet : ∀ event after, ProcStep strtod p event after → event.byThread = false) :
    p.pool.queue = [] ∧ ∀ thread, p.activity thread = .idle := by
  have safe := process_runs_safe started run
  obtain ⟨pool, poolStarted, startIs⟩ := bind_eq_ok started
  cases startIs
  obtain ⟨moves, poolRun⟩ := process_run_pool run
  have stuck : ∀ event : ProcEvent, event.byThread = true → ¬event.Allowed p := by
    intro event byThread allowed
    have met := safe.exec_spec strtod event allowed
    cases executed : event.exec strtod p with
    | error fault =>
        have excused := met.of_error executed
        cases event with
        | main call woken => cases byThread
        | destroy thread => exact excused
        | checked i => exact excused
        | finished i => exact excused
        | spurious i => cases byThread
    | ok after =>
        rw [quiet event after ⟨allowed, executed⟩] at byThread
        cases byThread
  have idle : ∀ thread, p.activity thread = .idle := by
    intro thread
    by_contra busy
    exact stuck (.destroy thread) rfl busy
  refine ⟨?_, idle⟩
  by_contra pending
  obtain ⟨worker, member, awake⟩ := threadPool_queue_served poolStarted poolRun pending
  obtain ⟨i, found⟩ := List.mem_iff_getElem?.mp member
  cases worker with
  | ready => exact stuck (.checked i) rfl ⟨.ready, found, rfl⟩
  | waiting => exact awake rfl
  | woken => exact stuck (.checked i) rfl ⟨.woken, found, rfl⟩
  | running w => exact stuck (.finished i) rfl ⟨⟨w, found⟩, idle (.worker i)⟩

/-- Nothing leaks: the threads spend at most twelve steps inside `entry_destroy` for each
request, and when no thread has anything to do, the live blocks are exactly those that
the map reaches. -/
theorem process_leaks_nothing (strtod : Strtod) {numOfThreads : Nat} {start p : Process}
    {trace : List ProcEvent} (started : processInit numOfThreads = .ok start)
    (run : Runs (ProcStep strtod) start trace p) :
    trace.countP ProcEvent.isDestroy ≤ 12 * trace.countP ProcEvent.isRequest ∧
    ((∀ event after, ProcStep strtod p event after → event.byThread = false) →
      p.live.val = p.g.blocks) := by
  obtain ⟨ents, dict, due, share, owned⟩ := process_runs_safe started run
  constructor
  · have budget := process_budget run (processInit_safe started)
    have enough := owned.progress_le
    obtain ⟨pool, poolStarted, startIs⟩ := bind_eq_ok started
    cases startIs
    have atStart : Process.progress { pool := pool } = 0 := Finset.sum_eq_zero fun _ _ => rfl
    rw [atStart] at budget
    change _ ≤ 4 * ((0 : Nat) : Int) + _ + _ at budget
    omega
  · intro quiet
    obtain ⟨drained, idle⟩ := process_quiet strtod started run quiet
    have nothing : ∑ thread ∈ p.crew, share thread = 0 :=
      Finset.sum_eq_zero fun thread _ => owned.share_of_idle (idle thread)
    rw [owned.live, drained, nothing, owned.blocks_eq]
    exact add_zero _

/-! ### A run -/

instance MainCall.decidableUnallocated (live : Finset Block) :
    (call : MainCall) → Decidable (call.Unallocated live)
  | .request alloc _ =>
      inferInstanceAs (Decidable (Block.entry alloc.entry ∉ live ∧ Block.znode alloc.znode ∉ live))
  | .expire _ _ _ => .isTrue trivial
  | .ttl _ _ => .isTrue trivial
  | .round _ => .isTrue trivial

instance decidableSignals (threads : List Worker) :
    (woken : Option Nat) → Decidable (Signals threads woken)
  | none => inferInstanceAs (Decidable (.waiting ∉ threads))
  | some i => inferInstanceAs (Decidable (threads[i]? = some .waiting))

instance ProcEvent.decidableAllowed (p : Process) :
    (event : ProcEvent) → Decidable (event.Allowed p)
  | .main call woken => inferInstanceAs (Decidable (p.activity .main = .idle ∧
      call.Unallocated p.live ∧ Signals p.pool.threads woken))
  | .destroy thread => inferInstanceAs (Decidable (p.activity thread ≠ .idle))
  | .checked i => decidable_of_iff (p.pool.threads[i]?.any Worker.checking = true)
      (Option.any_eq_true _ _)
  | .finished i => decidable_of_iff
      (p.pool.threads[i]?.any (fun worker => worker.job.isSome) = true ∧
        p.activity (.worker i) = .idle) (by
      refine and_congr_left' ((Option.any_eq_true _ _).trans ?_)
      constructor
      · rintro ⟨worker, found, busy⟩
        cases worker with
        | ready => cases busy
        | waiting => cases busy
        | woken => cases busy
        | running w => exact ⟨w, found⟩
      · rintro ⟨w, found⟩
        exact ⟨.running w, found, rfl⟩)
  | .spurious i => inferInstanceAs (Decidable (p.pool.threads[i]? = some .waiting))

def procNext (strtod : Strtod) : Process → ProcEvent → Option Process :=
  guarded ProcEvent.Allowed (ProcEvent.exec strtod)

theorem procNext_sound (strtod : Strtod) (p : Process) (event : ProcEvent) (after : Process)
    (stepped : procNext strtod p event = some after) : ProcStep strtod p event after :=
  guarded_sound p event after stepped

/-- A sorted set of two members is deleted next to a string; one address is used twice.
The main thread destroys it itself: an entry is handed to a worker only with a set of more
than `K_LARGE_CONTAINER_SIZE` members, too many to be evaluated here. -/
def deletedSet : List ProcEvent :=
  [.checked 0, .main (.request ⟨1, 1⟩ [ascii "zadd", [122], ascii "1", [109]]) (some 0),
    .main (.request ⟨2, 2⟩ [ascii "zadd", [122], ascii "1", [110]]) (some 0),
    .main (.request ⟨2, 3⟩ [ascii "set", [97], [120]]) (some 0),
    .main (.request ⟨3, 3⟩ [ascii "del", [122]]) (some 0)] ++ List.replicate 12 (.destroy .main) ++
  [.main (.request ⟨1, 1⟩ [ascii "zadd", [122], ascii "1", [109]]) (some 0)]

/-- In the middle of the destruction: one node is released, and the other node, the set and
the entry still have to be. -/
theorem process_memory_safe_deletedSet :
    ∃ start p, processInit 1 = .ok start ∧
      Runs (ProcStep strtodOne) start (deletedSet.take 14) p ∧
      p.activity .main = .disposing 1 [.free 1] ∧ p.live.card = 4 ∧
      ∃ share : Thread → Multiset Block,
        (∀ thread, Owns p.g.entry (p.activity thread) (share thread)) ∧
        p.live.val = p.g.blocks + (p.pending + ∑ thread ∈ p.crew, share thread) := by
  have started : processInit 1 = .ok { pool := ⟨[.ready], []⟩ } := rfl
  have followed : ((follow (procNext strtodOne) { pool := ⟨[.ready], []⟩ }
      (deletedSet.take 14)).any fun p =>
        decide (p.activity .main = .disposing 1 [.free 1] ∧ p.live.card = 4)) = true := by
    decide +kernel
  obtain ⟨p, pIs, both⟩ := (Option.any_eq_true _ _).mp followed
  obtain ⟨activity, count⟩ := of_decide_eq_true both
  have run := runs_of_follow_eq (procNext_sound strtodOne) pIs
  exact ⟨_, p, started, run, activity, count, (process_memory_safe strtodOne started run).2⟩

theorem process_leaks_nothing_deletedSet :
    ∃ start p, processInit 1 = .ok start ∧
      Runs (ProcStep strtodOne) start deletedSet p ∧ p.live.card = 4 ∧
      p.live.val = p.g.blocks := by
  have started : processInit 1 = .ok { pool := ⟨[.ready], []⟩ } := rfl
  have followed : ((follow (procNext strtodOne) { pool := ⟨[.ready], []⟩ } deletedSet).any
      fun p => decide (p.live.card = 4 ∧ p.activity .main = .idle ∧
        p.pool.threads = [.waiting])) = true := by
    decide +kernel
  obtain ⟨p, pIs, both⟩ := (Option.any_eq_true _ _).mp followed
  obtain ⟨count, mainIdle, waiting⟩ := of_decide_eq_true both
  have run := runs_of_follow_eq (procNext_sound strtodOne) pIs
  obtain ⟨ents, dict, due, share, owned⟩ := process_runs_safe started run
  refine ⟨_, p, started, run, count, (process_leaks_nothing strtodOne started run).2 ?_⟩
  intro event after step
  have asleep : ∀ {i : Nat} {worker : Worker}, p.pool.threads[i]? = some worker →
      worker = .waiting := by
    intro i worker found
    rw [waiting] at found
    exact List.mem_singleton.mp (List.mem_of_getElem? found)
  cases event with
  | main call woken => rfl
  | destroy thread =>
      exfalso
      apply step.1
      cases thread with
      | main => exact mainIdle
      | worker i =>
          by_contra busy
          obtain ⟨w, running⟩ := owned.busy i busy
          cases asleep running
  | checked i =>
      obtain ⟨worker, found, awake⟩ := step.1
      rw [asleep found] at awake
      cases awake
  | finished i =>
      obtain ⟨⟨w, running⟩, -⟩ := step.1
      cases asleep running
  | spurious i => rfl

end RedisC
