import ApeServer.Lib.Links
import ApeServer.Socket.Pool
import Mathlib.Data.UInt

/-!
# Pool lists in memory

A pool list of `ape_pool.c` is a chain of nodes with three pointers into it.  The nodes come in blocks,
and the calls splice the chain and move the pointers.

* `PoolNode`, `Memory` — the nodes and where they are;
* `newPool`, `initPoolList`, `headToQueue`, `headToCurrent`, `growPool` — the functions of the source;
* `Represents` — the chain is a `PoolList` of addresses, and the pointers are where it has them;
* `Represents.headToQueue`, `Represents.headToCurrent`, `Represents.growPool` — **the calls do to the
  chain what they do to a `PoolList`**;
* `poolList_intact` — **no call loses a node**.
-/

namespace Ape.Pool

open Links (Seg SameLink)
open Socket (PoolList)

/-! ## Nodes -/

/-- `APE_POOL_ALLOC`. -/
def apePoolAlloc : UInt32 := 1

/-- `ape_pool_t`.  Of the block that a node lies in the first address is kept; the code does not know
it. -/
structure PoolNode where
  data : Option Nat
  next : Option Nat
  flags : UInt32
  block : Nat
  deriving DecidableEq

/-- `pool->flags & APE_POOL_ALLOC`. -/
def PoolNode.isAlloc (n : PoolNode) : Bool := n.flags &&& apePoolAlloc ≠ 0

/-- The nodes by their addresses, none where a block has been freed, and the addresses that have been
handed to `free`. -/
structure Memory where
  nodes : List (Option PoolNode)
  freed : List Nat
  deriving DecidableEq

namespace Memory

/-- A node that is read.  A node of a block that has been freed is not there. -/
def get (m : Memory) (a : Nat) : Option PoolNode := (m.nodes[a]?).join

/-- A store into a node that is there. -/
def store (a : Nat) (f : PoolNode → PoolNode) (m : Memory) : Option Memory :=
  (m.get a).map fun _ => { m with nodes := m.nodes.modify a (Option.map f) }

end Memory

/-! ## The functions -/

/-- A node of the block of `n` at the address `pool`: the loop of `ape_new_pool`. -/
def blockNode (pool n i : Nat) : PoolNode where
  data := none
  next := if i = n - 1 then none else some (pool + (i + 1))
  flags := if i = 0 then apePoolAlloc else 0
  block := pool

/-- The nodes of a block. -/
def blockNodes (pool n : Nat) : List PoolNode := (List.range n).map (blockNode pool n)

/-- `ape_new_pool`: the memory and the address of the block.  The loop counts with an `unsigned int`,
so with more nodes it does not end. -/
def newPool (n : Nat) (m : Memory) : Option (Memory × Nat) :=
  if n < 2 ^ 32 then
    some ({ m with nodes := m.nodes ++ (blockNodes m.nodes.length n).map some }, m.nodes.length)
  else none

/-- `ape_pool_list_t`, with the memory, and with the addresses of all nodes that have been allocated
for the list. -/
structure ApePoolList where
  mem : Memory
  head : Option Nat
  queue : Option Nat
  current : Option Nat
  allocated : List Nat
  deriving DecidableEq

/-- `ape_init_pool_list`. -/
def initPoolList (n : Nat) (m : Memory) : Option ApePoolList := do
  let (mem, pool) ← newPool n m
  some ⟨mem, some pool, some (pool + (n - 1)), some pool, List.range' pool n⟩

/-- `ape_pool_head_to_queue`.  It returns the new `list->head`. -/
def headToQueue (s : ApePoolList) : Option ApePoolList := do
  let head ← s.head
  let h ← s.mem.get head
  let queue ← s.queue
  let linked ← s.mem.store queue fun n => { n with next := some head }
  let mem ← linked.store head fun n => { n with next := none }
  some { s with mem, head := h.next, queue := some head }

/-- `ape_pool_head_to_current`.  It returns `list->head`. -/
def headToCurrent (s : ApePoolList) : Option ApePoolList :=
  if s.head = s.current then some s
  else do
    let head ← s.head
    let h ← s.mem.get head
    let current ← s.current
    let c ← s.mem.get current
    let behind ← s.mem.store head fun n => { n with next := c.next }
    let mem ← behind.store current fun n => { n with next := some head }
    some { s with
      mem, head := h.next, current := some head
      queue := if c.next = none then some head else s.queue }

/-- `ape_grow_pool`.  It returns the address of the block. -/
def growPool (n : Nat) (s : ApePoolList) : Option ApePoolList := do
  let (grown, pool) ← newPool n s.mem
  let queue ← s.queue
  let mem ← grown.store queue fun n => { n with next := some pool }
  some { s with
    mem, queue := some (pool + (n - 1)), allocated := s.allocated ++ List.range' pool n }

/-! ## Runs -/

/-- What is done with a list: the three calls, and a store to `current` by a caller. -/
inductive Op
  | headToQueue
  | headToCurrent
  | growPool (n : Nat)
  | setCurrent (node : Nat)

/-- One operation. -/
def Op.exec : Op → ApePoolList → Option ApePoolList
  | headToQueue, s => Pool.headToQueue s
  | headToCurrent, s => Pool.headToCurrent s
  | growPool n, s => Pool.growPool n s
  | setCurrent node, s => some { s with current := some node }

/-- A sequence of operations. -/
def run : List Op → ApePoolList → Option ApePoolList
  | [], s => some s
  | op :: ops, s => (op.exec s).bind (run ops)

/-- From `head` along `next` lie the addresses of a list, and then the chain ends. -/
def Chain (s : ApePoolList) (as : List Nat) : Prop := Seg s.mem.get PoolNode.next s.head as none

/-- What callers do: they ask for at least one node, and not for more than the loop comes to, and
move `current` to nodes of the list only. -/
def Op.Allowed : Op → ApePoolList → Prop
  | growPool n, _ => 1 ≤ n ∧ n < 2 ^ 32
  | setCurrent node, s => ∃ as, Chain s as ∧ node ∈ as
  | _, _ => True

/-- Every operation of a sequence is one of these. -/
def AllowedRun : List Op → ApePoolList → Prop
  | [], _ => True
  | op :: ops, s => op.Allowed s ∧ ∀ s', op.exec s = some s' → AllowedRun ops s'

/-! ## Memory -/

section Memory

variable {m m' : Memory} {a b n pool : Nat} {node : PoolNode}

theorem Memory.get_eq_some : m.get a = some node ↔ m.nodes[a]? = some (some node) :=
  Option.join_eq_some_iff

theorem Memory.lt_of_get (h : m.get a = some node) : a < m.nodes.length :=
  (List.getElem?_eq_some_iff.1 (get_eq_some.1 h)).1

/-- **A store** changes one node. -/
theorem Memory.store_spec (f : PoolNode → PoolNode) (h : m.get a = some node) :
    ∃ m', m.store a f = some m' ∧ m'.get a = some (f node) ∧ (∀ b, b ≠ a → m'.get b = m.get b) ∧
      m'.freed = m.freed := by
  have hstore : m.store a f = some { m with nodes := m.nodes.modify a (Option.map f) } := by
    rw [store, h, Option.map_some]
  refine ⟨_, hstore, ?_, ?_, rfl⟩
  · rw [get_eq_some, List.getElem?_modify_eq, get_eq_some.1 h]
    rfl
  · intro b hb
    simp only [get]
    rw [List.getElem?_modify_ne _ _ (Ne.symm hb)]

/-- **A new block** lies behind all nodes that there are. -/
theorem newPool_spec (h : newPool n m = some (m', pool)) :
    pool = m.nodes.length ∧ (∀ b, b < pool → m'.get b = m.get b) ∧
      (∀ i < n, m'.get (pool + i) = some (blockNode pool n i)) ∧ m'.freed = m.freed := by
  unfold newPool at h
  split at h
  case isFalse => exact absurd h (by simp)
  obtain ⟨rfl, rfl⟩ := Prod.mk.inj (Option.some.inj h)
  refine ⟨rfl, ?_, ?_, rfl⟩
  · intro b hb
    simp only [Memory.get]
    rw [List.getElem?_append_left hb]
  · intro i hi
    rw [Memory.get_eq_some, List.getElem?_append_right (Nat.le_add_right _ i), Nat.add_sub_cancel_left,
      blockNodes, List.map_map, List.getElem?_map, List.getElem?_range hi]
    rfl

theorem newPool_isSome (m : Memory) (h : n < 2 ^ 32) : ∃ m', newPool n m = some (m', m.nodes.length) :=
  ⟨_, if_pos h⟩

/-- The nodes of a block are linked one to the next. -/
theorem seg_block (h : ∀ i < n, m.get (pool + i) = some (blockNode pool n i)) {k : Nat} (hk : k < n) :
    Seg m.get PoolNode.next (some (pool + k)) (List.range' (pool + k) (n - k)) none := by
  obtain ⟨d, hd⟩ : ∃ d, n - k = d + 1 := ⟨n - k - 1, by omega⟩
  induction d generalizing k with
  | zero =>
    rw [hd]
    refine ⟨rfl, _, h k hk, ?_⟩
    show (blockNode pool n k).next = none
    exact if_pos (by omega)
  | succ d ih =>
    rw [hd, List.range'_succ]
    refine ⟨rfl, _, h k hk, ?_⟩
    have hnext : (blockNode pool n k).next = some (pool + (k + 1)) := if_neg (by omega)
    have hrest := ih (k := k + 1) (by omega) (by omega)
    rw [show n - (k + 1) = d + 1 by omega] at hrest
    rwa [hnext]

end Memory

/-! ## The chain and the list -/

/-- The chain is the list `p` of addresses, that are all that have been allocated for it, and the
pointers are where `p` has them. -/
structure Represents (s : ApePoolList) (p : PoolList Nat) : Prop where
  chain : Chain s p.nodes
  queue : s.queue = p.nodes.getLast?
  current : s.current = some p.current
  once : p.nodes.Nodup
  all : p.nodes.Perm s.allocated
  two : 2 ≤ p.nodes.length

section Calls

variable {s s' : ApePoolList} {p : PoolList Nat} {m : Memory} {n : Nat}

/-- There is only one chain of nodes from the head. -/
theorem Represents.chain_eq (h : Represents s p) {as : List Nat} (has : Chain s as) : as = p.nodes :=
  has.unique h.chain

/-- A node that is not the one that was stored to has its link. -/
theorem sameLink_of_get {m m' : Memory} {a : Nat} (h : m'.get a = m.get a) :
    SameLink m.get m'.get PoolNode.next a := by
  intro n hn
  exact ⟨n, h.trans hn, rfl⟩

/-- **`ape_init_pool_list`** makes a list of one block. -/
theorem represents_init (hn : 2 ≤ n) (h : initPoolList n m = some s) :
    Represents s ⟨[], m.nodes.length, List.range' (m.nodes.length + 1) (n - 1)⟩ := by
  obtain ⟨⟨mem, pool⟩, hnew, h⟩ := Option.bind_eq_some_iff.1 h
  obtain rfl := Option.some.inj h
  obtain ⟨rfl, -, hblock, -⟩ := newPool_spec hnew
  have hnodes : (⟨[], m.nodes.length, List.range' (m.nodes.length + 1) (n - 1)⟩ : PoolList Nat).nodes =
      List.range' m.nodes.length n := by
    obtain ⟨k, rfl⟩ : ∃ k, n = k + 1 := ⟨n - 1, by omega⟩
    rfl
  constructor
  · rw [hnodes]
    exact seg_block (k := 0) hblock (by omega)
  · rw [hnodes, List.getLast?_range', if_neg (by omega)]
    exact congrArg some (by omega)
  · rfl
  · rw [hnodes]
    exact List.nodup_range'
  · rw [hnodes]
  · rw [hnodes, List.length_range']
    exact hn

/-- The queue is the last node. -/
theorem Represents.exists_last (h : Represents s p) :
    ∃ init q, p.nodes = init ++ [q] ∧ s.queue = some q ∧ q ∉ init := by
  obtain ⟨init, q, hnodes⟩ : ∃ init q, p.nodes = init ++ [q] := by
    rcases List.eq_nil_or_concat p.nodes with hnil | ⟨init, q, hq⟩
    · exact absurd h.two (by simp [hnil])
    · exact ⟨init, q, hq.trans List.concat_eq_append⟩
  refine ⟨init, q, hnodes, ?_, fun hmem => ?_⟩
  · rw [h.queue, hnodes, List.getLast?_concat]
  · have honce := h.once
    rw [hnodes] at honce
    exact (List.nodup_append.1 honce).2.2 q hmem q (List.mem_singleton_self q) rfl

/-- **`ape_pool_head_to_queue`** takes the head to the end. -/
theorem Represents.headToQueue (h : Represents s p) :
    ∃ s', headToQueue s = some s' ∧ Represents s' p.headToQueue ∧ s'.allocated = s.allocated := by
  obtain ⟨before, q, hlast, hqueue, hq⟩ := h.exists_last
  obtain ⟨rest, hnodes, -⟩ := p.nodes_eq_head_cons
  -- the last node is another one
  obtain ⟨init, rfl, rfl⟩ : ∃ init, before = p.head :: init ∧ rest = init ++ [q] := by
    cases before with
    | nil => exact absurd h.two (by simp [hlast])
    | cons a init =>
      obtain ⟨rfl, rfl⟩ := List.cons.inj (hnodes.symm.trans hlast)
      exact ⟨init, rfl, rfl⟩
  have hchain := h.chain
  have honce := h.once
  have htwo := h.two
  rw [hnodes] at hchain honce htwo
  obtain ⟨hhead, hn, hhn, hrest⟩ := hchain
  obtain ⟨hfresh, -⟩ := List.nodup_cons.1 honce
  have hne : q ≠ p.head := by
    rintro rfl
    exact hq (List.mem_cons_self ..)
  obtain ⟨qn, hqn, -⟩ := hrest.last
  obtain ⟨m₁, hstore₁, hq₁, hother₁, -⟩ :=
    Memory.store_spec (fun n => { n with next := some p.head }) hqn
  obtain ⟨m₂, hstore₂, hh₂, hother₂, -⟩ := Memory.store_spec (fun n => { n with next := none })
    ((hother₁ _ (Ne.symm hne)).trans hhn)
  have hrun : Pool.headToQueue s =
      some { s with mem := m₂, head := hn.next, queue := some p.head } := by
    simp only [Pool.headToQueue, hhead, hhn, hqueue, hstore₁, hstore₂, bind, Option.bind_some]
  have hnodes' := PoolList.nodes_headToQueue_cons hnodes
  have hperm : (init ++ [q] ++ [p.head]).Perm (p.head :: (init ++ [q])) :=
    List.perm_append_singleton ..
  refine ⟨_, hrun, ?_, rfl⟩
  constructor
  · rw [hnodes']
    refine Links.seg_append.2 ⟨some p.head, ?_, rfl, _, hh₂, rfl⟩
    apply hrest.relink ((hother₂ q hne).trans hq₁) rfl
    intro c hc
    obtain ⟨hcq, hch⟩ : c ≠ q ∧ c ≠ p.head := by
      refine ⟨?_, ?_⟩
      · rintro rfl
        exact hq (List.mem_cons_of_mem _ hc)
      · rintro rfl
        exact hfresh (List.mem_append_left _ hc)
    exact sameLink_of_get ((hother₂ c hch).trans (hother₁ c hcq))
  · rw [hnodes', List.getLast?_concat]
  · rw [PoolList.current_headToQueue]
    exact h.current
  · rw [hnodes']
    exact hperm.symm.nodup honce
  · rw [hnodes']
    exact hperm.trans (hnodes ▸ h.all)
  · rw [hnodes', hperm.length_eq]
    exact htwo

/-- **`ape_pool_head_to_current`** takes the head behind `current`. -/
theorem Represents.headToCurrent (h : Represents s p) :
    ∃ s', headToCurrent s = some s' ∧ Represents s' p.headToCurrent ∧ s'.allocated = s.allocated := by
  obtain ⟨before, c, after⟩ := p
  cases before with
  | nil =>
    have hhead : s.head = some c := h.chain.start
    refine ⟨s, ?_, h, rfl⟩
    rw [Pool.headToCurrent, if_pos (hhead.trans h.current.symm)]
  | cons a bs =>
    have honce : (a :: (bs ++ c :: after)).Nodup := h.once
    obtain ⟨hfresh, hrest⟩ := List.nodup_cons.1 honce
    obtain ⟨-, hcafter, hapart⟩ := List.nodup_append.1 hrest
    obtain ⟨hhead, an, han, hchain⟩ := h.chain
    obtain ⟨e, hbs, rfl, cn, hcn, hafter⟩ := Links.seg_append.1 hchain
    have hac : a ≠ c := by
      rintro rfl
      exact hfresh (List.mem_append_right _ (List.mem_cons_self ..))
    -- the two stores
    obtain ⟨m₁, hstore₁, ha₁, hother₁, -⟩ := Memory.store_spec (fun n => { n with next := cn.next }) han
    obtain ⟨m₂, hstore₂, hc₂, hother₂, -⟩ := Memory.store_spec (fun n => { n with next := some a })
      ((hother₁ c (Ne.symm hac)).trans hcn)
    have ha₂ := (hother₂ a hac).trans ha₁
    have hsame : ∀ b, b ≠ a → b ≠ c → SameLink s.mem.get m₂.get PoolNode.next b := by
      intro b hba hbc
      exact sameLink_of_get ((hother₂ b hbc).trans (hother₁ b hba))
    have hrun : Pool.headToCurrent s = some { s with
        mem := m₂, head := an.next, current := some a
        queue := if cn.next = none then some a else s.queue } := by
      have hne : ¬ s.head = s.current := by
        rw [hhead, h.current]
        exact fun heq => hac (Option.some.inj heq)
      rw [Pool.headToCurrent, if_neg hne]
      simp only [hhead, han, h.current, hcn, hstore₁, hstore₂, bind, Option.bind_some]
    refine ⟨_, hrun, ?_, rfl⟩
    have hnodes : (PoolList.headToCurrent ⟨a :: bs, c, after⟩).nodes = bs ++ [c] ++ a :: after := rfl
    have hperm : (bs ++ [c] ++ a :: after).Perm (a :: (bs ++ c :: after)) :=
      PoolList.nodes_headToCurrent ⟨a :: bs, c, after⟩
    constructor
    · rw [hnodes]
      refine Links.seg_append.2 ⟨some a, ?_, rfl, _, ha₂, ?_⟩
      · refine Links.seg_append.2 ⟨some c, ?_, rfl, _, hc₂, rfl⟩
        apply hbs.frame
        intro b hb
        apply hsame b
        · rintro rfl
          exact hfresh (List.mem_append_left _ hb)
        · exact fun heq => hapart b hb c (List.mem_cons_self ..) heq
      · apply hafter.frame
        intro b hb
        apply hsame b
        · rintro rfl
          exact hfresh (List.mem_append_right _ (List.mem_cons_of_mem _ hb))
        · rintro rfl
          exact (List.nodup_cons.1 hcafter).1 hb
    · have hstart : cn.next = after.head?.or none := hafter.start
      have hqueue : s.queue = (a :: (bs ++ c :: after)).getLast? := h.queue
      show (if cn.next = none then some a else s.queue) = (bs ++ [c] ++ a :: after).getLast?
      cases after with
      | nil =>
        rw [if_pos (by rw [hstart]; rfl), List.getLast?_concat]
      | cons b after =>
        rw [if_neg (by rw [hstart]; simp), hqueue, ← List.cons_append]
        simp only [List.getLast?_append, List.getLast?_cons_cons]
        simp [List.getLast?_cons]
    · rfl
    · rw [hnodes]
      exact hperm.symm.nodup honce
    · rw [hnodes]
      exact hperm.trans h.all
    · rw [hnodes, hperm.length_eq]
      exact h.two

/-- **`ape_grow_pool`** links a new block behind the list. -/
theorem Represents.growPool (h : Represents s p) (hn : 1 ≤ n) (hlt : n < 2 ^ 32) :
    ∃ s', growPool n s = some s' ∧ Represents s' (p.extend (List.range' s.mem.nodes.length n)) ∧
      s'.allocated = s.allocated ++ List.range' s.mem.nodes.length n := by
  obtain ⟨m₁, hnew⟩ := newPool_isSome s.mem hlt
  obtain ⟨-, hold, hblock, -⟩ := newPool_spec hnew
  -- the nodes of the list are older than the block
  have hlive : ∀ a ∈ p.nodes, ∃ node, s.mem.get a = some node := fun a ha => h.chain.live ha
  have hbelow : ∀ a ∈ p.nodes, a < s.mem.nodes.length := by
    intro a ha
    obtain ⟨node, hnode⟩ := hlive a ha
    exact Memory.lt_of_get hnode
  obtain ⟨init, q, hnodes, hqueue, hfresh⟩ := h.exists_last
  have hq : q ∈ p.nodes := by
    rw [hnodes]
    exact List.mem_append_right _ (List.mem_singleton_self q)
  obtain ⟨qn, hqn⟩ := hlive q hq
  obtain ⟨m₂, hstore, hq₂, hother, -⟩ := Memory.store_spec
    (fun n => { n with next := some s.mem.nodes.length }) ((hold q (hbelow q hq)).trans hqn)
  have hrun : Pool.growPool n s = some { s with
      mem := m₂, queue := some (s.mem.nodes.length + (n - 1))
      allocated := s.allocated ++ List.range' s.mem.nodes.length n } := by
    simp only [Pool.growPool, hnew, hqueue, hstore, bind, Option.bind_some]
  have hseg : Seg m₂.get PoolNode.next (some s.mem.nodes.length) (List.range' s.mem.nodes.length n)
      none := by
    refine (seg_block (k := 0) hblock (by omega)).frame fun a ha => sameLink_of_get (hother a ?_)
    rintro rfl
    have hle := (List.mem_range'_1.1 ha).1
    exact absurd (hbelow a hq) (by omega)
  have hchain : Seg s.mem.get PoolNode.next s.head (init ++ [q]) none := by
    have hchain := h.chain
    rwa [Chain, hnodes] at hchain
  refine ⟨_, hrun, ?_, rfl⟩
  constructor
  · rw [PoolList.nodes_extend]
    refine Links.seg_append.2 ⟨some s.mem.nodes.length, ?_, hseg⟩
    rw [hnodes]
    apply hchain.relink hq₂ rfl
    intro a ha
    have hmem : a ∈ p.nodes := by
      rw [hnodes]
      exact List.mem_append_left _ ha
    have hne : a ≠ q := fun heq => hfresh (heq ▸ ha)
    exact sameLink_of_get ((hother a hne).trans (hold a (hbelow a hmem)))
  · rw [PoolList.nodes_extend, List.getLast?_append, List.getLast?_range', if_neg (by omega)]
    exact congrArg some (by omega)
  · exact h.current
  · rw [PoolList.nodes_extend]
    refine List.nodup_append.2 ⟨h.once, List.nodup_range', ?_⟩
    rintro a ha b hb rfl
    exact absurd (hbelow a ha) (Nat.not_lt.2 (List.mem_range'_1.1 hb).1)
  · rw [PoolList.nodes_extend]
    exact h.all.append_right _
  · rw [PoolList.nodes_extend, List.length_append]
    exact h.two.trans (Nat.le_add_right ..)

/-- **`current` is moved** to a node of the list. -/
theorem Represents.setCurrent (h : Represents s p) {node : Nat} (hnode : node ∈ p.nodes) :
    ∃ q : PoolList Nat, q.nodes = p.nodes ∧ q.current = node ∧
      Represents { s with current := some node } q := by
  obtain ⟨before, after, hsplit⟩ := List.append_of_mem hnode
  have hnodes : (⟨before, node, after⟩ : PoolList Nat).nodes = p.nodes := hsplit.symm
  refine ⟨⟨before, node, after⟩, hnodes, rfl, ?_⟩
  constructor
  · rw [hnodes]
    exact h.chain
  · rw [hnodes]
    exact h.queue
  · rfl
  · rw [hnodes]
    exact h.once
  · rw [hnodes]
    exact h.all
  · rw [hnodes]
    exact h.two

/-! ## The list as its users see it -/

/-- With the nodes read through `f` the list is `q`. -/
def Reads {α : Type*} (s : ApePoolList) (f : Nat → α) (q : PoolList α) : Prop :=
  ∃ p, Represents s p ∧ p.map f = q

section Reads

variable {α : Type*} {f : Nat → α} {q : PoolList α}

theorem Reads.headToQueue (h : Reads s f q) :
    ∃ s', headToQueue s = some s' ∧ Reads s' f q.headToQueue := by
  obtain ⟨p, hp, rfl⟩ := h
  obtain ⟨s', hrun, hrep, -⟩ := hp.headToQueue
  exact ⟨s', hrun, p.headToQueue, hrep, PoolList.map_headToQueue f p⟩

theorem Reads.headToCurrent (h : Reads s f q) :
    ∃ s', headToCurrent s = some s' ∧ Reads s' f q.headToCurrent := by
  obtain ⟨p, hp, rfl⟩ := h
  obtain ⟨s', hrun, hrep, -⟩ := hp.headToCurrent
  exact ⟨s', hrun, p.headToCurrent, hrep, PoolList.map_headToCurrent f p⟩

/-- The new nodes read as fresh ones. -/
theorem Reads.growPool (h : Reads s f q) (hn : 1 ≤ n) (hlt : n < 2 ^ 32) {fresh : α}
    (hfresh : ∀ a, s.mem.nodes.length ≤ a → f a = fresh) :
    ∃ s', growPool n s = some s' ∧ Reads s' f (q.grow fresh n) := by
  obtain ⟨p, hp, rfl⟩ := h
  obtain ⟨s', hrun, hrep, -⟩ := hp.growPool hn hlt
  refine ⟨s', hrun, _, hrep, ?_⟩
  rw [PoolList.map_extend f fun a ha => hfresh a (List.mem_range'_1.1 ha).1, List.length_range']

end Reads

/-! ## Runs -/

/-- **One operation** that is allowed does in memory what it does to the list. -/
theorem Represents.exec (h : Represents s p) {op : Op} (hop : op.Allowed s) :
    ∃ s' p', op.exec s = some s' ∧ Represents s' p' := by
  cases op with
  | headToQueue =>
    obtain ⟨s', hrun, hrep, -⟩ := h.headToQueue
    exact ⟨s', _, hrun, hrep⟩
  | headToCurrent =>
    obtain ⟨s', hrun, hrep, -⟩ := h.headToCurrent
    exact ⟨s', _, hrun, hrep⟩
  | growPool n =>
    obtain ⟨s', hrun, hrep, -⟩ := h.growPool hop.1 hop.2
    exact ⟨s', _, hrun, hrep⟩
  | setCurrent node =>
    obtain ⟨as, has, hmem⟩ := hop
    rw [h.chain_eq has] at hmem
    obtain ⟨q, -, -, hrep⟩ := h.setCurrent hmem
    exact ⟨_, q, rfl, hrep⟩

/-- **A sequence of operations** returns, and keeps what each of them keeps. -/
theorem run_keeps {inv : ApePoolList → Prop}
    (hexec : ∀ s (op : Op), inv s → op.Allowed s → ∃ s', op.exec s = some s' ∧ inv s') (hs : inv s)
    {ops : List Op} (hops : AllowedRun ops s) : ∃ s', run ops s = some s' ∧ inv s' := by
  induction ops generalizing s with
  | nil => exact ⟨s, rfl, hs⟩
  | cons op ops ih =>
    obtain ⟨s₁, hrun₁, hs₁⟩ := hexec s op hs hops.1
    obtain ⟨s', hrun, hs'⟩ := ih hs₁ (hops.2 s₁ hrun₁)
    refine ⟨s', ?_, hs'⟩
    rw [run, hrun₁, Option.bind_some, hrun]

/-! ## What is promised -/

/-- From `head` along `next` every node that has been allocated for the list is met once, and then
the chain ends; `queue` is the last of them, and `current` is one. -/
def Whole (s : ApePoolList) : Prop :=
  ∃ as, Chain s as ∧ as.Nodup ∧ as.Perm s.allocated ∧ s.queue = as.getLast? ∧
    ∃ c ∈ as, s.current = some c

/-- The two calls that take the head elsewhere leave the other nodes in their order: the head goes to
the end, or behind `current`, or stays if it is `current` itself. -/
structure KeepsOrder (s : ApePoolList) : Prop where
  toQueue : ∀ h rest, Chain s (h :: rest) → ∃ s', headToQueue s = some s' ∧ Chain s' (rest ++ [h])
  toCurrent : ∀ h before c after, Chain s (h :: (before ++ c :: after)) → s.current = some c →
    ∃ s', headToCurrent s = some s' ∧ Chain s' (before ++ c :: h :: after)
  stays : ∀ h rest, Chain s (h :: rest) → s.current = some h → headToCurrent s = some s

theorem Represents.whole (h : Represents s p) : Whole s :=
  ⟨p.nodes, h.chain, h.once, h.all, h.queue, p.current, p.current_mem, h.current⟩

theorem Represents.keepsOrder (h : Represents s p) : KeepsOrder s := by
  constructor
  · intro a rest hchain
    obtain ⟨s', hrun, hrep, -⟩ := h.headToQueue
    have hnodes := PoolList.nodes_headToQueue_cons (h.chain_eq hchain).symm
    refine ⟨s', hrun, ?_⟩
    rw [← hnodes]
    exact hrep.chain
  · intro a before c after hchain hcurrent
    obtain ⟨s', hrun, hrep, -⟩ := h.headToCurrent
    refine ⟨s', hrun, ?_⟩
    have hnodes : (a :: before) ++ c :: after = p.nodes := h.chain_eq hchain
    have honce := h.once
    obtain ⟨before', c', after'⟩ := p
    obtain rfl : c = c' := Option.some.inj (hcurrent.symm.trans h.current)
    -- `current` is there once, so the list has one place for it
    rw [← hnodes] at honce
    obtain ⟨-, hafter, hapart⟩ := List.nodup_append.1 honce
    have hfront : c ∉ a :: before := fun hmem => hapart c hmem c (List.mem_cons_self ..) rfl
    obtain ⟨rfl, -, rfl⟩ :=
      (List.append_cons_inj_of_notMem hfront (List.nodup_cons.1 hafter).1).1 hnodes
    have hmoved : (PoolList.headToCurrent ⟨a :: before, c, after⟩).nodes =
        before ++ c :: a :: after := by
      simp [PoolList.headToCurrent, PoolList.nodes]
    rw [← hmoved]
    exact hrep.chain
  · intro a rest hchain hcurrent
    have hhead : s.head = some a := hchain.1
    rw [Pool.headToCurrent, if_pos (hhead.trans hcurrent.symm)]

/-- **No call loses a node.**  Whatever is done with a list that has begun with two nodes or more,
every call returns, every node is on the chain once, the pointers are on it, and the calls only take
the head elsewhere. -/
theorem poolList_intact (hn : 2 ≤ n) (hinit : initPoolList n m = some s) {ops : List Op}
    (hops : AllowedRun ops s) : ∃ s', run ops s = some s' ∧ Whole s' ∧ KeepsOrder s' := by
  have hexec : ∀ s (op : Op), (∃ p, Represents s p) → op.Allowed s →
      ∃ s', op.exec s = some s' ∧ ∃ p, Represents s' p := by
    rintro s op ⟨p, hp⟩ hop
    obtain ⟨s', p', hrun, hp'⟩ := hp.exec hop
    exact ⟨s', hrun, p', hp'⟩
  obtain ⟨s', hrun, p, hp⟩ := run_keeps hexec ⟨_, represents_init hn hinit⟩ hops
  exact ⟨s', hrun, hp.whole, hp.keepsOrder⟩

end Calls

/-- Two nodes, `current` moved to the second one, and a turn of each call. -/
theorem poolList_intact_two :
    ∃ s s', initPoolList 2 ⟨[], []⟩ = some s ∧
      run [.setCurrent 1, .headToCurrent, .headToQueue, .growPool 1] s = some s' ∧ Whole s' ∧
      KeepsOrder s' := by
  obtain ⟨s, hinit⟩ : ∃ s, initPoolList 2 ⟨[], []⟩ = some s := ⟨_, rfl⟩
  have hchain : Chain s [0, 1] := by
    obtain rfl := Option.some.inj hinit
    exact ⟨rfl, _, rfl, rfl, _, rfl, rfl⟩
  have hops : AllowedRun [.setCurrent 1, .headToCurrent, .headToQueue, .growPool 1] s :=
    ⟨⟨[0, 1], hchain, by decide⟩, fun _ _ => ⟨trivial, fun _ _ => ⟨trivial, fun _ _ =>
      ⟨⟨le_rfl, by decide⟩, fun _ _ => trivial⟩⟩⟩⟩
  obtain ⟨s', hrun, hwhole, horder⟩ := poolList_intact le_rfl hinit hops
  exact ⟨s, s', hinit, hrun, hwhole, horder⟩

end Ape.Pool
