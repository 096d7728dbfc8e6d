import Mathlib

/-!
# The pool lists of `ape_pool.c`

A pool list is a linked list of nodes with three pointers: its `head`, its last node `queue`, and
`current`, which stands on one of the nodes.  It is kept here as what lies before `current`, the
node itself, and what lies behind it, so that `current` is a node of the list by construction.

* `headToQueue`, `headToCurrent`, `grow`, `next` — the moves of `ape_pool.c` and of its callers;
* `nodes_headToQueue_cons`, `nodes_headToCurrent` — they only rotate the nodes;
* `forall_modifyHead`, `forall_modifyCurrent` — a store keeps what holds of every node.
-/

namespace Ape.Socket

/-- `ape_pool_list_t`. -/
structure PoolList (α : Type*) where
  before : List α
  current : α
  after : List α
  deriving DecidableEq, Repr

namespace PoolList

variable {α : Type*}

/-- The nodes from `head` to `queue`. -/
def nodes (p : PoolList α) : List α := p.before ++ p.current :: p.after

/-- `list->head`. -/
def head (p : PoolList α) : α :=
  match p.before with
  | [] => p.current
  | h :: _ => h

/-- `ape_init_pool_list` with `n + 1` nodes. -/
def init (fresh : α) (n : Nat) : PoolList α := ⟨[], fresh, List.replicate n fresh⟩

/-- `ape_grow_pool`: `n` nodes behind `queue`. -/
def grow (fresh : α) (n : Nat) (p : PoolList α) : PoolList α :=
  { p with after := p.after ++ List.replicate n fresh }

/-- Given nodes behind `queue`. -/
def extend (block : List α) (p : PoolList α) : PoolList α := { p with after := p.after ++ block }

/-- `list->current = list->current->next`; at the end of the list there is none. -/
def next (p : PoolList α) : PoolList α :=
  match p.after with
  | [] => p
  | a :: as => ⟨p.before ++ [p.current], a, as⟩

/-- A store through `current`. -/
def modifyCurrent (f : α → α) (p : PoolList α) : PoolList α := { p with current := f p.current }

/-- A store through `head`. -/
def modifyHead (f : α → α) (p : PoolList α) : PoolList α :=
  match p.before with
  | [] => { p with current := f p.current }
  | h :: bs => { p with before := f h :: bs }

/-- `ape_pool_head_to_queue`.  A list of one node would lose its head; none is that short. -/
def headToQueue (p : PoolList α) : PoolList α :=
  match p.before with
  | [] => ⟨p.after, p.current, []⟩
  | h :: bs => { p with before := bs, after := p.after ++ [h] }

/-- `ape_pool_head_to_current`: the head is linked in behind `current` and becomes it. -/
def headToCurrent (p : PoolList α) : PoolList α :=
  match p.before with
  | [] => p
  | h :: bs => ⟨bs ++ [p.current], h, p.after⟩

/-- The list with every node read through `f`. -/
def map {β : Type*} (f : α → β) (p : PoolList α) : PoolList β :=
  ⟨p.before.map f, f p.current, p.after.map f⟩

section Map

variable {β : Type*} (f : α → β) (p : PoolList α)

@[simp] theorem current_map : (p.map f).current = f p.current := rfl

@[simp] theorem after_map : (p.map f).after = p.after.map f := rfl

@[simp] theorem head_map : (p.map f).head = f p.head := by
  obtain ⟨before, current, after⟩ := p
  cases before <;> rfl

theorem map_init (fresh : α) (n : Nat) : (init fresh n).map f = init (f fresh) n := by
  simp [map, init]

theorem map_grow (fresh : α) (n : Nat) : (p.grow fresh n).map f = (p.map f).grow (f fresh) n := by
  simp [map, grow]

theorem map_next : p.next.map f = (p.map f).next := by
  obtain ⟨before, current, after⟩ := p
  cases after <;> simp [map, next]

theorem map_headToCurrent : p.headToCurrent.map f = (p.map f).headToCurrent := by
  obtain ⟨before, current, after⟩ := p
  cases before <;> simp [map, headToCurrent]

theorem map_headToQueue : p.headToQueue.map f = (p.map f).headToQueue := by
  obtain ⟨before, current, after⟩ := p
  cases before <;> simp [map, headToQueue]

theorem map_modifyCurrent {g : α → α} {g' : β → β} (h : ∀ a, f (g a) = g' (f a)) :
    (p.modifyCurrent g).map f = (p.map f).modifyCurrent g' := by
  simp [map, modifyCurrent, h]

theorem map_modifyHead {g : α → α} {g' : β → β} (h : f (g p.head) = g' (f p.head)) :
    (p.modifyHead g).map f = (p.map f).modifyHead g' := by
  obtain ⟨before, current, after⟩ := p
  cases before <;> simp_all [map, modifyHead, head]

end Map

/-- A store depends on the head only. -/
theorem modifyHead_congr {f g : α → α} {p : PoolList α} (h : f p.head = g p.head) :
    p.modifyHead f = p.modifyHead g := by
  obtain ⟨before, current, after⟩ := p
  cases before <;> simp_all [head, modifyHead]

theorem modifyHead_eq_self {f : α → α} {p : PoolList α} (h : f p.head = p.head) :
    p.modifyHead f = p := by
  obtain ⟨before, current, after⟩ := p
  cases before <;> simp_all [head, modifyHead]

theorem modifyHead_modifyHead (f g : α → α) (p : PoolList α) :
    (p.modifyHead f).modifyHead g = p.modifyHead (g ∘ f) := by
  obtain ⟨before, current, after⟩ := p
  cases before <;> rfl

theorem nodes_eq_head_cons (p : PoolList α) : ∃ rest, p.nodes = p.head :: rest ∧
    ∀ f, (p.modifyHead f).nodes = f p.head :: rest := by
  obtain ⟨before, current, after⟩ := p
  cases before with
  | nil => exact ⟨after, rfl, fun _ => rfl⟩
  | cons b bs => exact ⟨bs ++ current :: after, rfl, fun _ => rfl⟩

/-- Taking the head to the queue puts it behind the other nodes. -/
theorem nodes_headToQueue_cons {p : PoolList α} {h : α} {rest : List α} (hnodes : p.nodes = h :: rest) :
    p.headToQueue.nodes = rest ++ [h] := by
  obtain ⟨before, current, after⟩ := p
  cases before with
  | nil =>
    obtain ⟨rfl, rfl⟩ := List.cons.inj hnodes
    rfl
  | cons b bs =>
    obtain ⟨rfl, rfl⟩ := List.cons.inj hnodes
    simp [headToQueue, nodes]

/-- Taking it behind `current` only rotates the nodes. -/
theorem nodes_headToCurrent (p : PoolList α) : p.headToCurrent.nodes.Perm p.nodes := by
  obtain ⟨before, current, after⟩ := p
  cases before with
  | nil => exact List.Perm.refl _
  | cons h bs =>
    show (bs ++ [current] ++ h :: after).Perm (h :: (bs ++ current :: after))
    refine List.perm_middle.trans (List.Perm.cons h ?_)
    simp

theorem nodes_extend (block : List α) (p : PoolList α) : (p.extend block).nodes = p.nodes ++ block := by
  simp [nodes, extend]

/-- Nodes that read as fresh ones make the list grow. -/
theorem map_extend {β : Type*} (f : α → β) {fresh : β} {block : List α} (h : ∀ a ∈ block, f a = fresh)
    (p : PoolList α) : (p.extend block).map f = (p.map f).grow fresh block.length := by
  simp only [map, extend, grow, List.map_append]
  rw [List.map_eq_replicate_iff.2 h]

@[simp] theorem current_headToQueue (p : PoolList α) : p.headToQueue.current = p.current := by
  obtain ⟨before, current, after⟩ := p
  cases before <;> rfl

@[simp] theorem head_modifyHead (f : α → α) (p : PoolList α) : (p.modifyHead f).head = f p.head := by
  obtain ⟨before, current, after⟩ := p
  cases before <;> rfl

theorem head_mem (p : PoolList α) : p.head ∈ p.nodes := by
  obtain ⟨rest, hnodes, -⟩ := p.nodes_eq_head_cons
  rw [hnodes]
  exact List.mem_cons_self ..

theorem current_mem (p : PoolList α) : p.current ∈ p.nodes :=
  List.mem_append_right _ (List.mem_cons_self ..)

/-- A store through `head` keeps what holds of every node, if it holds of the new one. -/
theorem forall_modifyHead {P : α → Prop} {p : PoolList α} (h : ∀ a ∈ p.nodes, P a) {f : α → α}
    (hf : P (f p.head)) : ∀ a ∈ (p.modifyHead f).nodes, P a := by
  obtain ⟨rest, hnodes, hmodify⟩ := p.nodes_eq_head_cons
  rw [hnodes] at h
  rw [hmodify f]
  exact List.forall_mem_cons.2 ⟨hf, (List.forall_mem_cons.1 h).2⟩

/-- A store through `current` keeps what holds of every node, if it holds of the new one. -/
theorem forall_modifyCurrent {P : α → Prop} {p : PoolList α} (h : ∀ a ∈ p.nodes, P a) {f : α → α}
    (hf : P (f p.current)) : ∀ a ∈ (p.modifyCurrent f).nodes, P a := by
  intro a ha
  rcases List.mem_append.1 ha with hbefore | hrest
  · exact h a (List.mem_append_left _ hbefore)
  · rcases List.mem_cons.1 hrest with rfl | hafter
    · exact hf
    · exact h a (List.mem_append_right _ (List.mem_cons_of_mem _ hafter))

end PoolList

end Ape.Socket
