import ApeServer.Pool.Lists

/-!
# The end of a pool

`ape_destroy_pool` walks over the nodes, in whatever order they are, and links those that begin a block
into a chain of their own.  The first of them stays where the walk is: its link is the way on.  Then it
frees the blocks along the chain.

* `Memory.free` — a block that is freed is gone with all its nodes;
* `destroyScan`, `freeChain`, `destroyPool` — the two loops and the whole;
* `destroyScan_spec` — the first loop: the chain holds the beginnings of blocks, and the way on is kept;
* `freeChain_spec` — the second loop;
* `destroyPool_frees` — **every block is freed once, and no node is read behind that**;
* `destroyPool_run` — **nothing is left** of a list, whatever has been done with it.
-/

namespace Ape.Pool

open Links (Seg SameLink)
open Socket (PoolList)

/-! ## The function -/

/-- `free`: of a block that is there, by its first address.  All its nodes are gone. -/
def Memory.free (a : Nat) (m : Memory) : Option Memory := do
  let n ← m.get a
  if n.block = a then
    some { nodes := m.nodes.map fun x => x.filter fun n => n.block ≠ a, freed := m.freed ++ [a] }
  else none

/-- The first loop: the memory, `tPool` and `fPool` behind it. -/
def destroyScan : Nat → Option Nat → Option Nat → Option Nat → Memory →
    Option (Memory × Option Nat × Option Nat)
  | _, none, tPool, fPool, m => some (m, tPool, fPool)
  | 0, some _, _, _, _ => none
  | fuel + 1, some pool, tPool, fPool, m => do
    let n ← m.get pool
    if n.isAlloc then
      let first := fPool.getD pool
      match tPool with
      | none => destroyScan fuel n.next (some pool) (some first) m
      | some t =>
        let passed ← m.store first fun f => { f with next := n.next }
        let linked ← passed.store pool fun n => { n with next := some t }
        let f ← linked.get first
        destroyScan fuel f.next (some pool) (some first) linked
    else destroyScan fuel n.next tPool fPool m

/-- The second loop. -/
def freeChain : Nat → Option Nat → Memory → Option Memory
  | _, none, m => some m
  | 0, some _, _ => none
  | fuel + 1, some pool, m => do
    let n ← m.get pool
    if n.isAlloc then
      let rest ← m.free pool
      freeChain fuel n.next rest
    else some m

/-- `ape_destroy_pool`, with a bound on the rounds of each loop. -/
def destroyPool (fuel : Nat) (pool : Option Nat) (m : Memory) : Option Memory := do
  let (scanned, tPool, fPool) ← destroyScan fuel pool none none m
  let first ← fPool
  let ended ← scanned.store first fun f => { f with next := none }
  freeChain fuel tPool ended

/-! ## What stores leave alone -/

/-- A node is flagged `APE_POOL_ALLOC`. -/
def Memory.flagged (m : Memory) (a : Nat) : Bool := (m.get a).any PoolNode.isAlloc

/-- What no function changes of a node: its flags and its block. -/
def PoolNode.mark (n : PoolNode) : UInt32 × Nat := (n.flags, n.block)

/-- The nodes of two memories have the same flags and blocks. -/
def SameMarks (m m' : Memory) : Prop :=
  ∀ a, (m'.get a).map PoolNode.mark = (m.get a).map PoolNode.mark

section Marks

variable {m m' m'' : Memory} {a : Nat} {n : PoolNode}

theorem SameMarks.refl (m : Memory) : SameMarks m m := fun _ => rfl

theorem SameMarks.trans (h : SameMarks m m') (h' : SameMarks m' m'') : SameMarks m m'' :=
  fun a => (h' a).trans (h a)

/-- A store that keeps the mark of a node keeps all marks. -/
theorem SameMarks.store {f : PoolNode → PoolNode} (h : m.store a f = some m')
    (hf : ∀ n, (f n).mark = n.mark) : SameMarks m m' := by
  obtain ⟨n, hn, -⟩ := Option.map_eq_some_iff.1 h
  obtain ⟨m₁, hstore, ha, hother, -⟩ := Memory.store_spec f hn
  obtain rfl := Option.some.inj (h.symm.trans hstore)
  intro b
  by_cases hb : b = a
  · subst hb
    rw [ha, hn, Option.map_some, Option.map_some, hf]
  · rw [hother b hb]

theorem SameMarks.get (h : SameMarks m m') (hn : m.get a = some n) :
    ∃ n', m'.get a = some n' ∧ n'.flags = n.flags ∧ n'.block = n.block := by
  have ha := h a
  rw [hn] at ha
  obtain ⟨n', hn', hmark⟩ := Option.map_eq_some_iff.1 ha
  obtain ⟨hflags, hblock⟩ := Prod.mk.inj hmark
  exact ⟨n', hn', hflags, hblock⟩

theorem SameMarks.flagged (h : SameMarks m m') : m'.flagged = m.flagged := by
  funext a
  have ha := h a
  unfold Memory.flagged
  cases hn : m.get a with
  | none =>
    rw [hn] at ha
    rw [Option.map_eq_none_iff.1 ha]
  | some n =>
    obtain ⟨n', hn', hflags, -⟩ := h.get hn
    rw [hn', Option.any_some, Option.any_some, PoolNode.isAlloc, PoolNode.isAlloc, hflags]

theorem flagged_of_get (hn : m.get a = some n) : m.flagged a = n.isAlloc := by
  rw [Memory.flagged, hn, Option.any_some]

end Marks

/-! ## The first loop -/

section Scan

variable {m m' : Memory} {pool tPool : Option Nat} {f : Nat} {rest chain : List Nat} {fn : PoolNode}

/-- **The first loop behind the first block `f`.**  Along the chain from `tPool` down to `f` lie the
blocks that have been met; the link of `f` is only the way on. -/
theorem destroyScan_spec (hrest : Seg m.get PoolNode.next pool rest none)
    (hchain : Seg m.get PoolNode.next tPool chain (some f)) (hf : m.get f = some fn)
    (honce : (chain ++ f :: rest).Nodup) {fuel : Nat} (hfuel : rest.length ≤ fuel) :
    ∃ m' t', destroyScan fuel pool tPool (some f) m = some (m', t', some f) ∧
      Seg m'.get PoolNode.next t' ((rest.filter m.flagged).reverse ++ chain) (some f) ∧
      SameMarks m m' ∧ m'.freed = m.freed := by
  induction rest generalizing m pool tPool chain fuel fn with
  | nil =>
    obtain rfl : pool = none := hrest
    exact ⟨m, tPool, by cases fuel <;> rfl, hchain, .refl m, rfl⟩
  | cons a rest ih =>
    obtain ⟨rfl, n, hn, hbehind⟩ := hrest
    obtain ⟨fuel, rfl⟩ : ∃ k, fuel = k + 1 := Nat.exists_eq_add_one.2 (Nat.lt_of_lt_of_le
      (Nat.succ_pos _) hfuel)
    have hless : rest.length ≤ fuel := Nat.le_of_succ_le_succ hfuel
    obtain ⟨hchain₁, hfrest, hapart⟩ := List.nodup_append.1 honce
    obtain ⟨hfa, harest⟩ := List.nodup_cons.1 hfrest
    obtain ⟨ha, hrest₁⟩ := List.nodup_cons.1 harest
    by_cases halloc : n.isAlloc = true
    · -- the block is put before the chain
      obtain ⟨t, ht⟩ : ∃ t, tPool = some t := by
        rw [hchain.start]
        cases chain with
        | nil => exact ⟨f, rfl⟩
        | cons c chain => exact ⟨c, rfl⟩
      subst ht
      have hne : a ≠ f := by
        rintro rfl
        exact hfa (List.mem_cons_self ..)
      obtain ⟨m₁, hstore₁, hf₁, hother₁, hfreed₁⟩ :=
        Memory.store_spec (fun f => { f with next := n.next }) hf
      obtain ⟨m₂, hstore₂, ha₂, hother₂, hfreed₂⟩ :=
        Memory.store_spec (fun n => { n with next := some t }) ((hother₁ a hne).trans hn)
      have hf₂ := (hother₂ f (Ne.symm hne)).trans hf₁
      have hsame : ∀ b, b ≠ a → b ≠ f → SameLink m.get m₂.get PoolNode.next b := by
        intro b hba hbf
        exact sameLink_of_get ((hother₂ b hba).trans (hother₁ b hbf))
      have hmarks : SameMarks m m₂ :=
        (SameMarks.store hstore₁ fun _ => rfl).trans (SameMarks.store hstore₂ fun _ => rfl)
      have hbehind₂ : Seg m₂.get PoolNode.next n.next rest none := by
        apply hbehind.frame
        intro b hb
        apply hsame b
        · rintro rfl
          exact ha hb
        · rintro rfl
          exact hfa (List.mem_cons_of_mem _ hb)
      have hchain₂ : Seg m₂.get PoolNode.next (some a) (a :: chain) (some f) := by
        refine ⟨rfl, _, ha₂, hchain.frame ?_⟩
        intro b hb
        apply hsame b
        · rintro rfl
          exact hapart b hb b (List.mem_cons_of_mem _ (List.mem_cons_self ..)) rfl
        · rintro rfl
          exact hapart b hb b (List.mem_cons_self ..) rfl
      have honce₂ : ((a :: chain) ++ f :: rest).Nodup := by
        refine List.Perm.nodup ?_ honce
        rw [List.cons_append]
        exact (List.Perm.append_left chain (List.Perm.swap a f rest)).trans List.perm_middle
      obtain ⟨m', t', hrun, hseg, hmarks', hfreed'⟩ := ih hbehind₂ hchain₂ hf₂ honce₂ hless
      refine ⟨m', t', ?_, ?_, hmarks.trans hmarks', hfreed'.trans (hfreed₂.trans hfreed₁)⟩
      · simp only [destroyScan, hn, halloc, if_true, Option.getD_some, hstore₁, hstore₂, hf₂, bind,
          Option.bind_some, hrun]
      · rw [List.filter_cons_of_pos (by rw [flagged_of_get hn]; exact halloc), List.reverse_cons,
          List.append_assoc, List.singleton_append, ← hmarks.flagged]
        exact hseg
    · have halloc : n.isAlloc = false := by simpa using halloc
      obtain ⟨m', t', hrun, hseg, hmarks, hfreed⟩ := ih hbehind hchain hf
        (honce.sublist (List.Sublist.append_left
          (List.Sublist.cons_cons f (List.sublist_cons_self a rest)) chain)) hless
      refine ⟨m', t', ?_, ?_, hmarks, hfreed⟩
      · simp only [destroyScan, hn, halloc, bind, Option.bind_some]
        exact hrun
      · rw [List.filter_cons_of_neg (by rw [flagged_of_get hn, halloc]; simp)]
        exact hseg

/-- **The first loop** from the beginning. -/
theorem destroyScan_all {as : List Nat} (hlist : Seg m.get PoolNode.next pool as none)
    (hsome : ∃ a ∈ as, m.flagged a = true) {fuel : Nat} (hfuel : as.length ≤ fuel) :
    ∃ m' t' f fs, as.filter m.flagged = f :: fs ∧
      destroyScan fuel pool none none m = some (m', t', some f) ∧
      Seg m'.get PoolNode.next t' fs.reverse (some f) ∧ SameMarks m m' ∧ m'.freed = m.freed := by
  induction as generalizing pool fuel with
  | nil =>
    obtain ⟨a, ha, -⟩ := hsome
    exact absurd ha List.not_mem_nil
  | cons a rest ih =>
    have honce := hlist.nodup
    obtain ⟨rfl, n, hn, hbehind⟩ := hlist
    obtain ⟨fuel, rfl⟩ : ∃ k, fuel = k + 1 := Nat.exists_eq_add_one.2 (Nat.lt_of_lt_of_le
      (Nat.succ_pos _) hfuel)
    have hless : rest.length ≤ fuel := Nat.le_of_succ_le_succ hfuel
    by_cases halloc : n.isAlloc = true
    · have hflag : m.flagged a = true := (flagged_of_get hn).trans halloc
      have hempty : Seg m.get PoolNode.next (some a) [] (some a) := rfl
      obtain ⟨m', t', hrun, hseg, hmarks, hfreed⟩ :=
        destroyScan_spec hbehind hempty hn honce hless
      refine ⟨m', t', a, rest.filter m.flagged, List.filter_cons_of_pos hflag, ?_, ?_, hmarks, hfreed⟩
      · simp only [destroyScan, hn, halloc, if_true, Option.getD_none, bind, Option.bind_some, hrun]
      · rwa [List.append_nil] at hseg
    · have hflag : ¬ m.flagged a = true := by rwa [flagged_of_get hn]
      have hsome' : ∃ b ∈ rest, m.flagged b = true := by
        obtain ⟨b, hb, hbflag⟩ := hsome
        rcases List.mem_cons.1 hb with rfl | hb
        · exact absurd hbflag hflag
        · exact ⟨b, hb, hbflag⟩
      obtain ⟨m', t', f, fs, hfilter, hrun, hrest⟩ := ih hbehind hsome' hless
      refine ⟨m', t', f, fs, ?_, ?_, hrest⟩
      · rw [List.filter_cons_of_neg hflag, hfilter]
      · simp only [destroyScan, hn, halloc, bind, Option.bind_some]
        exact hrun

end Scan

/-! ## The second loop -/

section Free

variable {m m' : Memory} {a b : Nat} {n : PoolNode}

/-- **A block is freed** with all its nodes, and no node of another block is. -/
theorem Memory.free_spec (hn : m.get a = some n) (hblock : n.block = a) :
    ∃ m', m.free a = some m' ∧ m'.freed = m.freed ++ [a] ∧
      ∀ b, m'.get b = (m.get b).filter fun n => n.block ≠ a := by
  have hrun : m.free a = some {
      nodes := m.nodes.map fun x => x.filter fun n => n.block ≠ a, freed := m.freed ++ [a] } := by
    simp only [free, hn, bind, Option.bind_some, if_pos hblock]
  refine ⟨_, hrun, rfl, ?_⟩
  intro b
  simp only [get, List.getElem?_map]
  cases m.nodes[b]? with
  | none => rfl
  | some x => rfl

/-- **The second loop** frees the blocks along the chain. -/
theorem freeChain_spec {p : Option Nat} {cs : List Nat} (hchain : Seg m.get PoolNode.next p cs none)
    (hblock : ∀ a ∈ cs, ∀ n, m.get a = some n → n.isAlloc = true ∧ n.block = a) {fuel : Nat}
    (hfuel : cs.length ≤ fuel) :
    ∃ m', freeChain fuel p m = some m' ∧ m'.freed = m.freed ++ cs ∧
      ∀ b, m'.get b = (m.get b).filter fun n => n.block ∉ cs := by
  induction cs generalizing m p fuel with
  | nil =>
    obtain rfl : p = none := hchain
    refine ⟨m, by cases fuel <;> rfl, (List.append_nil _).symm, ?_⟩
    intro b
    cases m.get b with
    | none => rfl
    | some n => exact (Option.filter_some_pos (by simp)).symm
  | cons a cs ih =>
    have honce := hchain.nodup
    obtain ⟨rfl, n, hn, hbehind⟩ := hchain
    obtain ⟨ha, -⟩ := List.nodup_cons.1 honce
    obtain ⟨fuel, rfl⟩ : ∃ k, fuel = k + 1 := Nat.exists_eq_add_one.2 (Nat.lt_of_lt_of_le
      (Nat.succ_pos _) hfuel)
    obtain ⟨halloc, hna⟩ := hblock a (List.mem_cons_self ..) n hn
    obtain ⟨m₁, hfree, hfreed, hget⟩ := Memory.free_spec hn hna
    -- the other blocks of the chain are still there
    have hkept : ∀ b ∈ cs, m₁.get b = m.get b := by
      intro b hb
      rw [hget]
      cases hnb : m.get b with
      | none => rfl
      | some nb =>
        have hbb := (hblock b (List.mem_cons_of_mem _ hb) nb hnb).2
        refine Option.filter_some_pos (decide_eq_true ?_)
        rw [hbb]
        rintro rfl
        exact ha hb
    obtain ⟨m', hrun, hfreed', hget'⟩ := ih
      (hbehind.frame fun b hb => sameLink_of_get (hkept b hb))
      (fun b hb nb hnb => hblock b (List.mem_cons_of_mem _ hb) nb ((hkept b hb).symm.trans hnb))
      (Nat.le_of_succ_le_succ hfuel)
    refine ⟨m', ?_, ?_, ?_⟩
    · simp only [freeChain, hn, halloc, if_true, hfree, bind, Option.bind_some, hrun]
    · rw [hfreed', hfreed, List.append_assoc, List.singleton_append]
    · intro b
      rw [hget', hget, Option.filter_filter]
      congr 1
      funext n
      simp [not_or]

end Free

/-! ## The whole -/

section Destroy

variable {m m' : Memory} {head : Option Nat} {as : List Nat} {fuel : Nat}

/-- What is freed, and which nodes are gone. -/
theorem destroyPool_spec (hlist : Seg m.get PoolNode.next head as none)
    (hsome : ∃ a ∈ as, m.flagged a = true)
    (hblock : ∀ a ∈ as, ∀ n, m.get a = some n → n.isAlloc = true → n.block = a)
    (hfuel : as.length ≤ fuel) :
    ∃ m', destroyPool fuel head m = some m' ∧
      m'.freed = m.freed ++ (as.filter m.flagged).reverse ∧
      ∀ a n, m.get a = some n → n.block ∈ as.filter m.flagged → m'.get a = none := by
  obtain ⟨m₁, t, f, fs, hfilter, hscan, hseg, hmarks, hfreed⟩ := destroyScan_all hlist hsome hfuel
  have honce : (f :: fs).Nodup := by
    rw [← hfilter]
    exact hlist.nodup.filter _
  obtain ⟨hfresh, -⟩ := List.nodup_cons.1 honce
  have hlive : ∀ a ∈ as.filter m.flagged, ∃ n, m.get a = some n := fun a ha =>
    hlist.live (List.mem_of_mem_filter ha)
  -- the chain ends behind the first block
  obtain ⟨fn, hfn⟩ := hlive f (by rw [hfilter]; exact List.mem_cons_self ..)
  obtain ⟨fn₁, hfn₁, -⟩ := hmarks.get hfn
  obtain ⟨m₂, hstore, hf₂, hother, hfreed₂⟩ := Memory.store_spec (fun f => { f with next := none }) hfn₁
  have hmarks₂ : SameMarks m m₂ := hmarks.trans (SameMarks.store hstore fun _ => rfl)
  have hchain : Seg m₂.get PoolNode.next t (fs.reverse ++ [f]) none := by
    have hwhole : Seg m₁.get PoolNode.next t (fs.reverse ++ [f]) fn₁.next :=
      Links.seg_append.2 ⟨some f, hseg, rfl, fn₁, hfn₁, rfl⟩
    apply hwhole.relink hf₂ rfl
    intro a ha
    refine sameLink_of_get (hother a ?_)
    rintro rfl
    exact hfresh (List.mem_reverse.1 ha)
  have hcs : fs.reverse ++ [f] = (as.filter m.flagged).reverse := by
    rw [hfilter, List.reverse_cons]
  rw [hcs] at hchain
  have hbegin : ∀ a ∈ (as.filter m.flagged).reverse, ∀ n, m₂.get a = some n →
      n.isAlloc = true ∧ n.block = a := by
    intro a ha n₂ hn₂
    obtain ⟨haas, hflag⟩ := List.mem_filter.1 (List.mem_reverse.1 ha)
    obtain ⟨n, hn⟩ := hlist.live haas
    obtain ⟨n₂', hn₂', hflags, hblock₂⟩ := hmarks₂.get hn
    obtain rfl := Option.some.inj (hn₂.symm.trans hn₂')
    have halloc : n.isAlloc = true := (flagged_of_get hn).symm.trans hflag
    refine ⟨?_, hblock₂.trans (hblock a haas n hn halloc)⟩
    rw [PoolNode.isAlloc, hflags]
    exact halloc
  have hlength : (as.filter m.flagged).reverse.length ≤ fuel := by
    rw [List.length_reverse]
    exact (List.length_filter_le _ _).trans hfuel
  obtain ⟨m', hfree, hfreed', hget⟩ := freeChain_spec hchain hbegin hlength
  refine ⟨m', ?_, ?_, ?_⟩
  · simp only [destroyPool, hscan, hstore, hfree, bind, Option.bind_some]
  · rw [hfreed', hfreed₂, hfreed]
  · intro a n hn hmem
    obtain ⟨n₂, hn₂, -, hblock₂⟩ := hmarks₂.get hn
    rw [hget, hn₂]
    refine Option.filter_some_neg (decide_eq_false (not_not.2 ?_))
    rw [hblock₂]
    exact List.mem_reverse.2 hmem

/-- **Every block is freed once.**  From a chain of nodes that ends, in whatever order they are, with
one that is flagged at least, and where a flagged node begins its block, `ape_destroy_pool` returns:
it has read no node of a block that was freed before, and has freed the flagged nodes, each once. -/
theorem destroyPool_frees (hlist : Seg m.get PoolNode.next head as none)
    (hsome : ∃ a ∈ as, m.flagged a = true)
    (hblock : ∀ a ∈ as, ∀ n, m.get a = some n → n.isAlloc = true → n.block = a)
    (hfuel : as.length ≤ fuel) :
    ∃ m' freed, destroyPool fuel head m = some m' ∧ m'.freed = m.freed ++ freed ∧ freed.Nodup ∧
      ∀ a, a ∈ freed ↔ a ∈ as ∧ m.flagged a = true := by
  obtain ⟨m', hrun, hfreed, -⟩ := destroyPool_spec hlist hsome hblock hfuel
  refine ⟨m', _, hrun, hfreed, ?_, ?_⟩
  · exact List.nodup_reverse.2 (hlist.nodup.filter _)
  · intro a
    rw [List.mem_reverse, List.mem_filter]

end Destroy

/-- Two blocks of two nodes, in an order that rotations may leave. -/
def mixed : Memory where
  nodes := [some { data := none, next := none, flags := 1, block := 0 },
    some { data := none, next := some 2, flags := 0, block := 0 },
    some { data := none, next := some 3, flags := 1, block := 2 },
    some { data := none, next := some 0, flags := 0, block := 2 }]
  freed := []

theorem destroyPool_mixed :
    ∃ m' freed, destroyPool 4 (some 1) mixed = some m' ∧ m'.freed = mixed.freed ++ freed ∧
      freed.Nodup ∧ ∀ a, a ∈ freed ↔ a ∈ [1, 2, 3, 0] ∧ mixed.flagged a = true := by
  have hlist : Seg mixed.get PoolNode.next (some 1) [1, 2, 3, 0] none :=
    ⟨rfl, _, rfl, rfl, _, rfl, rfl, _, rfl, rfl, _, rfl, rfl⟩
  have hblock : ∀ a ∈ [1, 2, 3, 0], ∀ n, mixed.get a = some n → n.isAlloc = true → n.block = a := by
    decide
  exact destroyPool_frees hlist ⟨0, by decide, by decide⟩ hblock le_rfl

/-! ## A list that has been used -/

section Used

variable {s s' : ApePoolList} {p : PoolList Nat} {m : Memory} {n : Nat}

/-- Every node of the list lies in a block of the list, and the flagged ones begin them. -/
structure Blocked (s : ApePoolList) : Prop where
  own : ∀ a ∈ s.allocated, ∀ node, s.mem.get a = some node → node.isAlloc = true → node.block = a
  first : ∀ a ∈ s.allocated, ∀ node, s.mem.get a = some node →
    node.block ∈ s.allocated ∧ s.mem.flagged node.block = true

/-- The blocks of a list are known behind a call that only splices nodes. -/
theorem Blocked.congr (h : Blocked s) (hmarks : SameMarks s.mem s'.mem)
    (hallocated : s'.allocated = s.allocated) : Blocked s' := by
  have hback : ∀ a node', s'.mem.get a = some node' → ∃ node, s.mem.get a = some node ∧
      node'.isAlloc = node.isAlloc ∧ node'.block = node.block := by
    intro a node' hnode'
    cases hnode : s.mem.get a with
    | none =>
      have ha := hmarks a
      rw [hnode, hnode'] at ha
      exact absurd ha (by simp)
    | some node =>
      obtain ⟨node₂, hnode₂, hflags, hblock⟩ := hmarks.get hnode
      obtain rfl := Option.some.inj (hnode'.symm.trans hnode₂)
      refine ⟨node, rfl, ?_, hblock⟩
      rw [PoolNode.isAlloc, PoolNode.isAlloc, hflags]
  constructor
  · intro a ha node' hnode' halloc
    obtain ⟨node, hnode, hsame, hblock⟩ := hback a node' hnode'
    rw [hallocated] at ha
    rw [hblock]
    exact h.own a ha node hnode (hsame.symm.trans halloc)
  · intro a ha node' hnode'
    obtain ⟨node, hnode, -, hblock⟩ := hback a node' hnode'
    rw [hallocated] at ha ⊢
    rw [hblock, hmarks.flagged]
    exact h.first a ha node hnode

/-- Only the first node of a block is flagged. -/
theorem isAlloc_blockNode (pool n i : Nat) : (blockNode pool n i).isAlloc = true ↔ i = 0 := by
  by_cases hi : i = 0
  · have hflags : (blockNode pool n i).flags = 1 := if_pos hi
    rw [PoolNode.isAlloc, hflags]
    exact iff_of_true (by decide) hi
  · have hflags : (blockNode pool n i).flags = 0 := if_neg hi
    rw [PoolNode.isAlloc, hflags]
    exact iff_of_false (by decide) hi

/-- The first node of a new block is flagged, and all of its nodes are of that block. -/
theorem blocked_block {pool a : Nat} {node : PoolNode}
    (h : ∀ i < n, m.get (pool + i) = some (blockNode pool n i)) (ha : a ∈ List.range' pool n)
    (hnode : m.get a = some node) :
    (node.isAlloc = true → node.block = a) ∧ node.block ∈ List.range' pool n ∧
      m.flagged node.block = true := by
  obtain ⟨hle, hlt⟩ := List.mem_range'_1.1 ha
  obtain ⟨i, rfl⟩ := Nat.exists_eq_add_of_le hle
  obtain rfl := Option.some.inj (hnode.symm.trans (h i (by omega)))
  have hfirst := h 0 (by omega)
  have hpool : (blockNode pool n i).block = pool := rfl
  rw [hpool]
  refine ⟨?_, List.mem_range'_1.2 ⟨le_rfl, by omega⟩, ?_⟩
  · intro halloc
    rw [(isAlloc_blockNode pool n i).1 halloc]
    rfl
  · exact (flagged_of_get hfirst).trans ((isAlloc_blockNode pool n 0).2 rfl)

theorem blocked_init (h : initPoolList n m = some s) : Blocked s := by
  obtain ⟨⟨mem, pool⟩, hnew, h⟩ := Option.bind_eq_some_iff.1 h
  obtain rfl := Option.some.inj h
  obtain ⟨rfl, -, hblock, -⟩ := newPool_spec hnew
  constructor
  · intro a ha node hnode
    exact (blocked_block hblock ha hnode).1
  · intro a ha node hnode
    exact (blocked_block hblock ha hnode).2

/-- Taking the head to the queue keeps all marks. -/
theorem sameMarks_headToQueue (h : headToQueue s = some s') :
    SameMarks s.mem s'.mem ∧ s'.allocated = s.allocated := by
  obtain ⟨head, -, h⟩ := Option.bind_eq_some_iff.1 h
  obtain ⟨hn, -, h⟩ := Option.bind_eq_some_iff.1 h
  obtain ⟨queue, -, h⟩ := Option.bind_eq_some_iff.1 h
  obtain ⟨m₁, hstore₁, h⟩ := Option.bind_eq_some_iff.1 h
  obtain ⟨m₂, hstore₂, h⟩ := Option.bind_eq_some_iff.1 h
  obtain rfl := Option.some.inj h
  exact ⟨(SameMarks.store hstore₁ fun _ => rfl).trans (SameMarks.store hstore₂ fun _ => rfl), rfl⟩

theorem sameMarks_headToCurrent (h : headToCurrent s = some s') :
    SameMarks s.mem s'.mem ∧ s'.allocated = s.allocated := by
  unfold headToCurrent at h
  split at h
  · obtain rfl := Option.some.inj h
    exact ⟨.refl _, rfl⟩
  · obtain ⟨head, -, h⟩ := Option.bind_eq_some_iff.1 h
    obtain ⟨hn, -, h⟩ := Option.bind_eq_some_iff.1 h
    obtain ⟨current, -, h⟩ := Option.bind_eq_some_iff.1 h
    obtain ⟨c, -, h⟩ := Option.bind_eq_some_iff.1 h
    obtain ⟨m₁, hstore₁, h⟩ := Option.bind_eq_some_iff.1 h
    obtain ⟨m₂, hstore₂, h⟩ := Option.bind_eq_some_iff.1 h
    obtain rfl := Option.some.inj h
    exact ⟨(SameMarks.store hstore₁ fun _ => rfl).trans (SameMarks.store hstore₂ fun _ => rfl), rfl⟩

/-- A new block, behind the nodes that there are. -/
theorem Blocked.growPool (h : Blocked s) (hold : ∀ a ∈ s.allocated, a < s.mem.nodes.length)
    (hgrow : growPool n s = some s') : Blocked s' := by
  obtain ⟨⟨m₁, pool⟩, hnew, hgrow⟩ := Option.bind_eq_some_iff.1 hgrow
  obtain ⟨queue, -, hgrow⟩ := Option.bind_eq_some_iff.1 hgrow
  obtain ⟨m₂, hstore, hgrow⟩ := Option.bind_eq_some_iff.1 hgrow
  obtain rfl := Option.some.inj hgrow
  obtain ⟨rfl, hsame, hblock, -⟩ := newPool_spec hnew
  -- before the store to `queue`
  have hgrown : Blocked { s with
      mem := m₁, allocated := s.allocated ++ List.range' s.mem.nodes.length n } := by
    constructor
    · intro a ha node hnode
      rcases List.mem_append.1 ha with ha | ha
      · exact h.own a ha node ((hsame a (hold a ha)).symm.trans hnode)
      · exact (blocked_block hblock ha hnode).1
    · intro a ha node hnode
      rcases List.mem_append.1 ha with ha | ha
      · obtain ⟨hmem, hflag⟩ := h.first a ha node ((hsame a (hold a ha)).symm.trans hnode)
        refine ⟨List.mem_append_left _ hmem, ?_⟩
        rw [Memory.flagged, hsame _ (hold _ hmem)]
        exact hflag
      · obtain ⟨-, hmem, hflag⟩ := blocked_block hblock ha hnode
        exact ⟨List.mem_append_right _ hmem, hflag⟩
  exact hgrown.congr (SameMarks.store hstore fun _ => rfl) rfl

/-- **One operation** leaves the blocks as they are, or adds one. -/
theorem Blocked.exec (h : Blocked s) (hp : Represents s p) {op : Op} (hexec : op.exec s = some s') :
    Blocked s' := by
  cases op with
  | headToQueue =>
    obtain ⟨hmarks, hallocated⟩ := sameMarks_headToQueue hexec
    exact h.congr hmarks hallocated
  | headToCurrent =>
    obtain ⟨hmarks, hallocated⟩ := sameMarks_headToCurrent hexec
    exact h.congr hmarks hallocated
  | growPool n =>
    apply h.growPool _ hexec
    intro a ha
    obtain ⟨node, hnode⟩ := hp.chain.live (hp.all.mem_iff.2 ha)
    exact Memory.lt_of_get hnode
  | setCurrent node =>
    obtain rfl := Option.some.inj hexec
    exact h.congr (.refl _) rfl

/-- **Nothing is left** of a list, whatever has been done with it: `ape_destroy_pool` returns, and of
all nodes that have been allocated for the list none is there. -/
theorem destroyPool_run (hn : 2 ≤ n) (hinit : initPoolList n m = some s) {ops : List Op}
    (hops : AllowedRun ops s) :
    ∃ s' m', run ops s = some s' ∧ destroyPool s'.allocated.length s'.head s'.mem = some m' ∧
      ∀ a ∈ s'.allocated, m'.get a = none := by
  have hexec : ∀ s (op : Op), (∃ p, Represents s p) ∧ Blocked s → op.Allowed s →
      ∃ s', op.exec s = some s' ∧ (∃ p, Represents s' p) ∧ Blocked s' := by
    rintro s op ⟨⟨p, hp⟩, hblocked⟩ hop
    obtain ⟨s', p', hrun, hp'⟩ := hp.exec hop
    exact ⟨s', hrun, ⟨p', hp'⟩, hblocked.exec hp hrun⟩
  obtain ⟨s', hrun, ⟨p, hp⟩, hblocked⟩ :=
    run_keeps hexec ⟨⟨_, represents_init hn hinit⟩, blocked_init hinit⟩ hops
  have hmem : ∀ a, a ∈ p.nodes ↔ a ∈ s'.allocated := fun a => hp.all.mem_iff
  have hlive : ∀ a ∈ s'.allocated, ∃ node, s'.mem.get a = some node := fun a ha =>
    hp.chain.live ((hmem a).2 ha)
  have hsome : ∃ a ∈ p.nodes, s'.mem.flagged a = true := by
    obtain ⟨node, hnode⟩ := hp.chain.live p.current_mem
    obtain ⟨hfirst, hflag⟩ := hblocked.first _ ((hmem _).1 p.current_mem) node hnode
    exact ⟨node.block, (hmem _).2 hfirst, hflag⟩
  obtain ⟨m', hdestroy, -, hgone⟩ := destroyPool_spec hp.chain hsome
    (fun a ha => hblocked.own a ((hmem a).1 ha)) hp.all.length_eq.le
  refine ⟨s', m', hrun, hdestroy, ?_⟩
  intro a ha
  obtain ⟨node, hnode⟩ := hlive a ha
  obtain ⟨hfirst, hflag⟩ := hblocked.first a ha node hnode
  exact hgone a node hnode (List.mem_filter.2 ⟨(hmem _).2 hfirst, hflag⟩)

end Used

end Ape.Pool
