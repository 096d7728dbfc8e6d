import ApeServer.Table.Reuse

/-!
# The end of an array

`ape_array_destroy` walks over the slots and stops where a block begins, to clean and to free the
block before it.  The cleaner is handed the block, that is its first slot, and no other slot of it.

* `Release` — what is released, by the position of the slot it belongs to;
* `arrayCleanCb`, `destroyPoolOrdered`, `ApeArray.destroy` — the functions of the source;
* `destroyPoolOrdered_eq` — the delayed pointer: what is released, block by block;
* `blocks_run` — where the blocks of an array begin, behind any calls;
* `releasesAll_iff` — **everything is released** just when the slots in use begin their blocks.
-/

namespace Ape.Table

variable {α : Type*}

/-! ## The functions -/

/-- `buffer_destroy` of the key or the value of a slot, `free` of the block a slot begins, and `free`
of the list. -/
inductive Release where
  | key (i : Nat)
  | value (i : Nat)
  | block (i : Nat)
  | list
  deriving DecidableEq, Repr

/-- `ape_array_clean_cb` of the slot at a position. -/
def arrayCleanCb (i : Nat) (s : PoolSlot α) : List Release :=
  if s.usedSlot then .key i :: if s.valBuf then [.value i] else [] else []

/-- `cleaner(tPool); free(tPool)`. -/
def releaseBlock (tPool : Nat × PoolSlot α) : List Release :=
  arrayCleanCb tPool.1 tPool.2 ++ [.block tPool.1]

/-- The loop of `ape_destroy_pool_ordered` over the slots from position `i` on, and what it does
behind the loop. -/
def destroyPoolOrdered (i : Nat) (tPool : Option (Nat × PoolSlot α)) :
    List (PoolSlot α) → List Release
  | [] => tPool.elim [] releaseBlock
  | s :: pool =>
    if s.alloc then tPool.elim [] releaseBlock ++ destroyPoolOrdered (i + 1) (some (i, s)) pool
    else destroyPoolOrdered (i + 1) tPool pool

/-- `ape_array_destroy`. -/
def ApeArray.destroy (a : ApeArray α) : List Release :=
  destroyPoolOrdered 0 none a.slots ++ [.list]

/-! ## The promise -/

/-- Whether the slot at a position is in use and marked `APE_ARRAY_VAL_BUF`. -/
def ApeArray.valueAt (a : ApeArray α) (i : Nat) : Bool :=
  (a.slots[i]?).any fun s => s.usedSlot && s.valBuf

/-- The positions at which a block begins, in an array that was made with `n` slots. -/
def BeginsBlock (n i : Nat) : Prop := i = 0 ∨ n ≤ i ∧ 4 ∣ i - n

instance (n i : Nat) : Decidable (BeginsBlock n i) :=
  inferInstanceAs (Decidable (i = 0 ∨ n ≤ i ∧ 4 ∣ i - n))

/-- What is promised of the end of an array that was made with `n` slots. -/
structure ReleasesAll (n : Nat) (a : ApeArray α) : Prop where
  keys : ∀ i, a.destroy.count (.key i) = if a.usedAt i then 1 else 0
  values : ∀ i, a.destroy.count (.value i) = if a.valueAt i then 1 else 0
  blocks : ∀ i, a.destroy.count (.block i) = if i < a.slots.length ∧ BeginsBlock n i then 1 else 0
  list : a.destroy.count .list = 1

/-! ## The delayed pointer -/

/-- What is released at a slot. -/
def releasedAt (e : PoolSlot α × Nat) : List Release :=
  if e.1.alloc then releaseBlock (e.2, e.1) else []

/-- **The loop releases block by block**: first the one `tPool` points to. -/
theorem destroyPoolOrdered_eq (pool : List (PoolSlot α)) (i : Nat)
    (tPool : Option (Nat × PoolSlot α)) : destroyPoolOrdered i tPool pool =
      tPool.elim [] releaseBlock ++ (pool.zipIdx i).flatMap releasedAt := by
  induction pool generalizing i tPool with
  | nil => exact (List.append_nil _).symm
  | cons s pool ih =>
    rw [List.zipIdx_cons, List.flatMap_cons]
    unfold destroyPoolOrdered releasedAt
    split
    · rw [ih]
      rfl
    · exact ih (i + 1) tPool

/-- Events that belong to one position each, counted over a list. -/
theorem count_flatMap_zipIdx {β ε : Type*} [BEq ε] {f : β × Nat → List ε} {e : ε} {j : Nat}
    {p : β → Bool} (hf : ∀ b i, (f (b, i)).count e = if i = j ∧ p b = true then 1 else 0)
    (l : List β) (i : Nat) :
    ((l.zipIdx i).flatMap f).count e = if i ≤ j ∧ (l[j - i]?).any p = true then 1 else 0 := by
  induction l generalizing i with
  | nil => simp
  | cons b l ih =>
    rw [List.zipIdx_cons, List.flatMap_cons, List.count_append, hf, ih]
    rcases Nat.lt_trichotomy i j with hlt | rfl | hgt
    · have hsub : j - i = j - (i + 1) + 1 := by omega
      rw [if_neg (fun h => Nat.ne_of_lt hlt h.1), hsub, List.getElem?_cons_succ, Nat.zero_add]
      simp only [Nat.le_of_lt hlt, Nat.succ_le_of_lt hlt, true_and]
    · simp
    · rw [if_neg (by omega), if_neg (by omega), if_neg (by omega)]

section Count

variable (a : ApeArray α) (i : Nat)

/-- What the end of an array releases of one kind, at one position. -/
theorem count_destroy {e : Release} {p : PoolSlot α → Bool} (hlist : e ≠ .list)
    (hf : ∀ s j, (releasedAt (s, j)).count e = if j = i ∧ p s = true then 1 else 0) :
    a.destroy.count e = if (a.slots[i]?).any p = true then 1 else 0 := by
  unfold ApeArray.destroy
  rw [List.count_append, destroyPoolOrdered_eq, Option.elim_none, List.nil_append,
    count_flatMap_zipIdx hf, List.count_eq_zero.2 (by simpa using hlist), Nat.add_zero, Nat.sub_zero]
  simp only [Nat.zero_le, true_and]

/-- **Keys** are released at the beginning of a block only. -/
theorem count_key : a.destroy.count (.key i) =
    if (a.slots[i]?).any (fun s => s.alloc && s.usedSlot) = true then 1 else 0 := by
  refine count_destroy a i (by simp) fun s j => ?_
  unfold releasedAt releaseBlock arrayCleanCb
  cases s.alloc <;> cases s.usedSlot <;> cases s.valBuf <;> simp [List.count_cons]

/-- **Values** are released at the beginning of a block only. -/
theorem count_value : a.destroy.count (.value i) =
    if (a.slots[i]?).any (fun s => s.alloc && (s.usedSlot && s.valBuf)) = true then 1 else 0 := by
  refine count_destroy a i (by simp) fun s j => ?_
  unfold releasedAt releaseBlock arrayCleanCb
  cases s.alloc <;> cases s.usedSlot <;> cases s.valBuf <;> simp [List.count_cons]

/-- **A block** is freed once, at its first slot. -/
theorem count_block : a.destroy.count (.block i) =
    if (a.slots[i]?).any (·.alloc) = true then 1 else 0 := by
  refine count_destroy a i (by simp) fun s j => ?_
  unfold releasedAt releaseBlock arrayCleanCb
  cases s.alloc <;> cases s.usedSlot <;> cases s.valBuf <;> simp [List.count_cons]

/-- **The list** is freed, once. -/
theorem count_list : a.destroy.count .list = 1 := by
  unfold ApeArray.destroy
  rw [List.count_append, destroyPoolOrdered_eq, Option.elim_none, List.nil_append,
    List.count_eq_zero.2]
  · rfl
  · intro hmem
    obtain ⟨⟨s, j⟩, -, hin⟩ := List.mem_flatMap.1 hmem
    unfold releasedAt releaseBlock arrayCleanCb at hin
    revert hin
    cases s.alloc <;> cases s.usedSlot <;> cases s.valBuf <;> simp

end Count

/-! ## Where the blocks begin -/

/-- `APE_POOL_ALLOC` is on the slots that begin a block. -/
structure Blocks (n : Nat) (slots : List (PoolSlot α)) : Prop where
  length : ∃ g, slots.length = n + 4 * g
  alloc : ∀ (i : Nat) (s : PoolSlot α), slots[i]? = some s → (s.alloc = true ↔ BeginsBlock n i)

/-- Of the slots of a new block the first one alone is flagged. -/
theorem newPool_getElem? {n i : Nat} {s : PoolSlot α} (hs : (newPool n)[i]? = some s) :
    i < n ∧ (s.alloc = true ↔ i = 0) := by
  unfold newPool at hs
  rw [List.getElem?_map] at hs
  obtain ⟨j, hj, rfl⟩ := Option.map_eq_some_iff.1 hs
  obtain ⟨hlt, rfl⟩ := List.getElem?_eq_some_iff.1 hj
  rw [List.length_range] at hlt
  rw [List.getElem_range]
  exact ⟨hlt, decide_eq_true_iff⟩

theorem length_newPool (n : Nat) : (newPool n : List (PoolSlot α)).length = n := by
  unfold newPool
  rw [List.length_map, List.length_range]

theorem blocks_newPool (n : Nat) : Blocks n (newPool n : List (PoolSlot α)) := by
  refine ⟨⟨0, length_newPool n⟩, fun i s hs => ?_⟩
  obtain ⟨hlt, halloc⟩ := newPool_getElem? hs
  rw [halloc]
  refine ⟨.inl, fun h => h.elim id fun h => ?_⟩
  omega

section Steps

variable {n : Nat} {a : ApeArray α}

/-- The slots stay in blocks when one more block is put behind them. -/
theorem Blocks.grow (h : Blocks n a.slots) : Blocks n a.grow.1.slots := by
  obtain ⟨g, hg⟩ := h.length
  show Blocks n (a.slots ++ newPool 4)
  refine ⟨⟨g + 1, ?_⟩, fun i s hs => ?_⟩
  · rw [List.length_append, length_newPool, hg]
    omega
  · by_cases hi : i < a.slots.length
    · rw [List.getElem?_append_left hi] at hs
      exact h.alloc i s hs
    · rw [List.getElem?_append_right (Nat.le_of_not_lt hi)] at hs
      obtain ⟨hlt, halloc⟩ := newPool_getElem? hs
      rw [halloc]
      unfold BeginsBlock
      omega

/-- Stores to a slot leave the flag alone. -/
theorem Blocks.updateAt (h : Blocks n a.slots) (f : ApeArrayItem α → ApeArrayItem α) (i : Nat) :
    Blocks n (a.updateAt i f).slots := by
  refine ⟨by rw [length_updateAt]; exact h.length, fun j s hs => ?_⟩
  rw [getElem?_updateAt] at hs
  obtain ⟨t, ht, rfl⟩ := Option.map_eq_some_iff.1 hs
  have hsame : (if i = j then t.update f else t).alloc = t.alloc := by
    split <;> rfl
  rw [hsame]
  exact h.alloc j t ht

theorem Blocks.delete (h : Blocks n a.slots) (key : List UInt8) :
    Blocks n (a.delete key).slots := by
  unfold ApeArray.delete
  cases a.lookupItem key with
  | none => exact h
  | some i => exact h.updateAt .clear i

theorem Blocks.nextSlot (h : Blocks n a.slots) : Blocks n a.nextSlot.1.slots := by
  unfold ApeArray.nextSlot
  split
  · exact h.grow
  · split
    · exact h.grow
    · exact h

theorem Blocks.addWith (h : Blocks n a.slots) (key : List UInt8)
    (f : ApeArrayItem α → ApeArrayItem α) : Blocks n (a.addWith key f).slots := by
  have htaken := ((h.delete key).nextSlot.updateAt (.take key) ((a.delete key).nextSlot).2)
  exact Blocks.updateAt (a := (a.addS key).1) htaken f _

/-- **One call** leaves blocks as they are, or adds one. -/
theorem Blocks.exec (h : Blocks n a.slots) (op : ArrayOp α) : Blocks n (op.exec a).slots := by
  cases op with
  | addB key v => exact h.addWith key (.setBuf v)
  | addPtr key v => exact h.addWith key fun item => { item with buf := some v }
  | delete key => exact h.delete key

/-- **Where the blocks begin** behind any calls. -/
theorem blocks_run (n : Nat) (ops : List (ArrayOp α)) : Blocks n (ApeArray.run n ops).slots := by
  induction ops using List.reverseRecOn with
  | nil => exact blocks_newPool n
  | append_singleton ops op ih =>
    have hrun : ApeArray.run n (ops ++ [op]) = op.exec (.run n ops) := List.foldl_append ..
    rw [hrun]
    exact ih.exec op

/-- Slots in use that begin their blocks. -/
theorem any_alloc (h : Blocks n a.slots) (hbegin : ∀ i, a.usedAt i = true → BeginsBlock n i)
    (p : PoolSlot α → Bool) (hp : ∀ s, p s = true → s.usedSlot = true) (i : Nat) :
    (a.slots[i]?).any (fun s => s.alloc && p s) = (a.slots[i]?).any p := by
  cases hs : a.slots[i]? with
  | none => rfl
  | some s =>
    rw [Option.any_some, Option.any_some]
    cases hps : p s with
    | false => exact Bool.and_false _
    | true =>
      have hused : a.usedAt i = true := by
        unfold ApeArray.usedAt
        rw [hs, Option.any_some, hp s hps]
      rw [Bool.and_true]
      exact (h.alloc i s hs).2 (hbegin i hused)

end Steps

/-- **Everything is released** just when the slots in use begin their blocks. -/
theorem releasesAll_iff (n : Nat) (ops : List (ArrayOp α)) :
    ReleasesAll (n + 1) (.run (n + 1) ops : ApeArray α) ↔
      ∀ i, (ApeArray.run (n + 1) ops).usedAt i = true → BeginsBlock (n + 1) i := by
  have hblocks := blocks_run (n + 1) ops
  generalize ApeArray.run (n + 1) ops = a at hblocks ⊢
  constructor
  · intro h i hused
    have hcount := h.keys i
    rw [count_key, if_pos hused] at hcount
    by_contra hbegin
    rw [if_neg] at hcount
    · exact absurd hcount (by decide)
    · cases hs : a.slots[i]? with
      | none => simp
      | some s =>
        have halloc : s.alloc ≠ true := fun halloc => hbegin ((hblocks.alloc i s hs).1 halloc)
        simp [halloc]
  · intro h
    refine ⟨fun i => ?_, fun i => ?_, fun i => ?_, count_list a⟩
    · rw [count_key, any_alloc hblocks h (·.usedSlot) (fun _ => id)]
      rfl
    · rw [count_value, any_alloc hblocks h (fun s => s.usedSlot && s.valBuf)]
      · rfl
      · intro s hs
        exact (Bool.and_eq_true_iff.1 hs).1
    · rw [count_block]
      cases hs : a.slots[i]? with
      | none =>
        have hlen := List.getElem?_eq_none_iff.1 hs
        simp [Nat.not_lt.2 hlen]
      | some s =>
        have hlen := (List.getElem?_eq_some_iff.1 hs).1
        simp [hlen, hblocks.alloc i s hs]

/-- **Two keys in one block**: the second is not released. -/
theorem releasesAll_fails :
    ¬ ∀ (n : Nat) (ops : List (ArrayOp Nat)), ReleasesAll (n + 1) (.run (n + 1) ops) := by
  intro hclaim
  have hkeys := (hclaim 7 [.addB [97] 1, .addB [98] 2]).keys 1
  exact absurd hkeys (by decide)

end Ape.Table
