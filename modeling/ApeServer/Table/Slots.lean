import ApeServer.Lib.Assoc
import ApeServer.Lib.CString

/-!
# The arrays of `ape_array.c`

An `ape_array` is a pool list whose nodes are slots for a key and a value, with `current` on the
slot to be taken next.  No slot ever changes its place, so a slot is known by its position.  The
length of a key that is added is passed on as an `int`.

* `PoolSlot`, `ApeArray` — the slots, with the flag of the block they begin;
* `new`, `lookupItem`, `lookup`, `delete`, `addS`, `addB`, `addPtr` — the functions of the source;
* `Packed` — the slots in use come first, and `current` stands behind them;
* `packed_addB`, `packed_addAll` — **`ape_array_add_b` replaces a value in place**;
* `lookup_packed` — what `ape_array_lookup` finds.
-/

namespace Ape.Table

open CString Assoc

variable {α : Type*}

/-- `ape_array_item_t`.  A pointer that is not set, or to freed memory, is `none`. -/
structure ApeArrayItem (α : Type*) where
  usedSlot : Bool
  valBuf : Bool
  key : Option (List UInt8)
  buf : Option α
  deriving DecidableEq, Repr

/-- A slot, with `APE_POOL_ALLOC` on the first of a block. -/
structure PoolSlot (α : Type*) extends ApeArrayItem α where
  alloc : Bool
  deriving DecidableEq, Repr

/-- `ape_array_t`: the slots from `head` to `queue`, and where `current` is. -/
structure ApeArray (α : Type*) where
  slots : List (PoolSlot α)
  current : Option Nat
  deriving DecidableEq, Repr

namespace ApeArrayItem

/-- A slot of a new pool. -/
def fresh : ApeArrayItem α := ⟨false, false, none, none⟩

/-- The key and the value that `APE_A_FOREACH` shows. -/
def shown (item : ApeArrayItem α) : Option (List UInt8 × α) :=
  if item.usedSlot then item.key.bind fun k => item.buf.map fun v => (k, v) else none

/-- What `ape_array_delete` does to a slot. -/
def clear (item : ApeArrayItem α) : ApeArrayItem α :=
  if item.valBuf then ⟨false, false, none, none⟩ else { item with usedSlot := false, key := none }

/-- `slot->pool.flags |= APE_ARRAY_USED_SLOT; slot->key = key`. -/
def take (key : List UInt8) (item : ApeArrayItem α) : ApeArrayItem α :=
  { item with usedSlot := true, key := some key }

/-- `slot->pool.flags |= APE_ARRAY_VAL_BUF; slot->pool.ptr.buf = value`. -/
def setBuf (value : α) (item : ApeArrayItem α) : ApeArrayItem α :=
  { item with valBuf := true, buf := some value }

end ApeArrayItem

/-- What a function does to the item of a slot. -/
def PoolSlot.update (f : ApeArrayItem α → ApeArrayItem α) (s : PoolSlot α) : PoolSlot α :=
  { s with toApeArrayItem := f s.toApeArrayItem }

/-- The slots of `ape_new_pool`. -/
def newPool (n : Nat) : List (PoolSlot α) := (List.range n).map fun i => ⟨.fresh, i = 0⟩

/-- A length that is passed as an `int` and compared with a `size_t`. -/
def asSize (n : Nat) : Nat :=
  if n % 2 ^ 32 < 2 ^ 31 then n % 2 ^ 32 else n % 2 ^ 32 + (2 ^ 64 - 2 ^ 32)

theorem asSize_of_lt {n : Nat} (h : n < 2 ^ 31) : asSize n = n := by
  unfold asSize
  rw [Nat.mod_eq_of_lt (by omega), if_pos h]

namespace ApeArray

/-- `ape_array_new`. -/
def new (n : Nat) : ApeArray α := ⟨newPool n, some 0⟩

/-- Whether the slot at a position is in use. -/
def usedAt (a : ApeArray α) (i : Nat) : Bool := (a.slots[i]?).any (·.usedSlot)

/-- `ape_array_lookup_item`: keys are compared byte for byte. -/
def lookupItem (a : ApeArray α) (key : List UInt8) : Option Nat :=
  let klen := asSize key.length
  a.slots.findIdx? fun s => s.shown.any fun e => e.1.length = klen ∧ e.1 = key.take klen

/-- `ape_array_lookup` of a key whose length the caller has as an `int`: keys are compared ignoring
case. -/
def lookup (a : ApeArray α) (key : List UInt8) : Option α :=
  a.slots.findSome? fun s => s.shown.bind fun e =>
    if e.1.length = key.length ∧ strncasecmp key.length key e.1 = true then some e.2 else none

/-- What a store to the item of a slot leaves. -/
def updateAt (i : Nat) (f : ApeArrayItem α → ApeArrayItem α) (a : ApeArray α) : ApeArray α :=
  { a with slots := a.slots.modify i (.update f) }

/-- `ape_array_delete`. -/
def delete (a : ApeArray α) (key : List UInt8) : ApeArray α :=
  match a.lookupItem key with
  | none => a
  | some i => { a.updateAt i .clear with current := some i }

/-- `ape_grow_pool(array, sizeof(ape_array_item_t), 4)` and its first slot. -/
def grow (a : ApeArray α) : ApeArray α × Nat :=
  ({ a with slots := a.slots ++ newPool 4 }, a.slots.length)

/-- The slot that is taken: `current`, or a new one. -/
def nextSlot (a : ApeArray α) : ApeArray α × Nat :=
  match a.current with
  | none => a.grow
  | some i => if a.usedAt i then a.grow else (a, i)

/-- Where `current` goes from the slot `i`: to the next one, or to the first that is free. -/
def advance (a : ApeArray α) (i : Nat) : Option Nat :=
  if i + 1 < a.slots.length ∧ a.usedAt (i + 1) = false then some (i + 1)
  else a.slots.findIdx? fun s => !s.usedSlot

/-- `ape_array_add_s`, with the slot it returns. -/
def addS (a : ApeArray α) (key : List UInt8) : ApeArray α × Nat :=
  let (a, i) := (a.delete key).nextSlot
  let a := a.updateAt i (.take key)
  ({ a with current := a.advance i }, i)

/-- `ape_array_add_b`. -/
def addB (a : ApeArray α) (key : List UInt8) (value : α) : ApeArray α :=
  let (a, i) := a.addS key
  a.updateAt i (.setBuf value)

/-- `ape_array_add_ptr`. -/
def addPtr (a : ApeArray α) (key : List UInt8) (ptr : α) : ApeArray α :=
  let (a, i) := a.addS key
  a.updateAt i fun item => { item with buf := some ptr }

/-- Headers added in order. -/
def addAll (a : ApeArray α) (hs : List (List UInt8 × α)) : ApeArray α :=
  hs.foldl (fun a h => a.addB h.1 h.2) a

/-- The slots without the flags of their blocks. -/
def items (a : ApeArray α) : List (ApeArrayItem α) := a.slots.map (·.toApeArrayItem)

end ApeArray

/-! ## Slots without the flags of blocks -/

theorem newPool_items (n : Nat) :
    (newPool n).map (·.toApeArrayItem) = List.replicate n (ApeArrayItem.fresh (α := α)) := by
  unfold newPool
  rw [List.map_map]
  exact List.map_const'.trans (congrArg (List.replicate · _) List.length_range)

theorem updateAt_items (i : Nat) (f : ApeArrayItem α → ApeArrayItem α) (a : ApeArray α) :
    (a.updateAt i f).items = a.items.modify i f := by
  unfold ApeArray.items ApeArray.updateAt
  apply List.ext_getElem?
  intro j
  rw [List.getElem?_map, List.getElem?_modify, List.getElem?_modify, List.getElem?_map]
  cases a.slots[j]? with
  | none => rfl
  | some s =>
    simp only [Option.map_eq_map, Option.map_some]
    split <;> rfl

theorem grow_items (a : ApeArray α) : a.grow.1.items = a.items ++ List.replicate 4 .fresh := by
  unfold ApeArray.items ApeArray.grow
  rw [List.map_append, newPool_items]

theorem length_items (a : ApeArray α) : a.items.length = a.slots.length := List.length_map _

theorem usedAt_items (a : ApeArray α) (i : Nat) : a.usedAt i = (a.items[i]?).any (·.usedSlot) := by
  unfold ApeArray.items ApeArray.usedAt
  rw [List.getElem?_map, Option.any_map]

/-- A key whose length is an `int` is compared as it is. -/
theorem lookupItem_items {key : List UInt8} (hkey : key.length < 2 ^ 31) (a : ApeArray α) :
    a.lookupItem key = a.items.findIdx? fun item => item.shown.any fun e => e.1 = key := by
  unfold ApeArray.items ApeArray.lookupItem
  rw [List.findIdx?_map, asSize_of_lt hkey]
  simp only [List.take_length]
  congr 1
  funext s
  simp only [Function.comp]
  congr 1
  funext e
  rw [decide_eq_decide]
  exact ⟨fun he => he.2, fun he => ⟨congrArg _ he, he⟩⟩

theorem advance_items (a : ApeArray α) (i : Nat) : a.advance i =
    if i + 1 < a.items.length ∧ a.usedAt (i + 1) = false then some (i + 1)
    else a.items.findIdx? fun item => !item.usedSlot := by
  unfold ApeArray.advance
  rw [length_items]
  unfold ApeArray.items
  rw [List.findIdx?_map]
  rfl

theorem lookup_items (a : ApeArray α) (key : List UInt8) : a.lookup key =
    a.items.findSome? fun item => item.shown.bind fun e =>
      if e.1.length = key.length ∧ strncasecmp key.length key e.1 = true then some e.2 else none := by
  unfold ApeArray.lookup ApeArray.items
  rw [List.findSome?_map]
  rfl

/-! ## The slots in use -/

/-- A slot that holds a pair. -/
def filled (e : List UInt8 × α) : ApeArrayItem α := ⟨true, true, some e.1, some e.2⟩

/-- The slots in use hold `es`, the `m` slots behind them are free, and `current` is the first of
these. -/
structure Packed (a : ApeArray α) (es : List (List UInt8 × α)) (m : Nat) : Prop where
  items : a.items = es.map filled ++ List.replicate m .fresh
  current : a.current = if m = 0 then none else some es.length

theorem packed_new (n : Nat) : Packed (.new (n + 1) : ApeArray α) [] (n + 1) :=
  ⟨newPool_items (n + 1), rfl⟩

section Flags

variable {a : ApeArray α} {n m : Nat}

/-- The first `n` of `n + m` slots are in use. -/
def Flags (items : List (ApeArrayItem α)) (n m : Nat) : Prop :=
  items.map (·.usedSlot) = List.replicate n true ++ List.replicate m false

theorem Flags.usedAt (h : Flags a.items n m) (i : Nat) : a.usedAt i = decide (i < n) := by
  have hget : a.usedAt i = ((a.items.map (·.usedSlot))[i]?).any id := by
    rw [List.getElem?_map, Option.any_map, usedAt_items]
    rfl
  rw [hget, h]
  by_cases hi : i < n
  · rw [List.getElem?_append_left (by simpa using hi), List.getElem?_replicate, if_pos hi]
    simp [hi]
  · rw [List.getElem?_append_right (by simpa using hi), List.getElem?_replicate]
    split <;> simp [hi]

theorem Flags.length {items : List (ApeArrayItem α)} (h : Flags items n m) :
    items.length = n + m := by
  have := congrArg List.length h
  simpa using this

/-- Where the search for a free slot ends. -/
theorem Flags.firstFree {items : List (ApeArrayItem α)} (h : Flags items n m) :
    items.findIdx? (fun item => !item.usedSlot) = if m = 0 then none else some n := by
  have hmap : items.findIdx? (fun item => !item.usedSlot) =
      (items.map (·.usedSlot)).findIdx? (fun b => !b) := by
    rw [List.findIdx?_map]
    rfl
  have hused : (List.replicate n true).findIdx? (fun b => !b) = none := by
    rw [List.findIdx?_eq_none_iff]
    intro b hb
    rw [List.eq_of_mem_replicate hb]
    rfl
  rw [hmap, h, List.findIdx?_append, hused, Option.none_or]
  cases m with
  | zero => rfl
  | succ m => simp [List.replicate_succ, List.findIdx?_cons]

/-- From a slot in use `current` goes to the first free one. -/
theorem Flags.advance {i : Nat} (h : Flags a.items n m) (hi : i < n) :
    a.advance i = if m = 0 then none else some n := by
  rw [advance_items, h.usedAt, h.length]
  split
  · next hnext =>
    have hlast : ¬ i + 1 < n := of_decide_eq_false hnext.2
    rw [show i + 1 = n by omega, if_neg (by omega)]
  · exact h.firstFree

end Flags

/-- A store to the slot behind `xs`. -/
theorem modify_middle {β : Type*} (f : β → β) (xs : List β) (y : β) (ys : List β) :
    (xs ++ y :: ys).modify xs.length f = xs ++ f y :: ys := by
  induction xs with
  | nil => rfl
  | cons x xs ih =>
    rw [List.cons_append, List.length_cons, List.modify_succ_cons, ih]
    rfl

section Packed

variable {a : ApeArray α} {es es' : List (List UInt8 × α)} {m : Nat}

theorem flags_filled (es : List (List UInt8 × α)) (m : Nat) :
    Flags (es.map filled ++ List.replicate m .fresh) es.length m := by
  unfold Flags
  rw [List.map_append, List.map_map, List.map_replicate]
  congr 1
  exact List.map_const'

theorem Packed.flags (h : Packed a es m) : Flags a.items es.length m := by
  rw [h.items]
  exact flags_filled es m

/-- In a packed array the slot of a key is its place among the entries. -/
theorem Packed.lookupItem (h : Packed a es m) {key : List UInt8} (hlen : key.length < 2 ^ 31) :
    a.lookupItem key = es.findIdx? fun e => e.1 = key := by
  have hfree : (List.replicate m (ApeArrayItem.fresh (α := α))).findIdx?
      (fun item => item.shown.any fun e => e.1 = key) = none := by
    rw [List.findIdx?_eq_none_iff]
    intro item hitem
    rw [List.eq_of_mem_replicate hitem]
    rfl
  rw [lookupItem_items hlen, h.items, List.findIdx?_append, hfree, List.findIdx?_map]
  simp only [Option.map_none, Option.or_none]
  rfl

/-- The slot that `ape_array_add_b` takes holds the pair behind it. -/
theorem packed_of_nextSlot {key : List UInt8} {item : ApeArrayItem α} {b : ApeArray α}
    (h : (a.delete key).nextSlot = (b, es.length))
    (hitems : b.items = es.map filled ++ item :: (es'.map filled ++ List.replicate m .fresh))
    (value : α) : Packed (a.addB key value) (es ++ (key, value) :: es') m := by
  have hlen : (es.map filled).length = es.length := List.length_map _
  have hmodify : ∀ (f : ApeArrayItem α → ApeArrayItem α) y,
      (es.map filled ++ y :: (es'.map filled ++ List.replicate m .fresh)).modify es.length f =
        es.map filled ++ f y :: (es'.map filled ++ List.replicate m .fresh) := by
    intro f y
    rw [← hlen, modify_middle]
  have htaken : (b.updateAt es.length (.take key)).items =
      es.map filled ++ item.take key :: (es'.map filled ++ List.replicate m .fresh) := by
    rw [updateAt_items, hitems, hmodify]
  have hflags : Flags (b.updateAt es.length (.take key)).items (es ++ (key, value) :: es').length
      m := by
    have hfilled := flags_filled (es ++ (key, value) :: es') m
    unfold Flags at hfilled ⊢
    rw [← hfilled, htaken]
    simp [ApeArrayItem.take, filled]
  have hadd : a.addB key value = ApeArray.updateAt es.length (.setBuf value)
      { b.updateAt es.length (.take key) with
        current := (b.updateAt es.length (.take key)).advance es.length } := by
    unfold ApeArray.addB ApeArray.addS
    rw [h]
  rw [hadd]
  refine ⟨?_, ?_⟩
  · have hsame : ∀ c, ApeArray.items { b.updateAt es.length (.take key) with current := c } =
        (b.updateAt es.length (.take key)).items := fun _ => rfl
    rw [updateAt_items, hsame, htaken, hmodify]
    simp [filled, ApeArrayItem.setBuf, ApeArrayItem.take]
  · exact hflags.advance (by simp)

/-- A new key takes the first free slot. -/
theorem Packed.addB_new (h : Packed a es m) {key : List UInt8} (hlen : key.length < 2 ^ 31)
    (hkey : ∀ e ∈ es, e.1 ≠ key) (value : α) :
    ∃ m', Packed (a.addB key value) (es ++ [(key, value)]) m' := by
  have hdelete : a.delete key = a := by
    unfold ApeArray.delete
    rw [h.lookupItem hlen, List.findIdx?_eq_none_iff.2 (by simpa using hkey)]
  cases m with
  | zero =>
    have hcurrent : a.current = none := h.current
    have hslots : a.slots.length = es.length := by
      rw [← length_items, h.items]
      simp
    have hslot : (a.delete key).nextSlot = (a.grow.1, es.length) := by
      rw [hdelete, ApeArray.nextSlot, hcurrent, ← hslots]
      rfl
    have hitems : a.grow.1.items = es.map filled ++ ApeArrayItem.fresh ::
        (([] : List (List UInt8 × α)).map filled ++ List.replicate 3 .fresh) := by
      rw [grow_items, h.items]
      simp [List.replicate_succ]
    exact ⟨3, packed_of_nextSlot hslot hitems value⟩
  | succ m =>
    have hcurrent : a.current = some es.length := h.current
    have hused : a.usedAt es.length = false := by simp [h.flags.usedAt]
    have hslot : (a.delete key).nextSlot = (a, es.length) := by
      rw [hdelete, ApeArray.nextSlot, hcurrent]
      simp only [hused, Bool.false_eq_true, if_false]
    have hitems : a.items = es.map filled ++ ApeArrayItem.fresh ::
        (([] : List (List UInt8 × α)).map filled ++ List.replicate m .fresh) := by
      rw [h.items, List.replicate_succ]
      rfl
    exact ⟨m, packed_of_nextSlot hslot hitems value⟩

/-- A key that is there keeps its slot. -/
theorem Packed.addB_old {key : List UInt8} {w : α} (h : Packed a (es ++ (key, w) :: es') m)
    (hlen : key.length < 2 ^ 31) (hkey : ∀ e ∈ es, e.1 ≠ key) (value : α) :
    Packed (a.addB key value) (es ++ (key, value) :: es') m := by
  have hitem : a.lookupItem key = some es.length := by
    rw [h.lookupItem hlen, List.findIdx?_append,
      List.findIdx?_eq_none_iff.2 (by simpa using hkey)]
    simp [List.findIdx?_cons]
  have hdelete : a.delete key =
      { a.updateAt es.length .clear with current := some es.length } := by
    unfold ApeArray.delete
    rw [hitem]
  have hitems : (a.delete key).items = es.map filled ++ (filled (key, w)).clear ::
      (es'.map filled ++ List.replicate m .fresh) := by
    have hold : a.items = es.map filled ++ filled (key, w) ::
        (es'.map filled ++ List.replicate m .fresh) := by
      rw [h.items]
      simp
    have hfilled : es.length = (es.map filled).length := (List.length_map _).symm
    have hsame : (a.delete key).items = (a.updateAt es.length .clear).items := by
      rw [hdelete]
      rfl
    rw [hsame, updateAt_items, hold, hfilled, modify_middle]
  have hused : (a.delete key).usedAt es.length = false := by
    rw [usedAt_items, hitems, List.getElem?_append_right (by simp)]
    simp [filled, ApeArrayItem.clear]
  have hcurrent : (a.delete key).current = some es.length := by rw [hdelete]
  have hslot : (a.delete key).nextSlot = (a.delete key, es.length) := by
    rw [ApeArray.nextSlot, hcurrent]
    simp only [hused, Bool.false_eq_true, if_false]
  exact packed_of_nextSlot hslot hitems value

/-- **`ape_array_add_b`** puts the pair in the place of the one with its key, or behind all. -/
theorem packed_addB (h : Packed a es m) {key : List UInt8} (hlen : key.length < 2 ^ 31)
    (value : α) : ∃ m', Packed (a.addB key value) (put es key value) m' := by
  by_cases hkey : ∀ e ∈ es, e.1 ≠ key
  · rw [put_of_not_mem hkey]
    exact h.addB_new hlen hkey value
  · obtain ⟨es₁, w, es₂, rfl, hes₁⟩ := exists_split hkey
    rw [put_of_mem hes₁]
    exact ⟨m, h.addB_old hlen hes₁ value⟩

/-- **A sequence of `ape_array_add_b`** from a new array. -/
theorem packed_addAll (n : Nat) (hs : List (List UInt8 × α))
    (hshort : ∀ h ∈ hs, h.1.length < 2 ^ 31) :
    ∃ m, Packed ((ApeArray.new (n + 1)).addAll hs) (putAll hs) m := by
  induction hs using List.reverseRecOn with
  | nil => exact ⟨n + 1, packed_new n⟩
  | append_singleton hs h ih =>
    obtain ⟨m, hm⟩ := ih fun x hx => hshort x (List.mem_append_left _ hx)
    have hsnoc : (ApeArray.new (n + 1)).addAll (hs ++ [h]) =
        ((ApeArray.new (n + 1)).addAll hs).addB h.1 h.2 := by
      simp [ApeArray.addAll]
    rw [hsnoc, putAll_snoc]
    exact packed_addB hm (hshort h (List.mem_append_right _ (List.mem_singleton_self h))) h.2

/-- **`ape_array_lookup`** finds the first pair whose key is equal ignoring case. -/
theorem lookup_packed (h : Packed a es m) {key : List UInt8} (hkey : 0 ∉ key) :
    a.lookup key = (first (fun k => k.map lower = key.map lower) es).map Prod.snd := by
  have hmatch : ∀ k : List UInt8, (k.length = key.length ∧
      strncasecmp key.length key k = true) ↔ k.map lower = key.map lower := by
    intro k
    constructor
    · rintro ⟨hlen, hcmp⟩
      exact ((strncasecmp_iff hkey hlen).1 hcmp).symm
    · intro heq
      have hlen : k.length = key.length := by simpa using congrArg List.length heq
      exact ⟨hlen, (strncasecmp_iff hkey hlen).2 heq.symm⟩
  have hfree : (List.replicate m (ApeArrayItem.fresh (α := α))).findSome? (fun item =>
      item.shown.bind fun e => if e.1.length = key.length ∧ strncasecmp key.length key e.1 = true
        then some e.2 else none) = none := by
    rw [List.findSome?_eq_none_iff]
    intro item hitem
    rw [List.eq_of_mem_replicate hitem]
    rfl
  rw [lookup_items, h.items, List.findSome?_append, hfree, Option.or_none, List.findSome?_map]
  clear h hfree
  induction es with
  | nil => rfl
  | cons e es ih =>
    rw [List.findSome?_cons, first_cons, ih]
    simp only [Function.comp, filled, ApeArrayItem.shown, if_true, Option.bind_some,
      Option.map_some, hmatch, decide_eq_true_eq]
    by_cases hk : e.1.map lower = key.map lower
    · simp only [if_pos hk, Option.map_some]
    · simp only [if_neg hk]

end Packed

end Ape.Table
