import ApeServer.Table.Slots

/-!
# Arrays as maps

An `ape_array` under its whole interface: values of both kinds and deletions.

* `ArrayOp`, `ApeArray.run` — a call, and a sequence of them;
* `Sound` — the invariant: keys are in use once, and `current` is a free slot as long as there is one;
* `delete_spec`, `nextSlot_spec`, `advance_spec`, `add_spec` — what the functions leave;
* `exec_spec`, `run_spec` — one call, and a sequence of calls, keeps the invariant;
* `array_map` — **an array is a map**, as long as its keys are shorter than `2 ^ 31` bytes.
-/

namespace Ape.Table

variable {α : Type*}

/-! ## Calls -/

/-- A call; values are not `NULL`. -/
inductive ArrayOp (α : Type*) where
  | addB (key : List UInt8) (value : α)
  | addPtr (key : List UInt8) (ptr : α)
  | delete (key : List UInt8)
  deriving DecidableEq, Repr

namespace ArrayOp

/-- The key of a call. -/
def key : ArrayOp α → List UInt8
  | .addB key _ | .addPtr key _ | .delete key => key

/-- What a call leaves under its key. -/
def value : ArrayOp α → Option α
  | .addB _ v | .addPtr _ v => some v
  | .delete _ => none

/-- One call. -/
def exec (a : ApeArray α) : ArrayOp α → ApeArray α
  | .addB key value => a.addB key value
  | .addPtr key ptr => a.addPtr key ptr
  | .delete key => a.delete key

end ArrayOp

/-- A sequence of calls on a new array. -/
def ApeArray.run (n : Nat) (ops : List (ArrayOp α)) : ApeArray α := ops.foldl ArrayOp.exec (.new n)

/-! ## The promise -/

/-- What was last added under a key and not deleted since. -/
def lastAdded (ops : List (ArrayOp α)) (key : List UInt8) : Option α :=
  ops.foldl (fun v op => if op.key = key then op.value else v) none

/-- The value `ape_array_lookup_item` finds: `none` inside is `NULL`. -/
def ApeArray.found (a : ApeArray α) (key : List UInt8) : Option (Option α) :=
  (a.lookupItem key).map fun i => (a.slots[i]?).bind (·.buf)

/-- What is promised of an array behind some calls; the length of a key to look up is an `int`. -/
structure ArrayMap (ops : List (ArrayOp α)) (a : ApeArray α) : Prop where
  finds : ∀ key : List UInt8, key.length < 2 ^ 31 → a.found key = (lastAdded ops key).map some
  once : ∀ (i j : Nat) (s t : PoolSlot α), a.slots[i]? = some s → a.slots[j]? = some t →
    s.usedSlot = true → t.usedSlot = true → s.key = t.key → i = j
  cursor : ∀ i, a.current = some i → ∃ s, a.slots[i]? = some s ∧ s.usedSlot = false
  full : a.current = none ↔ ∀ s ∈ a.slots, s.usedSlot = true

/-- What is promised of a call: the list grows when every slot is in use, and the entries of other
keys stay. -/
structure CallKeeps (a : ApeArray α) (op : ArrayOp α) : Prop where
  grows : (op.exec a).slots.length ≠ a.slots.length → ∀ s ∈ a.slots, s.usedSlot = true
  others : ∀ (i : Nat) (s : PoolSlot α), a.slots[i]? = some s → s.usedSlot = true →
    s.key ≠ some op.key → (op.exec a).slots[i]? = some s

/-! ## The invariant -/

/-- A slot shows a pair. -/
def ApeArray.Shows (a : ApeArray α) (i : Nat) (key : List UInt8) (v : α) : Prop :=
  ∃ s, a.slots[i]? = some s ∧ s.shown = some (key, v)

/-- A slot is free. -/
def ApeArray.FreeAt (a : ApeArray α) (i : Nat) : Prop :=
  ∃ s, a.slots[i]? = some s ∧ s.usedSlot = false

/-- Where `current` stands. -/
structure CursorOk (a : ApeArray α) : Prop where
  free : ∀ i, a.current = some i → a.FreeAt i
  full : a.current = none → ∀ s ∈ a.slots, s.usedSlot = true

/-- The slots in use show a pair, each its own key. -/
structure Sound (a : ApeArray α) : Prop where
  shown : ∀ (i : Nat) (s : PoolSlot α), a.slots[i]? = some s → s.usedSlot = true →
    ∃ key v, s.key = some key ∧ s.buf = some v
  unique : ∀ i j key v w, a.Shows i key v → a.Shows j key w → i = j

section Slots

variable {a : ApeArray α} {i : Nat} {key : List UInt8} {v : α}

theorem shown_iff {s : PoolSlot α} : s.shown = some (key, v) ↔
    s.usedSlot = true ∧ s.key = some key ∧ s.buf = some v := by
  unfold ApeArrayItem.shown
  split
  · next hused =>
    rw [Option.bind_eq_some_iff]
    constructor
    · rintro ⟨k, hk, hmap⟩
      obtain ⟨w, hw, heq⟩ := Option.map_eq_some_iff.1 hmap
      obtain ⟨rfl, rfl⟩ := Prod.mk.inj heq
      exact ⟨hused, hk, hw⟩
    · rintro ⟨-, hk, hv⟩
      exact ⟨key, hk, by rw [hv]; rfl⟩
  · next hfree => simp [hfree]

/-- What a call of `ape_array_lookup_item` compares. -/
theorem matches_iff (hkey : key.length < 2 ^ 31) (s : PoolSlot α) : (s.shown.any fun e =>
    e.1.length = asSize key.length ∧ e.1 = key.take (asSize key.length)) = true ↔
      ∃ v, s.shown = some (key, v) := by
  rw [asSize_of_lt hkey, List.take_length, Option.any_eq_true]
  constructor
  · rintro ⟨⟨k, v⟩, hshown, hmatch⟩
    obtain ⟨-, rfl⟩ := of_decide_eq_true hmatch
    exact ⟨v, hshown⟩
  · rintro ⟨v, hshown⟩
    exact ⟨(key, v), hshown, decide_eq_true ⟨rfl, rfl⟩⟩

/-- **What `ape_array_lookup_item` finds**: the slot that shows the key. -/
theorem lookupItem_spec (hkey : key.length < 2 ^ 31) (a : ApeArray α) :
    (a.lookupItem key = none ∧ ∀ i v, ¬ a.Shows i key v) ∨
      ∃ i v, a.lookupItem key = some i ∧ a.Shows i key v := by
  cases hfind : a.lookupItem key with
  | none =>
    refine .inl ⟨rfl, ?_⟩
    rintro i v ⟨s, hs, hshown⟩
    have hmiss := List.findIdx?_eq_none_iff.1 hfind s (List.mem_of_getElem? hs)
    rw [(matches_iff hkey s).2 ⟨v, hshown⟩] at hmiss
    exact Bool.noConfusion hmiss
  | some i =>
    obtain ⟨hi, hmatch, -⟩ := List.findIdx?_eq_some_iff_getElem.1 hfind
    obtain ⟨v, hshown⟩ := (matches_iff hkey _).1 hmatch
    exact .inr ⟨i, v, rfl, a.slots[i], List.getElem?_eq_getElem hi, hshown⟩

/-! ## Stores to a slot -/

theorem getElem?_updateAt (f : ApeArrayItem α → ApeArrayItem α) (a : ApeArray α) (i j : Nat) :
    (a.updateAt i f).slots[j]? = (a.slots[j]?).map fun s => if i = j then s.update f else s :=
  List.getElem?_modify ..

theorem updateAt_self {f : ApeArrayItem α → ApeArrayItem α} {s : PoolSlot α}
    (hs : a.slots[i]? = some s) : (a.updateAt i f).slots[i]? = some (s.update f) := by
  rw [getElem?_updateAt, hs, Option.map_some, if_pos rfl]

theorem updateAt_of_ne {f : ApeArrayItem α → ApeArrayItem α} {j : Nat} (hij : i ≠ j) :
    (a.updateAt i f).slots[j]? = a.slots[j]? := by
  rw [getElem?_updateAt]
  simp only [if_neg hij, Option.map_id']

@[simp] theorem length_updateAt (f : ApeArrayItem α → ApeArrayItem α) (a : ApeArray α) (i : Nat) :
    (a.updateAt i f).slots.length = a.slots.length :=
  List.length_modify ..

theorem updateAt_updateAt (f g : ApeArrayItem α → ApeArrayItem α) (a : ApeArray α) (i : Nat) :
    (a.updateAt i f).updateAt i g = a.updateAt i (g ∘ f) := by
  unfold ApeArray.updateAt
  rw [List.modify_modify_eq]
  rfl

/-- A slot shows nothing when it is free. -/
theorem not_shows_of_free (hfree : a.FreeAt i) : ¬ a.Shows i key v := by
  obtain ⟨s, hs, hunused⟩ := hfree
  rintro ⟨t, ht, hshown⟩
  obtain rfl := Option.some.inj (hs.symm.trans ht)
  rw [(shown_iff.1 hshown).1] at hunused
  exact Bool.noConfusion hunused

/-- A slot shows what its neighbours do not touch. -/
theorem shows_congr {b : ApeArray α} (hget : b.slots[i]? = a.slots[i]?) :
    b.Shows i key v ↔ a.Shows i key v := by
  unfold ApeArray.Shows
  rw [hget]

/-- Invariants are kept when a slot is freed. -/
theorem Sound.free {b : ApeArray α} (hs : Sound a) (hfree : b.FreeAt i)
    (hother : ∀ j, i ≠ j → b.slots[j]? = a.slots[j]?) : Sound b := by
  have hne : ∀ j key v, b.Shows j key v → i ≠ j := by
    rintro j key v hshows rfl
    exact not_shows_of_free hfree hshows
  refine ⟨fun j s hj hused => ?_, fun j l key v w hv hw => ?_⟩
  · by_cases hij : i = j
    · subst hij
      obtain ⟨t, ht, hunused⟩ := hfree
      obtain rfl := Option.some.inj (hj.symm.trans ht)
      exact Bool.noConfusion (hused.symm.trans hunused)
    · exact hs.shown j s ((hother j hij).symm.trans hj) hused
  · exact hs.unique j l key v w ((shows_congr (hother j (hne j key v hv))).1 hv)
      ((shows_congr (hother l (hne l key w hw))).1 hw)

/-! ## Deletions -/

/-- What a deletion leaves. -/
structure Deleted (a b : ApeArray α) (key : List UInt8) : Prop where
  sound : Sound b
  cursor : CursorOk b
  length : b.slots.length = a.slots.length
  shows : ∀ i k v, b.Shows i k v ↔ a.Shows i k v ∧ k ≠ key
  kept : ∀ (i : Nat) (s : PoolSlot α), b.slots[i]? = some s → s.usedSlot = true →
    a.slots[i]? = some s
  others : ∀ (i : Nat) (s : PoolSlot α), a.slots[i]? = some s → s.usedSlot = true →
    s.key ≠ some key → b.slots[i]? = some s

/-- **What `ape_array_delete` does.** -/
theorem delete_spec (hs : Sound a) (hc : CursorOk a) (hkey : key.length < 2 ^ 31) :
    Deleted a (a.delete key) key := by
  unfold ApeArray.delete
  rcases lookupItem_spec hkey a with ⟨hfind, hmiss⟩ | ⟨i, v, hfind, hshows⟩
  · rw [hfind]
    refine ⟨hs, hc, rfl, fun i k v => ⟨fun h => ⟨h, ?_⟩, And.left⟩, fun _ _ h _ => h,
      fun _ _ h _ _ => h⟩
    rintro rfl
    exact hmiss i v h
  · rw [hfind]
    obtain ⟨s, hslot, hshown⟩ := hshows
    obtain ⟨hused, hk, hv⟩ := shown_iff.1 hshown
    have hfree : (a.updateAt i .clear).FreeAt i := by
      refine ⟨_, updateAt_self hslot, ?_⟩
      show s.toApeArrayItem.clear.usedSlot = false
      unfold ApeArrayItem.clear
      split <;> rfl
    have hother : ∀ j, i ≠ j → (a.updateAt i .clear).slots[j]? = a.slots[j]? :=
      fun j hij => updateAt_of_ne hij
    have hclear : Sound (a.updateAt i .clear) := hs.free hfree hother
    refine ⟨⟨hclear.shown, hclear.unique⟩, ⟨fun j hj => ?_, fun h => absurd h (by simp)⟩,
      length_updateAt .., fun j k w => ⟨fun h => ?_, fun h => ?_⟩, fun j t ht hused => ?_,
      fun j t ht _ hne => ?_⟩
    · obtain rfl := Option.some.inj hj
      exact hfree
    · have hij : i ≠ j := by
        rintro rfl
        exact not_shows_of_free hfree h
      have h := (shows_congr (hother j hij)).1 h
      refine ⟨h, ?_⟩
      rintro rfl
      exact hij (hs.unique _ _ _ _ _ ⟨s, hslot, hshown⟩ h)
    · obtain ⟨h, hne⟩ := h
      have hij : i ≠ j := by
        rintro rfl
        obtain ⟨t, ht, hshown'⟩ := h
        obtain rfl := Option.some.inj (hslot.symm.trans ht)
        rw [hshown] at hshown'
        exact hne (Prod.mk.inj (Option.some.inj hshown')).1.symm
      exact (shows_congr (hother j hij)).2 h
    · refine (hother j ?_).symm.trans ht
      rintro rfl
      obtain ⟨u, hu, hunused⟩ := hfree
      obtain rfl := Option.some.inj (hu.symm.trans ht)
      exact Bool.noConfusion (hused.symm.trans hunused)
    · refine (hother j ?_).trans ht
      rintro rfl
      obtain rfl := Option.some.inj (hslot.symm.trans ht)
      exact hne hk

/-! ## Additions -/

/-- The slot that is taken, and the slots behind the list when it has grown. -/
structure Taken (a b : ApeArray α) (i : Nat) : Prop where
  grown : ∃ extra, b.slots = a.slots ++ extra ∧ (∀ s ∈ extra, s.usedSlot = false) ∧
    (extra ≠ [] → ∀ s ∈ a.slots, s.usedSlot = true)
  free : b.FreeAt i

/-- The slots of a new block are free. -/
theorem free_of_mem_newPool {n : Nat} {s : PoolSlot α} (hs : s ∈ newPool n) :
    s.usedSlot = false := by
  obtain ⟨i, -, rfl⟩ := List.mem_map.1 hs
  rfl

/-- **The slot that is taken is free**, and the list grows only when none is. -/
theorem nextSlot_spec (hc : CursorOk a) : Taken a a.nextSlot.1 a.nextSlot.2 := by
  unfold ApeArray.nextSlot
  cases hcur : a.current with
  | none =>
    refine ⟨⟨newPool 4, rfl, fun s => free_of_mem_newPool, fun _ => hc.full hcur⟩, ?_⟩
    refine ⟨⟨.fresh, true⟩, ?_, rfl⟩
    show (a.slots ++ newPool 4)[a.slots.length]? = _
    rw [List.getElem?_append_right (Nat.le_refl _), Nat.sub_self]
    rfl
  | some i =>
    obtain ⟨s, hs, hunused⟩ := hc.free i hcur
    have hused : a.usedAt i = false := by
      unfold ApeArray.usedAt
      rw [hs, Option.any_some, hunused]
    simp only [hused, Bool.false_eq_true, if_false]
    exact ⟨⟨[], (List.append_nil _).symm, by simp, by simp⟩, s, hs, hunused⟩

theorem freeAt_of_usedAt (hi : i < a.slots.length) (hused : a.usedAt i = false) : a.FreeAt i := by
  refine ⟨a.slots[i], List.getElem?_eq_getElem hi, ?_⟩
  unfold ApeArray.usedAt at hused
  rwa [List.getElem?_eq_getElem hi, Option.any_some] at hused

/-- **`current` goes to a free slot**, if there is one. -/
theorem advance_spec (a : ApeArray α) (i : Nat) : CursorOk { a with current := a.advance i } := by
  unfold ApeArray.advance
  split
  · next hnext =>
    obtain ⟨hlt, hused⟩ := hnext
    refine ⟨fun j hj => ?_, fun h => absurd h (by simp)⟩
    obtain rfl := Option.some.inj hj
    exact freeAt_of_usedAt hlt hused
  · refine ⟨fun j hj => ?_, fun hnone s hs => ?_⟩
    · obtain ⟨hlt, hunused, -⟩ := List.findIdx?_eq_some_iff_getElem.1 hj
      exact ⟨a.slots[j], List.getElem?_eq_getElem hlt, by simpa using hunused⟩
    · simpa using List.findIdx?_eq_none_iff.1 hnone s hs

/-- A store that leaves the flag alone leaves `current` where it may be. -/
theorem CursorOk.updateAt (hc : CursorOk a) {f : ApeArrayItem α → ApeArrayItem α}
    (hf : ∀ item, (f item).usedSlot = item.usedSlot) (i : Nat) : CursorOk (a.updateAt i f) := by
  have hupdate : ∀ (j : Nat) (s : PoolSlot α), (if i = j then s.update f else s).usedSlot =
      s.usedSlot := by
    intro j s
    split
    · exact hf _
    · rfl
  refine ⟨fun j hj => ?_, fun hnone s hs => ?_⟩
  · obtain ⟨s, hs, hunused⟩ := hc.free j hj
    exact ⟨_, by rw [getElem?_updateAt, hs, Option.map_some], (hupdate j s).trans hunused⟩
  · obtain ⟨j, hj⟩ := List.getElem?_of_mem hs
    rw [getElem?_updateAt] at hj
    obtain ⟨t, ht, rfl⟩ := Option.map_eq_some_iff.1 hj
    rw [hupdate]
    exact hc.full hnone t (List.mem_of_getElem? ht)

/-- A key with a value is stored to a free slot. -/
structure Stored (a b : ApeArray α) (i : Nat) (key : List UInt8) (v : α) : Prop where
  free : a.FreeAt i
  self : ∃ s, b.slots[i]? = some s ∧ s.usedSlot = true ∧ s.key = some key ∧ s.buf = some v
  other : ∀ j, i ≠ j → b.slots[j]? = a.slots[j]?

/-- A stored pair shows in its slot, and the others show as before. -/
theorem Stored.shows {b : ApeArray α} (h : Stored a b i key v) (j : Nat) (k : List UInt8) (w : α) :
    b.Shows j k w ↔ a.Shows j k w ∨ i = j ∧ k = key ∧ w = v := by
  obtain ⟨s, hs, hused, hkey, hbuf⟩ := h.self
  have hshown : s.shown = some (key, v) := shown_iff.2 ⟨hused, hkey, hbuf⟩
  by_cases hij : i = j
  · subst hij
    constructor
    · rintro ⟨t, ht, hshown'⟩
      obtain rfl := Option.some.inj (hs.symm.trans ht)
      rw [hshown] at hshown'
      obtain ⟨rfl, rfl⟩ := Prod.mk.inj (Option.some.inj hshown')
      exact .inr ⟨rfl, rfl, rfl⟩
    · rintro (hold | ⟨-, rfl, rfl⟩)
      · exact absurd hold (not_shows_of_free h.free)
      · exact ⟨s, hs, hshown⟩
  · rw [shows_congr (h.other j hij)]
    exact ⟨.inl, fun h => h.elim id fun h => absurd h.1 hij⟩

/-- Invariants are kept when a new key is stored. -/
theorem Sound.store {b : ApeArray α} (hs : Sound a) (hb : Stored a b i key v)
    (hnew : ∀ j w, ¬ a.Shows j key w) : Sound b := by
  refine ⟨fun j s hj hused => ?_, fun j l k w x hw hx => ?_⟩
  · by_cases hij : i = j
    · subst hij
      obtain ⟨t, ht, -, hkey, hbuf⟩ := hb.self
      obtain rfl := Option.some.inj (hj.symm.trans ht)
      exact ⟨key, v, hkey, hbuf⟩
    · exact hs.shown j s ((hb.other j hij).symm.trans hj) hused
  · rcases (hb.shows j k w).1 hw with hold | ⟨rfl, rfl, -⟩
    · rcases (hb.shows l k x).1 hx with hold' | ⟨-, rfl, -⟩
      · exact hs.unique j l k w x hold hold'
      · exact absurd hold (hnew j w)
    · rcases (hb.shows l k x).1 hx with hold' | ⟨rfl, -⟩
      · exact absurd hold' (hnew l x)
      · rfl

/-- Free slots behind the list show nothing. -/
theorem Taken.shows {b : ApeArray α} (h : Taken a b i) (j : Nat) (k : List UInt8) (w : α) :
    b.Shows j k w ↔ a.Shows j k w := by
  obtain ⟨extra, hslots, hfree, -⟩ := h.grown
  unfold ApeArray.Shows
  rw [hslots]
  by_cases hj : j < a.slots.length
  · rw [List.getElem?_append_left hj]
  · rw [List.getElem?_append_right (Nat.le_of_not_lt hj),
      List.getElem?_eq_none (Nat.le_of_not_lt hj)]
    constructor
    · rintro ⟨s, hs, hshown⟩
      have hunused := hfree s (List.mem_of_getElem? hs)
      rw [(shown_iff.1 hshown).1] at hunused
      exact Bool.noConfusion hunused
    · rintro ⟨s, hs, -⟩
      exact absurd hs (by simp)

theorem Taken.sound {b : ApeArray α} (h : Taken a b i) (hs : Sound a) : Sound b := by
  refine ⟨fun j s hj hused => ?_, fun j l k w x hw hx => ?_⟩
  · obtain ⟨extra, hslots, hfree, -⟩ := h.grown
    rw [hslots] at hj
    by_cases hlt : j < a.slots.length
    · rw [List.getElem?_append_left hlt] at hj
      exact hs.shown j s hj hused
    · rw [List.getElem?_append_right (Nat.le_of_not_lt hlt)] at hj
      rw [hfree s (List.mem_of_getElem? hj)] at hused
      exact Bool.noConfusion hused
  · exact hs.unique j l k w x ((h.shows j k w).1 hw) ((h.shows l k x).1 hx)

/-- What a function that adds a value does, behind `ape_array_add_s`. -/
def ApeArray.addWith (a : ApeArray α) (key : List UInt8) (f : ApeArrayItem α → ApeArrayItem α) :
    ApeArray α :=
  (a.addS key).1.updateAt (a.addS key).2 f

/-- What an addition leaves. -/
structure Added (a b : ApeArray α) (key : List UInt8) (v : α) : Prop where
  sound : Sound b
  cursor : CursorOk b
  shows : ∀ k w, (∃ i, b.Shows i k w) ↔ if key = k then v = w else ∃ i, a.Shows i k w
  grows : b.slots.length ≠ a.slots.length → ∀ s ∈ a.slots, s.usedSlot = true
  others : ∀ (i : Nat) (s : PoolSlot α), a.slots[i]? = some s → s.usedSlot = true →
    s.key ≠ some key → b.slots[i]? = some s

/-- **An addition** replaces the value of its key or takes a free slot for it. -/
theorem add_spec (hs : Sound a) (hc : CursorOk a) (hkey : key.length < 2 ^ 31)
    {f : ApeArrayItem α → ApeArrayItem α}
    (hf : ∀ item, (f item).usedSlot = item.usedSlot ∧ (f item).key = item.key ∧
      (f item).buf = some v) : Added a (a.addWith key f) key v := by
  have hdel := delete_spec hs hc hkey
  have htaken := nextSlot_spec hdel.cursor
  generalize hd : a.delete key = d at hdel htaken
  generalize hn : d.nextSlot = p at htaken
  obtain ⟨b, i⟩ := p
  have hwith : a.addWith key f =
      ({ b.updateAt i (.take key) with current := (b.updateAt i (.take key)).advance i }).updateAt
        i f := by
    unfold ApeArray.addWith ApeArray.addS
    rw [hd, hn]
  have hslots : (a.addWith key f).slots = (b.updateAt i (f ∘ .take key)).slots := by
    rw [hwith, ← updateAt_updateAt]
    rfl
  have hstored : Stored b (a.addWith key f) i key v := by
    obtain ⟨s, hslot, -⟩ := id htaken.free
    refine ⟨htaken.free, ⟨s.update (f ∘ .take key), ?_, ?_, ?_, ?_⟩, fun j hij => ?_⟩
    · rw [hslots]
      exact updateAt_self hslot
    · exact (hf _).1
    · exact (hf _).2.1
    · exact (hf _).2.2
    · rw [hslots]
      exact updateAt_of_ne hij
  have hnew : ∀ j w, ¬ b.Shows j key w := by
    intro j w hshows
    exact ((hdel.shows j key w).1 ((htaken.shows j key w).1 hshows)).2 rfl
  obtain ⟨extra, hb, -, hfull⟩ := htaken.grown
  constructor
  · exact (htaken.sound hdel.sound).store hstored hnew
  · rw [hwith]
    exact (advance_spec _ i).updateAt (fun item => (hf item).1) i
  · intro k w
    simp only [hstored.shows, htaken.shows, hdel.shows]
    split
    · next heq =>
      subst heq
      constructor
      · rintro ⟨j, ⟨-, hne⟩ | ⟨-, -, rfl⟩⟩
        · exact absurd rfl hne
        · rfl
      · rintro rfl
        exact ⟨i, .inr ⟨rfl, rfl, rfl⟩⟩
    · next hne =>
      constructor
      · rintro ⟨j, ⟨h, -⟩ | ⟨-, rfl, -⟩⟩
        · exact ⟨j, h⟩
        · exact absurd rfl hne
      · rintro ⟨j, h⟩
        exact ⟨j, .inl ⟨h, Ne.symm hne⟩⟩
  · intro hlen s hmem
    rw [hslots, length_updateAt, hb, List.length_append, hdel.length] at hlen
    have hgrown : extra ≠ [] := by
      rintro rfl
      exact hlen rfl
    obtain ⟨j, hj⟩ := List.getElem?_of_mem hmem
    have hjd : j < d.slots.length := hdel.length ▸ (List.getElem?_eq_some_iff.1 hj).1
    have hused := hfull hgrown d.slots[j] (List.getElem_mem hjd)
    have hsame := hdel.kept j _ (List.getElem?_eq_getElem hjd) hused
    obtain rfl := Option.some.inj (hj.symm.trans hsame)
    exact hused
  · intro j s hj hused hne
    have hj := hdel.others j s hj hused hne
    have hbj : b.slots[j]? = some s := by
      rw [hb, List.getElem?_append_left (List.getElem?_eq_some_iff.1 hj).1, hj]
    refine (hstored.other j ?_).trans hbj
    rintro rfl
    obtain ⟨t, ht, hunused⟩ := htaken.free
    obtain rfl := Option.some.inj (hbj.symm.trans ht)
    exact Bool.noConfusion (hused.symm.trans hunused)

/-! ## Sequences of calls -/

/-- What a call leaves. -/
structure Called (a b : ApeArray α) (op : ArrayOp α) : Prop where
  sound : Sound b
  cursor : CursorOk b
  shows : ∀ k w, (∃ i, b.Shows i k w) ↔ if op.key = k then op.value = some w else ∃ i, a.Shows i k w
  grows : b.slots.length ≠ a.slots.length → ∀ s ∈ a.slots, s.usedSlot = true
  others : ∀ (i : Nat) (s : PoolSlot α), a.slots[i]? = some s → s.usedSlot = true →
    s.key ≠ some op.key → b.slots[i]? = some s

theorem Added.called {b : ApeArray α} {op : ArrayOp α} (h : Added a b op.key v)
    (hv : op.value = some v) : Called a b op := by
  refine ⟨h.sound, h.cursor, fun k w => ?_, h.grows, h.others⟩
  rw [h.shows, hv, Option.some_inj]

/-- **One call** keeps the invariant. -/
theorem exec_spec (hs : Sound a) (hc : CursorOk a) {op : ArrayOp α}
    (hkey : op.key.length < 2 ^ 31) : Called a (op.exec a) op := by
  cases op with
  | addB key v =>
    have hadd : Added a (a.addB key v) key v :=
      add_spec hs hc hkey fun item => ⟨rfl, rfl, rfl⟩
    exact hadd.called rfl
  | addPtr key v =>
    have hadd : Added a (a.addPtr key v) key v :=
      add_spec hs hc hkey fun item => ⟨rfl, rfl, rfl⟩
    exact hadd.called rfl
  | delete key =>
    have hdel : Deleted a (a.delete key) key := delete_spec hs hc hkey
    refine ⟨hdel.sound, hdel.cursor, fun k w => ?_, fun hlen => absurd hdel.length hlen,
      hdel.others⟩
    show (∃ i, (a.delete key).Shows i k w) ↔ if key = k then none = some w else _
    simp only [hdel.shows]
    split
    · next heq =>
      subst heq
      exact ⟨fun ⟨i, _, hne⟩ => absurd rfl hne, fun h => absurd h (by simp)⟩
    · next hne => exact exists_congr fun i => ⟨And.left, fun h => ⟨h, Ne.symm hne⟩⟩

theorem sound_new (n : Nat) : Sound (.new n : ApeArray α) where
  shown i s hs hused := by
    rw [free_of_mem_newPool (List.mem_of_getElem? hs)] at hused
    exact Bool.noConfusion hused
  unique i j key v w hv _ := by
    obtain ⟨s, hs, hshown⟩ := hv
    have hused := (shown_iff.1 hshown).1
    rw [free_of_mem_newPool (List.mem_of_getElem? hs)] at hused
    exact Bool.noConfusion hused

theorem cursorOk_new (n : Nat) : CursorOk (.new (n + 1) : ApeArray α) where
  free i hi := by
    obtain rfl := Option.some.inj hi
    refine ⟨⟨.fresh, true⟩, ?_, rfl⟩
    show (newPool (n + 1))[0]? = _
    unfold newPool
    rw [List.getElem?_map, List.getElem?_range (Nat.succ_pos n)]
    rfl
  full h := absurd h (by simp [ApeArray.new])

/-- What a sequence of calls leaves. -/
structure Ran (ops : List (ArrayOp α)) (a : ApeArray α) : Prop where
  sound : Sound a
  cursor : CursorOk a
  shows : ∀ k w, (∃ i, a.Shows i k w) ↔ lastAdded ops k = some w

/-- **A sequence of calls** keeps the invariant. -/
theorem run_spec (n : Nat) (ops : List (ArrayOp α)) (hshort : ∀ op ∈ ops, op.key.length < 2 ^ 31) :
    Ran ops (.run (n + 1) ops) := by
  induction ops using List.reverseRecOn with
  | nil =>
    refine ⟨sound_new _, cursorOk_new n, fun k w => ⟨?_, fun h => absurd h (by simp [lastAdded])⟩⟩
    rintro ⟨i, s, hs, hshown⟩
    have hused := (shown_iff.1 hshown).1
    rw [free_of_mem_newPool (List.mem_of_getElem? hs)] at hused
    exact Bool.noConfusion hused
  | append_singleton ops op ih =>
    have hops := ih fun x hx => hshort x (List.mem_append_left _ hx)
    have hop := hshort op (List.mem_append_right _ (List.mem_singleton_self op))
    have hcall := exec_spec hops.sound hops.cursor hop
    have hrun : ApeArray.run (n + 1) (ops ++ [op]) = op.exec (.run (n + 1) ops) :=
      List.foldl_append ..
    rw [hrun]
    refine ⟨hcall.sound, hcall.cursor, fun k w => ?_⟩
    rw [hcall.shows]
    unfold lastAdded
    rw [List.foldl_append]
    show _ ↔ (if op.key = k then op.value else lastAdded ops k) = some w
    split
    · rfl
    · exact hops.shows k w

/-- What an invariant array promises. -/
theorem Ran.arrayMap {ops : List (ArrayOp α)} (h : Ran ops a) : ArrayMap ops a where
  finds key hkey := by
    unfold ApeArray.found
    rcases lookupItem_spec hkey a with ⟨hfind, hmiss⟩ | ⟨i, v, hfind, hshows⟩
    · have hnone : lastAdded ops key = none := by
        refine Option.eq_none_iff_forall_not_mem.2 fun w hw => ?_
        obtain ⟨i, hi⟩ := (h.shows key w).2 hw
        exact hmiss i w hi
      rw [hfind, hnone]
      rfl
    · rw [hfind, (h.shows key v).1 ⟨i, hshows⟩]
      obtain ⟨s, hs, hshown⟩ := hshows
      rw [Option.map_some, hs, Option.bind_some, (shown_iff.1 hshown).2.2]
      rfl
  once i j s t hs ht hused hused' hkey := by
    obtain ⟨key, v, hk, hv⟩ := h.sound.shown i s hs hused
    obtain ⟨key', w, hk', hw⟩ := h.sound.shown j t ht hused'
    obtain rfl : key = key' := Option.some.inj ((hk.symm.trans hkey).trans hk')
    exact h.sound.unique i j key v w ⟨s, hs, shown_iff.2 ⟨hused, hk, hv⟩⟩
      ⟨t, ht, shown_iff.2 ⟨hused', hk', hw⟩⟩
  cursor i hi := h.cursor.free i hi
  full := by
    refine ⟨h.cursor.full, fun hall => ?_⟩
    cases hcur : a.current with
    | none => rfl
    | some i =>
      obtain ⟨s, hs, hunused⟩ := h.cursor.free i hcur
      rw [hall s (List.mem_of_getElem? hs)] at hunused
      exact Bool.noConfusion hunused

/-- **An array is a map**, as long as its keys are shorter than `2 ^ 31` bytes. -/
theorem array_map (n : Nat) (ops : List (ArrayOp α)) (hshort : ∀ op ∈ ops, op.key.length < 2 ^ 31) :
    ArrayMap ops (.run (n + 1) ops) ∧
      ∀ op : ArrayOp α, op.key.length < 2 ^ 31 → CallKeeps (.run (n + 1) ops) op := by
  have hrun := run_spec n ops hshort
  refine ⟨hrun.arrayMap, fun op hop => ?_⟩
  have hcall := exec_spec hrun.sound hrun.cursor hop
  exact ⟨hcall.grows, hcall.others⟩

/-- An array of one slot in which two keys are added, one of them is deleted and the other replaced,
and the addition that makes it grow again. -/
theorem array_map_grown :
    (let ops : List (ArrayOp Nat) :=
      [.addB [97] 1, .addPtr [98] 2, .delete [97], .addB [98] 3]
    let a := ApeArray.run 1 ops
    a.slots.length = 5 ∧ a.found [97] = none ∧ a.found [98] = some (some 3) ∧
      ArrayMap ops a ∧ CallKeeps a (.addPtr [99] 4)) := by
  intro ops a
  obtain ⟨hmap, hcall⟩ := array_map 0 ops (by decide)
  exact ⟨by decide, by decide, by decide, hmap, hcall _ (by decide)⟩

end Slots

/-! ## Long keys -/

/-- A key of `2 ^ 31` bytes is never found: its length as an `int` is negative. -/
theorem lookupItem_long {a : ApeArray α} {key : List UInt8} (hkey : key.length = 2 ^ 31)
    (hall : ∀ s ∈ a.slots, ∀ e, s.shown = some e → e.1 = key) : a.lookupItem key = none := by
  refine List.findIdx?_eq_none_iff.2 fun s hs => ?_
  rw [Option.any_eq_false]
  intro e he
  have hne : e.1.length ≠ asSize key.length := by
    rw [hall s hs e he, hkey]
    decide
  simp [hne]

/-- **A key of `2 ^ 31` bytes is added twice**: each addition takes a slot of its own. -/
theorem array_map_fails :
    ¬ ∀ (n : Nat) (ops : List (ArrayOp Nat)), ArrayMap ops (.run (n + 1) ops) := by
  intro hclaim
  obtain ⟨key, hkey⟩ : ∃ key : List UInt8, key.length = 2 ^ 31 :=
    ⟨List.replicate (2 ^ 31) 0, List.length_replicate⟩
  have hnew : (ApeArray.new 2 : ApeArray Nat).lookupItem key = none :=
    lookupItem_long hkey fun s hs e he => by
      unfold ApeArrayItem.shown at he
      rw [free_of_mem_newPool hs] at he
      exact absurd he (by simp)
  have hfirst : (ApeArray.new 2).addB key 1 =
      ⟨[⟨⟨true, true, some key, some 1⟩, true⟩, ⟨.fresh, false⟩], some 1⟩ := by
    unfold ApeArray.addB ApeArray.addS ApeArray.delete
    rw [hnew]
    rfl
  have hold : ((ApeArray.new 2).addB key 1).lookupItem key = none := by
    refine lookupItem_long hkey ?_
    rw [hfirst]
    simp [ApeArrayItem.shown, ApeArrayItem.fresh]
  have hsecond : ((ApeArray.new 2).addB key 1).addB key 2 =
      ⟨[⟨⟨true, true, some key, some 1⟩, true⟩, ⟨⟨true, true, some key, some 2⟩, false⟩], none⟩ := by
    rw [hfirst] at hold ⊢
    unfold ApeArray.addB ApeArray.addS ApeArray.delete
    rw [hold]
    rfl
  have honce := (hclaim 1 [.addB key 1, .addB key 2]).once 0 1
  have hrun : ApeArray.run 2 [.addB key 1, .addB key 2] =
      ((ApeArray.new 2).addB key 1).addB key 2 := rfl
  rw [hrun, hsecond] at honce
  exact absurd (honce _ _ rfl rfl rfl rfl rfl) (by decide)

end Ape.Table
