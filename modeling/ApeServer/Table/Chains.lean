import ApeServer.Table.Lookup

/-!
# The chains of a hash table

A store through a pointer of the list of all items may go to an item that has been freed.  It changes
a link of that list and nothing else, and no function reads a block that is not an item, so the chains
of the buckets do not notice.  Here such a store is lost, and the run goes on.

* `Machine.append`, `Machine.erase` — the functions where a store to a freed block is lost;
* `Machine.append_of_some`, `Machine.erase_of_some` — they are the functions wherever those get through;
* `Stands` — the invariant: the items are live and in the chains of their buckets;
* `append_stands`, `erase_stands` — a call keeps it, and what it makes of the entries;
* `chains_map` — **the chains of a table with integer keys are a map**.
-/

namespace Ape.Table

open Assoc Links Htable

variable {κ α : Type}

/-! ## Stores that are lost -/

/-- A store; nothing is changed when there is no item at the address, or no address. -/
def Htable.poke (p : Option Nat) (f : HtableItem κ α → HtableItem κ α) (h : Htable κ α) :
    Htable κ α :=
  { h with mem := setAt h.mem p f }

theorem poke_of_store {h h' : Htable κ α} {a : Nat} {f : HtableItem κ α → HtableItem κ α}
    (hstore : h.store a f = some h') : h.poke (some a) f = h' := by
  cases ha : h.mem a with
  | none =>
    unfold store at hstore
    rw [ha] at hstore
    cases hstore
  | some n =>
    rw [store_eq ha] at hstore
    exact Option.some.inj hstore

theorem poke_of_storeIf {h h' : Htable κ α} {p : Option Nat} {f : HtableItem κ α → HtableItem κ α}
    (hstore : h.storeIf p f = some h') : h.poke p f = h' := by
  cases p with
  | none =>
    obtain rfl := Option.some.inj hstore
    unfold poke
    rw [setAt_none]
  | some a => exact poke_of_store hstore

/-- A store through a pointer, or something else when it is `NULL`. -/
theorem elim_poke {p : Option Nat} {g h h' : Htable κ α} {f : HtableItem κ α → HtableItem κ α}
    (hstore : p.elim (some g) (fun a => h.store a f) = some h') :
    (p.elim g fun a => h.poke (some a) f) = h' := by
  cases p with
  | none => exact Option.some.inj hstore
  | some a => exact poke_of_store hstore

namespace Machine

/-- `hashtbl_append64`, as `append`. -/
def append (K : KeyOps κ) (at' : Nat) (key : κ) (structaddr : Option α) (h : Htable κ α) :
    Option (Htable κ α) := do
  let hTmp := h.mallocAddr at'
  let first := h.first
  let h := h.malloc hTmp ⟨key, structaddr, none, first, none⟩
  let h := h.poke first fun it => { it with lprev := some hTmp }
  match ← findKey K h key with
  | some (hDbl, _) => return (h.free hTmp).poke (some hDbl) fun it => { it with addrs := structaddr }
  | none =>
    let h := h.poke (some hTmp) fun it => { it with next := h.table (K.bucket key) }
    return { h with first := some hTmp }.setBucket (K.bucket key) (some hTmp)

/-- `hashtbl_erase64`, as `erase`. -/
def erase (K : KeyOps κ) (key : κ) (h : Htable κ α) : Option (Htable κ α) := do
  match ← findKey K h key with
  | none => return h
  | some (hTmp, hPrev) =>
    let it ← h.mem hTmp
    let h := hPrev.elim (h.setBucket (K.bucket key) it.next) fun a =>
      h.poke (some a) fun it' => { it' with next := it.next }
    let h := it.lprev.elim { h with first := it.lnext } fun a =>
      h.poke (some a) fun it' => { it' with lnext := it.lnext }
    let h := h.poke it.lnext fun it' => { it' with lprev := it.lprev }
    return h.free hTmp

/-- **The functions agree** as long as nothing is stored to freed memory. -/
theorem append_of_some {K : KeyOps κ} {at' : Nat} {key : κ} {v : Option α} {h h' : Htable κ α}
    (happend : Table.append K at' key v h = some h') : append K at' key v h = some h' := by
  unfold Table.append at happend
  obtain ⟨h₁, hh₁, happend⟩ := Option.bind_eq_some_iff.1 happend
  obtain ⟨found, hfound, happend⟩ := Option.bind_eq_some_iff.1 happend
  unfold append
  simp only [poke_of_storeIf hh₁, hfound, bind, Option.bind_some]
  cases found with
  | some found => exact congrArg some (poke_of_store happend)
  | none =>
    obtain ⟨h₂, hh₂, happend⟩ := Option.bind_eq_some_iff.1 happend
    simp only [poke_of_store hh₂]
    exact happend

theorem erase_of_some {K : KeyOps κ} {key : κ} {h h' : Htable κ α}
    (herase : Table.erase K key h = some h') : erase K key h = some h' := by
  unfold Table.erase at herase
  obtain ⟨found, hfound, herase⟩ := Option.bind_eq_some_iff.1 herase
  unfold erase
  simp only [hfound, bind, Option.bind_some]
  cases found with
  | none => exact herase
  | some found =>
    obtain ⟨a, hPrev⟩ := found
    obtain ⟨it, hit, herase⟩ := Option.bind_eq_some_iff.1 herase
    obtain ⟨h₁, hh₁, herase⟩ := Option.bind_eq_some_iff.1 herase
    obtain ⟨h₂, hh₂, herase⟩ := Option.bind_eq_some_iff.1 herase
    obtain ⟨h₃, hh₃, herase⟩ := Option.bind_eq_some_iff.1 herase
    simp only [hit, Option.bind_some, elim_poke hh₁, elim_poke hh₂, poke_of_storeIf hh₃]
    exact herase

/-- The memory behind an erase that finds its key. -/
theorem erase_hit {K : KeyOps κ} {key : κ} {h : Htable κ α} {a : Nat} {hPrev : Option Nat}
    {it : HtableItem κ α} (hfind : findKey K h key = some (some (a, hPrev)))
    (hit : h.mem a = some it) :
    erase K key h = some ⟨erased h.mem hPrev a it, h.brk,
      if it.lprev = none then it.lnext else h.first,
      if hPrev = none then Function.update h.table (K.bucket key) it.next else h.table⟩ := by
  unfold erase
  simp only [hfind, bind, Option.bind_some, hit]
  obtain ⟨k, v, next, lnext, lprev⟩ := it
  cases hPrev <;> cases lprev <;> simp [erased, poke, setBucket, free]

end Machine

/-! ## The chains -/

/-- The items `cells` are all there are, and in the chains of their buckets. -/
structure Stands (K : KeyOps κ) (h : Htable κ α) (cells : List (Nat × κ × Option α)) : Prop where
  alloc : Alloc h (cells.map Prod.fst)
  chained : Chained K h.mem h.table cells

section Stands

variable {K : KeyOps κ} {h : Htable κ α} {cells cs₁ cs₂ : List (Nat × κ × Option α)}
  {μ μ' : Nat → Option (HtableItem κ α)} {table : Nat → Option Nat} {d : Nat} {key : κ}
  {v : Option α}

theorem stands_init (K : KeyOps κ) : Stands K (.init : Htable κ α) [] :=
  ⟨(holds_init K).alloc, (holds_init K).chained⟩

theorem Stands.length_le (hs : Stands K h cells) : cells.length ≤ h.brk := by
  have := hs.alloc.length_le
  rwa [List.length_map] at this

/-- **A new item** in front of its chain. -/
theorem Chained.push (hc : Chained K μ table cells) (hkeeps : ∀ c ∈ cells, Keeps μ μ' c.1)
    {it : HtableItem κ α} (hit : μ' d = some it) (hkey : it.key = key) (haddrs : it.addrs = v)
    (hnext : it.next = table (K.bucket key)) :
    Chained K μ' (Function.update table (K.bucket key) (some d)) ((d, key, v) :: cells) := by
  have hframe := hc.frame hkeeps
  refine ⟨fun c hmem => ?_, fun i => ?_⟩
  · rcases List.mem_cons.1 hmem with rfl | hmem
    · exact ⟨it, hit, hkey, haddrs⟩
    · exact hframe.content c hmem
  · by_cases hi : K.bucket key = i
    · subst hi
      rw [chain_cons_same (c := (d, key, v)) rfl]
      refine ⟨Function.update_self .., it, hit, ?_⟩
      rw [hnext]
      exact hframe.chains (K.bucket key)
    · rw [chain_cons_other hi, Function.update_of_ne (Ne.symm hi)]
      exact hframe.chains i

/-- **A new value** of an item leaves the chains as they are, with that value in its place. -/
theorem Chained.set {a : Nat} {k : κ} {w : Option α}
    (hc : Chained K μ table (cs₁ ++ (a, k, w) :: cs₂))
    (hnodup : ((cs₁ ++ (a, k, w) :: cs₂).map Prod.fst).Nodup)
    (hkeeps : ∀ c ∈ cs₁ ++ (a, k, w) :: cs₂, ∀ n, μ c.1 = some n → ∃ n', μ' c.1 = some n' ∧
      n'.key = n.key ∧ n'.next = n.next ∧ n'.addrs = if c.1 = a then v else n.addrs) :
    Chained K μ' table (cs₁ ++ (a, k, v) :: cs₂) := by
  have hne : ∀ c ∈ cs₁ ++ cs₂, c.1 ≠ a := by
    rw [List.map_append, List.map_cons, List.nodup_middle, ← List.map_append] at hnodup
    intro c hmem heq
    have hfst : c.1 ∈ (cs₁ ++ cs₂).map Prod.fst := List.mem_map_of_mem hmem
    rw [heq] at hfst
    exact (List.nodup_cons.1 hnodup).1 hfst
  have hother : ∀ c ∈ cs₁ ++ cs₂, c ∈ cs₁ ++ (a, k, w) :: cs₂ → ∃ it, μ' c.1 = some it ∧
      it.key = c.2.1 ∧ it.addrs = c.2.2 := by
    intro c hmem hold
    obtain ⟨n, hn, hkey, haddrs⟩ := hc.content c hold
    obtain ⟨n', hn', hkey', -, haddrs'⟩ := hkeeps c hold n hn
    exact ⟨n', hn', hkey'.trans hkey, (haddrs'.trans (if_neg (hne c hmem))).trans haddrs⟩
  refine ⟨fun c hmem => ?_, fun i => ?_⟩
  · rcases List.mem_append.1 hmem with hmem | hmem
    · exact hother c (List.mem_append_left _ hmem) (List.mem_append_left _ hmem)
    · rcases List.mem_cons.1 hmem with rfl | hmem
      · obtain ⟨n, hn, hkey, -⟩ := hc.content (a, k, w) (by simp)
        obtain ⟨n', hn', hkey', -, haddrs'⟩ := hkeeps (a, k, w) (by simp) n hn
        exact ⟨n', hn', hkey'.trans hkey, haddrs'.trans (if_pos rfl)⟩
      · exact hother c (List.mem_append_right _ hmem)
          (List.mem_append_right _ (List.mem_cons_of_mem _ hmem))
  · rw [chain_overwrite i cs₁ cs₂ a k v w]
    refine (hc.chains i).frame fun x hx n hn => ?_
    obtain ⟨c, hmem, rfl, -⟩ := mem_chain hx
    obtain ⟨n', hn', -, hnext, -⟩ := hkeeps c hmem n hn
    exact ⟨n', hn', hnext⟩

/-- The table behind `malloc` and the store to the first item. -/
structure Fresh (h h₂ : Htable κ α) (d : Nat) (key : κ) (v : Option α) : Prop where
  table : h₂.table = h.table
  brk : h.brk ≤ h₂.brk ∧ d < h₂.brk
  new : ∃ it, h₂.mem d = some it ∧ it.key = key ∧ it.addrs = v
  keeps : ∀ x, x ≠ d → Keeps h.mem h₂.mem x
  none : ∀ x, x ≠ d → h.mem x = none → h₂.mem x = none

theorem fresh_malloc (h : Htable κ α) (d : Nat) (key : κ) (v : Option α) :
    Fresh h ((h.malloc d ⟨key, v, none, h.first, none⟩).poke h.first
      fun it => { it with lprev := some d }) d key v := by
  have hnew : (h.malloc d ⟨key, v, none, h.first, none⟩).mem d =
      some ⟨key, v, none, h.first, none⟩ := Function.update_self ..
  have hother : ∀ x, x ≠ d → (h.malloc d ⟨key, v, none, h.first, none⟩).mem x = h.mem x :=
    fun x hx => Function.update_of_ne hx _ _
  refine ⟨rfl, ⟨Nat.le_max_left _ _, ?_⟩, ?_, fun x hx n hn => ?_, fun x hx hn => ?_⟩
  · exact Nat.lt_of_lt_of_le (Nat.lt_succ_self d) (Nat.le_max_right _ _)
  · refine ⟨_, setAt_of_some hnew _ _, ?_⟩
    split <;> exact ⟨rfl, rfl⟩
  · refine ⟨_, setAt_of_some ((hother x hx).trans hn) _ _, ?_⟩
    split <;> exact ⟨rfl, rfl, rfl⟩
  · exact setAt_of_none ((hother x hx).trans hn) _ _

/-- The new item is at no address of the others. -/
theorem Stands.ne (hs : Stands K h cells) (hd : h.mem d = none) {c : Nat × κ × Option α}
    (hc : c ∈ cells) : c.1 ≠ d := by
  rintro rfl
  obtain ⟨it, hit, -⟩ := hs.chained.content c hc
  rw [hd] at hit
  cases hit

/-- An append that does not find its key. -/
theorem Stands.push (hs : Stands K h cells) (hd : h.mem d = none) {h₂ : Htable κ α}
    (hfresh : Fresh h h₂ d key v) :
    Stands K ({ h₂.poke (some d) fun it => { it with next := h₂.table (K.bucket key) } with
      first := some d }.setBucket (K.bucket key) (some d)) ((d, key, v) :: cells) := by
  obtain ⟨it, hit, hkey, haddrs⟩ := hfresh.new
  have hother : ∀ x, x ≠ d → (h₂.poke (some d) fun it =>
      { it with next := h₂.table (K.bucket key) }).mem x = h₂.mem x := by
    intro x hx
    exact if_neg fun heq => hx (Option.some.inj heq).symm
  constructor
  · refine ⟨List.nodup_cons.2 ⟨fun hmem => ?_, hs.alloc.nodup⟩, fun x n hn => ?_, fun x hx => ?_⟩
    · obtain ⟨c, hc, heq⟩ := List.mem_map.1 hmem
      exact hs.ne hd hc heq
    · by_cases hxd : x = d
      · rw [hxd]
        exact List.mem_cons_self ..
      · refine List.mem_cons_of_mem _ ?_
        cases hx : h.mem x with
        | none =>
          have hnone := (hother x hxd).trans (hfresh.none x hxd hx)
          exact absurd (hn.symm.trans hnone) (by simp)
        | some m => exact hs.alloc.live x m hx
    · rcases List.mem_cons.1 hx with rfl | hx
      · exact hfresh.brk.2
      · exact Nat.lt_of_lt_of_le (hs.alloc.below x hx) hfresh.brk.1
  · have hset := setAt_of_some hit (some d) fun it =>
      { it with next := h₂.table (K.bucket key) }
    rw [if_pos rfl] at hset
    have hkeeps : ∀ c ∈ cells, Keeps h.mem (h₂.poke (some d) fun it =>
        { it with next := h₂.table (K.bucket key) }).mem c.1 := by
      intro c hc
      unfold Keeps
      rw [hother c.1 (hs.ne hd hc)]
      exact hfresh.keeps c.1 (hs.ne hd hc)
    have hpush := hs.chained.push hkeeps hset hkey haddrs (congrFun hfresh.table (K.bucket key))
    show Chained K _ (Function.update h₂.table (K.bucket key) (some d)) _
    rw [hfresh.table] at hpush ⊢
    exact hpush

/-- An append that finds its key leaves the table standing, with the new value. -/
theorem Stands.set {a : Nat} {k : κ} {w : Option α} (hs : Stands K h (cs₁ ++ (a, k, w) :: cs₂))
    (hd : h.mem d = none) {h₂ : Htable κ α} (hfresh : Fresh h h₂ d key v) :
    Stands K ((h₂.free d).poke (some a) fun it => { it with addrs := v })
      (cs₁ ++ (a, k, v) :: cs₂) := by
  have hfst : (cs₁ ++ (a, k, v) :: cs₂).map Prod.fst = (cs₁ ++ (a, k, w) :: cs₂).map Prod.fst := by
    simp
  have hfree : ∀ x, x ≠ d → (h₂.free d).mem x = h₂.mem x :=
    fun x hx => Function.update_of_ne hx _ _
  constructor
  · rw [hfst]
    refine ⟨hs.alloc.nodup, fun x n hn => ?_, fun x hx => ?_⟩
    · cases hx : h.mem x with
      | some m => exact hs.alloc.live x m hx
      | none =>
        have hnone : (h₂.free d).mem x = none := by
          by_cases hxd : x = d
          · rw [hxd]
            exact Function.update_self ..
          · rw [hfree x hxd]
            exact hfresh.none x hxd hx
        exact absurd (hn.symm.trans (setAt_of_none hnone _ _)) (by simp)
    · exact Nat.lt_of_lt_of_le (hs.alloc.below x hx) hfresh.brk.1
  · show Chained K _ h₂.table _
    rw [hfresh.table]
    refine hs.chained.set hs.alloc.nodup fun c hc n hn => ?_
    · obtain ⟨n', hn', hkey, haddrs, hnext⟩ := hfresh.keeps c.1 (hs.ne hd hc) n hn
      refine ⟨_, setAt_of_some ((hfree c.1 (hs.ne hd hc)).trans hn') _ _, ?_⟩
      by_cases hca : c.1 = a
      · rw [if_pos (congrArg some hca.symm), if_pos hca]
        exact ⟨hkey, hnext, rfl⟩
      · rw [if_neg fun heq => hca (Option.some.inj heq).symm, if_neg hca]
        exact ⟨hkey, hnext, haddrs⟩

/-- **An append** puts an entry in front or changes the value of one. -/
theorem append_stands (hs : Stands K h cells) (at' : Nat) (key : κ) (v : Option α) :
    ∃ h' cells', Machine.append K at' key v h = some h' ∧ Stands K h' cells' ∧
      cells'.map Prod.snd = (Book.append K key v ⟨cells.map Prod.snd, false⟩).entries := by
  have hd := hs.alloc.mallocAddr_free at'
  have hfresh := fresh_malloc h (h.mallocAddr at') key v
  have hlen := hs.length_le.trans hfresh.brk.1
  have hchained : Chained K _ _ cells := hs.chained.frame fun c hc => hfresh.keeps c.1 (hs.ne hd hc)
  rw [← hfresh.table] at hchained
  have hany : ((cells.map Prod.snd).any fun e => K.entry key e.1) =
      cells.any fun c => K.entry key c.2.1 := List.any_map
  unfold Machine.append Book.append
  simp only [hany]
  rcases entries_cases K key cells with hmiss | ⟨cs₁, ⟨a, k, w⟩, cs₂, rfl, hmiss, hhit⟩
  · have hnone : (cells.any fun c => K.entry key c.2.1) = false := by
      rw [List.any_eq_false]
      intro c hc
      simp [hmiss c hc]
    rw [findKey_miss hchained hlen hmiss, hnone]
    exact ⟨_, _, rfl, hs.push hd hfresh, rfl⟩
  · have hsome : ((cs₁ ++ (a, k, w) :: cs₂).any fun c => K.entry key c.2.1) = true := by
      rw [List.any_eq_true]
      exact ⟨(a, k, w), by simp, hhit⟩
    rw [findKey_hit hchained hlen hmiss hhit, hsome, if_pos rfl, overwrite_split hmiss hhit]
    exact ⟨_, _, rfl, hs.set hd hfresh, rfl⟩

/-- **An erase** takes the entry of its key away. -/
theorem erase_stands (hs : Stands K h cells) (key : κ) :
    ∃ h' cells', Machine.erase K key h = some h' ∧ Stands K h' cells' ∧
      cells'.map Prod.snd = (cells.map Prod.snd).eraseP fun e => K.entry key e.1 := by
  rcases entries_cases K key cells with hmiss | ⟨cs₁, ⟨a, k, w⟩, cs₂, rfl, hmiss, hhit⟩
  · refine ⟨h, cells, ?_, hs, ?_⟩
    · unfold Machine.erase
      rw [findKey_miss hs.chained hs.length_le hmiss]
      rfl
    · refine (List.eraseP_of_forall_not fun e he => ?_).symm
      obtain ⟨c, hc, rfl⟩ := List.mem_map.1 he
      simp [hmiss c hc]
  · obtain ⟨it, hit, -⟩ := hs.chained.content (a, k, w) (by simp)
    have hk : K.bucket k = K.bucket key := (K.entry_iff.1 hhit).1
    have hnodup := hs.alloc.nodup
    have hmem : ∀ x, x ∈ (cs₁ ++ (a, k, w) :: cs₂).map Prod.fst ↔
        x = a ∨ x ∈ (cs₁ ++ cs₂).map Prod.fst := by
      intro x
      rw [List.map_append, List.map_cons, List.map_append, List.mem_append, List.mem_append,
        List.mem_cons, or_left_comm]
    refine ⟨_, cs₁ ++ cs₂,
      Machine.erase_hit (findKey_hit hs.chained hs.length_le hmiss hhit) hit, ⟨?_, ?_⟩,
      (eraseP_split hmiss hhit).symm⟩
    · rw [List.map_append, List.map_cons, List.nodup_middle, ← List.map_append] at hnodup
      refine ⟨(List.nodup_cons.1 hnodup).2, fun x n hn => ?_, fun x hx => ?_⟩
      · have hxa : x ≠ a := by
          rintro rfl
          exact absurd (hn.symm.trans erased_self) (by simp)
        cases hx : h.mem x with
        | none => exact absurd (hn.symm.trans (erased_of_none hx)) (by simp)
        | some m => exact ((hmem x).1 (hs.alloc.live x m hx)).resolve_left hxa
      · exact hs.alloc.below x ((hmem x).2 (.inr hx))
    · exact hs.chained.erased hk hnodup hit rfl

end Stands

/-! ## Integer keys -/

section Integers

/-- `hashtbl_append64`. -/
def Machine.hashtblAppend64 (at' : Nat) (key : UInt64) (structaddr : Option α)
    (h : Htable UInt64 α) : Option (Htable UInt64 α) :=
  append intKeys at' key structaddr h

/-- `hashtbl_erase64`. -/
def Machine.hashtblErase64 (key : UInt64) (h : Htable UInt64 α) : Option (Htable UInt64 α) :=
  erase intKeys key h

/-- A call to one of the two. -/
def Machine.apply (h : Htable UInt64 α) : Call .int α → Option (Htable UInt64 α)
  | .append at' key structaddr => hashtblAppend64 at' key structaddr h
  | .erase key => hashtblErase64 key h

/-- A sequence of calls on a new table. -/
def Machine.run (calls : List (Call .int α)) : Option (Htable UInt64 α) :=
  calls.foldlM apply .init

/-- The key of a call. -/
def Call.key64 : Call .int α → UInt64
  | .append _ key _ => key
  | .erase key => key

/-- What was last appended under a key and not erased since. -/
def lastAppended64 (calls : List (Call .int α)) (key : UInt64) : Option α :=
  (lastLeft (fun k : Key .int => (show UInt64 from k) == key) calls).join

/-- An item of the chain of a bucket. -/
def InChain (h : Htable κ α) (i a : Nat) (it : HtableItem κ α) : Prop :=
  h.mem a = some it ∧ ∃ as, Seg h.mem HtableItem.next (h.table i) as none ∧ a ∈ as

/-- What is promised of the chains of a table behind some calls. -/
structure ChainsMap (calls : List (Call .int α)) (h : Htable UInt64 α) : Prop where
  seeks : ∀ key, hashtblSeek64 key h = some (lastAppended64 calls key)
  ended : ∀ i, ∃ as, Seg h.mem HtableItem.next (h.table i) as none ∧ as.Nodup
  placed : ∀ i a it, InChain h i a it → it.key.toNat % 8192 = i
  once : ∀ i j a b it jt, InChain h i a it → InChain h j b jt → it.key = jt.key → a = b

theorem intKeys_entry (key : UInt64) : intKeys.entry key = fun k => k == key := by
  funext k
  by_cases hk : k = key
  · subst hk
    simp [KeyOps.entry, intKeys]
  · simp [KeyOps.entry, intKeys, hk]

/-- Behind any calls the table stands, and has for each key what was left last. -/
theorem run_stands (calls : List (Call .int α)) :
    ∃ h cells, Machine.run calls = some h ∧ Stands intKeys h cells ∧
      Distinct intKeys (cells.map Prod.snd) ∧ ∀ key,
        (first (intKeys.entry key) (cells.map Prod.snd)).map Prod.snd =
          @lastLeft α .int (intKeys.entry key) calls := by
  induction calls using List.reverseRecOn with
  | nil => exact ⟨_, [], rfl, stands_init _, List.Pairwise.nil, fun _ => rfl⟩
  | append_singleton calls call ih =>
    obtain ⟨h, cells, hrun, hs, hdistinct, hfirst⟩ := ih
    unfold Machine.run at hrun ⊢
    rw [List.foldlM_append, hrun]
    simp only [Option.bind_eq_bind, Option.bind_some, List.foldlM_cons, List.foldlM_nil, bind_pure]
    cases call with
    | append at' key v =>
      change UInt64 at key
      obtain ⟨h', cells', happend, hs', hcells'⟩ := append_stands hs at' key v
      refine ⟨h', cells', happend, hs', ?_, fun q => ?_⟩
      · rw [hcells']
        exact Book.append_distinct hdistinct key v
      · refine Eq.trans ?_ (@lastLeft_snoc α .int (intKeys.entry q) calls (.append at' key v)).symm
        show _ = bif intKeys.entry q key then some v else @lastLeft α .int (intKeys.entry q) calls
        rw [hcells', Book.first_append, ← hfirst q, Bool.cond_eq_ite]
    | erase key =>
      change UInt64 at key
      obtain ⟨h', cells', herase, hs', hcells'⟩ := erase_stands hs key
      refine ⟨h', cells', herase, hs', ?_, fun q => ?_⟩
      · rw [hcells']
        exact hdistinct.eraseP _
      · refine Eq.trans ?_ (@lastLeft_snoc α .int (intKeys.entry q) calls (.erase key)).symm
        show _ = bif intKeys.entry q key then none else @lastLeft α .int (intKeys.entry q) calls
        rw [hcells', first_eraseP hdistinct, ← hfirst q, Bool.cond_eq_ite,
          apply_ite (Option.map Prod.snd)]
        rfl

/-- A table that stands finds for each key what its chains have. -/
theorem Stands.chainsMap {h : Htable UInt64 α} {cells : List (Nat × UInt64 × Option α)}
    {calls : List (Call .int α)} (hs : Stands intKeys h cells)
    (hdistinct : Distinct intKeys (cells.map Prod.snd))
    (hfirst : ∀ key, (first (intKeys.entry key) (cells.map Prod.snd)).map Prod.snd =
      @lastLeft α .int (intKeys.entry key) calls) : ChainsMap calls h := by
  -- an item of a chain is that of a cell of the bucket
  have hcell : ∀ i a it, InChain h i a it →
      ∃ c ∈ cells, c.1 = a ∧ intKeys.bucket c.2.1 = i ∧ it.key = c.2.1 := by
    rintro i a it ⟨hit, as, hseg, ha⟩
    rw [hseg.unique (hs.chained.chains i)] at ha
    obtain ⟨c, hc, rfl, hi⟩ := mem_chain ha
    obtain ⟨it', hit', hkey, -⟩ := hs.chained.content c hc
    obtain rfl := Option.some.inj (hit.symm.trans hit')
    exact ⟨c, hc, rfl, hi, hkey⟩
  refine ⟨fun key => ?_, fun i => ?_, fun i a it hin => ?_, fun i j a b it jt hin hjn hsame => ?_⟩
  · have hseek := seek_chained hs.chained hs.length_le key
    rw [hfirst key, intKeys_entry] at hseek
    exact hseek
  · exact ⟨_, hs.chained.chains i, hs.alloc.nodup.sublist (chain_sublist i cells)⟩
  · obtain ⟨c, -, -, hi, hkey⟩ := hcell i a it hin
    rw [hkey]
    exact hi
  · obtain ⟨c, hc, rfl, -, hkey⟩ := hcell i a it hin
    obtain ⟨d, hd, rfl, -, hkey'⟩ := hcell j b jt hjn
    have hkeys : (cells.map fun c => c.2.1).Nodup := by
      unfold Distinct at hdistinct
      rw [List.pairwise_map] at hdistinct
      refine List.pairwise_map.2 (hdistinct.imp fun {e e'} hne heq => ?_)
      rw [heq, intKeys.entry_refl] at hne
      cases hne
    have heq : c = d := List.inj_on_of_nodup_map hkeys hc hd (hkey.symm.trans (hsame.trans hkey'))
    rw [heq]

/-- **The chains of a table with integer keys are a map**: behind any calls a lookup returns what was
last appended under its key, every key is in at most one item, in the bucket that belongs to it, and a
call changes no lookup but that of its key. -/
theorem chains_map (calls : List (Call .int α)) :
    (∃ h, Machine.run calls = some h ∧ ChainsMap calls h) ∧
      ∀ (call : Call .int α) h h', Machine.run calls = some h →
        Machine.run (calls ++ [call]) = some h' → ∀ key, call.key64 ≠ key →
          hashtblSeek64 key h' = hashtblSeek64 key h := by
  have hmap : ∀ calls : List (Call .int α), ∃ h, Machine.run calls = some h ∧ ChainsMap calls h := by
    intro calls
    obtain ⟨h, cells, hrun, hs, hdistinct, hfirst⟩ := run_stands calls
    exact ⟨h, hrun, hs.chainsMap hdistinct hfirst⟩
  refine ⟨hmap calls, fun call h h' hrun hrun' key hkey => ?_⟩
  obtain ⟨g, hg, hmap₀⟩ := hmap calls
  obtain ⟨g', hg', hmap₁⟩ := hmap (calls ++ [call])
  obtain rfl := Option.some.inj (hrun.symm.trans hg)
  obtain rfl := Option.some.inj (hrun'.symm.trans hg')
  rw [hmap₀.seeks, hmap₁.seeks]
  unfold lastAppended64
  rw [lastLeft_snoc]
  have hother : (call.key.any fun k : Key .int => (show UInt64 from k) == key) = false := by
    cases call with
    | append at' k v => exact beq_false_of_ne hkey
    | erase k => exact beq_false_of_ne hkey
  rw [hother]
  rfl

/-- An append, one that overwrites, and an erase, which stores to the item the second has freed. -/
def freedStore : List (Call .int Nat) :=
  [.append 0 (5 : UInt64) (some 1), .append 1 (5 : UInt64) (some 2), .erase (5 : UInt64)]

example : (run 0 freedStore).isNone ∧ (Machine.run freedStore).bind (hashtblSeek64 5) = some none := by
  decide

end Integers

end Ape.Table
