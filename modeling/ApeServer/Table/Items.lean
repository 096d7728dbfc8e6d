import ApeServer.Table.Hash

/-!
# The items of a hash table

A table is a book of entries, the newest first: the list of all items holds them in that order, and
the chain of a bucket holds those of its bucket.  An append that finds its key leaves the newest item
linked back to the item it has freed; an erase of the newest item then writes to freed memory.

* `Book` — the entries and whether the newest one is linked back to freed memory;
* `Holds` — a table holds a book;
* `append_holds`, `erase_holds` — the functions are those of the book;
* `run_holds` — **a sequence of calls** either holds its book or writes to freed memory.
-/

namespace Ape.Table

open Links Htable

/-! ## Books -/

/-- The entries of a table, the newest first. -/
structure Book (κ α : Type) where
  entries : List (κ × Option α)
  stale : Bool

section Book

variable {κ α : Type} (K : KeyOps κ)

/-- Keys of one bucket that are the same: the table takes them for each other. -/
def KeyOps.entry (key k : κ) : Bool := K.bucket k == K.bucket key && K.same k key

/-- The value of the first entry with a key is replaced. -/
def overwrite (P : κ → Bool) (v : Option α) : List (κ × Option α) → List (κ × Option α)
  | [] => []
  | e :: es => if P e.1 then (e.1, v) :: es else e :: overwrite P v es

namespace Book

/-- An append. -/
def append (key : κ) (v : Option α) (b : Book κ α) : Book κ α :=
  if b.entries.any fun e => K.entry key e.1 then ⟨overwrite (K.entry key) v b.entries, true⟩
  else ⟨(key, v) :: b.entries, false⟩

/-- An erase; `none` is a write to freed memory. -/
def erase (key : κ) (b : Book κ α) : Option (Book κ α) :=
  match b.entries with
  | [] => some b
  | e :: es =>
    if K.entry key e.1 then if b.stale then none else some ⟨es, false⟩
    else some ⟨e :: es.eraseP fun e => K.entry key e.1, b.stale⟩

end Book

end Book

/-! ## Memory -/

section Memory

variable {κ α : Type} {h : Htable κ α}

/-- A memory behind a store through a pointer. -/
def setAt (μ : Nat → Option (HtableItem κ α)) (p : Option Nat)
    (f : HtableItem κ α → HtableItem κ α) (x : Nat) : Option (HtableItem κ α) :=
  if p = some x then (μ x).map f else μ x

@[simp] theorem setAt_none (μ : Nat → Option (HtableItem κ α)) (f : HtableItem κ α → HtableItem κ α) :
    setAt μ none f = μ := by
  funext x
  exact if_neg (by simp)

theorem setAt_of_some {μ : Nat → Option (HtableItem κ α)} {x : Nat} {n : HtableItem κ α}
    (hx : μ x = some n) (p : Option Nat) (f : HtableItem κ α → HtableItem κ α) :
    setAt μ p f x = some (if p = some x then f n else n) := by
  unfold setAt
  split <;> simp [hx]

theorem setAt_of_none {μ : Nat → Option (HtableItem κ α)} {x : Nat} (hx : μ x = none)
    (p : Option Nat) (f : HtableItem κ α → HtableItem κ α) : setAt μ p f x = none := by
  unfold setAt
  split <;> simp [hx]

theorem store_eq {a : Nat} {n : HtableItem κ α} (ha : h.mem a = some n)
    (f : HtableItem κ α → HtableItem κ α) :
    h.store a f = some { h with mem := setAt h.mem (some a) f } := by
  unfold store
  rw [ha, Option.map_some]
  congr 2
  funext x
  unfold setAt
  by_cases hx : x = a
  · subst hx
    simp [ha]
  · rw [Function.update_of_ne hx, if_neg (by simpa using Ne.symm hx)]

theorem storeIf_eq {p : Option Nat} (hp : ∀ a, p = some a → ∃ n, h.mem a = some n)
    (f : HtableItem κ α → HtableItem κ α) :
    h.storeIf p f = some { h with mem := setAt h.mem p f } := by
  cases p with
  | none =>
    rw [setAt_none]
    rfl
  | some a =>
    obtain ⟨n, hn⟩ := hp a rfl
    exact store_eq hn f

end Memory

/-! ## Tables that hold a book -/

section Holds

variable {κ α : Type}

/-- The addresses of the items of a bucket. -/
def chain (K : KeyOps κ) (i : Nat) (cells : List (Nat × κ × Option α)) : List Nat :=
  (cells.filter fun c => K.bucket c.2.1 = i).map Prod.fst

/-- The items `cells` are in memory, and in the chains of their buckets. -/
structure Chained (K : KeyOps κ) (μ : Nat → Option (HtableItem κ α)) (table : Nat → Option Nat)
    (cells : List (Nat × κ × Option α)) : Prop where
  content : ∀ c ∈ cells, ∃ it, μ c.1 = some it ∧ it.key = c.2.1 ∧ it.addrs = c.2.2
  chains : ∀ i, Seg μ HtableItem.next (table i) (chain K i cells) none

/-- The items `cells` are in the list of all items; what the first is linked back to is `before`. -/
structure Listed (μ : Nat → Option (HtableItem κ α)) (first before : Option Nat)
    (addresses : List Nat) : Prop where
  forth : Seg μ HtableItem.lnext first addresses none
  back : ∃ last, Seg μ HtableItem.lprev last addresses.reverse before

/-- The items `cells` are all there are. -/
structure Alloc (h : Htable κ α) (addresses : List Nat) : Prop where
  nodup : addresses.Nodup
  live : ∀ a n, h.mem a = some n → a ∈ addresses
  below : ∀ a ∈ addresses, a < h.brk

/-- The table holds a book; a stale one has entries, and links back to freed memory. -/
structure Holds (K : KeyOps κ) (h : Htable κ α) (b : Book κ α) (cells : List (Nat × κ × Option α))
    (before : Option Nat) : Prop where
  entries : cells.map Prod.snd = b.entries
  alloc : Alloc h (cells.map Prod.fst)
  chained : Chained K h.mem h.table cells
  listed : Listed h.mem h.first before (cells.map Prod.fst)
  fresh : b.stale = false → before = none
  stale : b.stale = true → cells ≠ [] ∧ ∃ d, before = some d ∧ h.mem d = none

theorem holds_init (K : KeyOps κ) : Holds K (.init : Htable κ α) ⟨[], false⟩ [] none where
  entries := rfl
  alloc := ⟨List.nodup_nil, fun _ _ h => absurd h (by simp [Htable.init]), by simp⟩
  chained := ⟨by simp, fun _ => rfl⟩
  listed := ⟨rfl, none, rfl⟩
  fresh := fun _ => rfl
  stale := fun h => Bool.noConfusion h

variable {K : KeyOps κ} {h : Htable κ α} {cells cs₁ cs₂ : List (Nat × κ × Option α)}
  {μ μ' : Nat → Option (HtableItem κ α)} {table : Nat → Option Nat}

theorem mem_chain {i a : Nat} (ha : a ∈ chain K i cells) :
    ∃ c ∈ cells, c.1 = a ∧ K.bucket c.2.1 = i := by
  obtain ⟨c, hc, rfl⟩ := List.mem_map.1 ha
  obtain ⟨hmem, hi⟩ := List.mem_filter.1 hc
  exact ⟨c, hmem, rfl, of_decide_eq_true hi⟩

theorem chain_subset {i a : Nat} (ha : a ∈ chain K i cells) : a ∈ cells.map Prod.fst := by
  obtain ⟨c, hc, rfl, -⟩ := mem_chain ha
  exact List.mem_map_of_mem hc

theorem chain_sublist (i : Nat) (cells : List (Nat × κ × Option α)) :
    (chain K i cells).Sublist (cells.map Prod.fst) :=
  List.filter_sublist.map _

theorem chain_append (i : Nat) (cs₁ cs₂ : List (Nat × κ × Option α)) :
    chain K i (cs₁ ++ cs₂) = chain K i cs₁ ++ chain K i cs₂ := by
  simp [chain]

theorem chain_cons_same {i : Nat} {c : Nat × κ × Option α} (hc : K.bucket c.2.1 = i)
    (cs : List (Nat × κ × Option α)) : chain K i (c :: cs) = c.1 :: chain K i cs := by
  simp [chain, hc]

theorem chain_cons_other {i : Nat} {c : Nat × κ × Option α} (hc : K.bucket c.2.1 ≠ i)
    (cs : List (Nat × κ × Option α)) : chain K i (c :: cs) = chain K i cs := by
  simp [chain, hc]

theorem Alloc.length_le {addresses : List Nat} (ha : Alloc h addresses) :
    addresses.length ≤ h.brk := by
  have hsub : addresses.toFinset ⊆ Finset.range h.brk := by
    intro a hmem
    exact Finset.mem_range.2 (ha.below a (List.mem_toFinset.1 hmem))
  have := Finset.card_le_card hsub
  rwa [List.toFinset_card_of_nodup ha.nodup, Finset.card_range] at this

/-! ## The loop over a chain -/

theorem Chained.entry_eq {key : κ} {c : Nat × κ × Option α} {n : HtableItem κ α}
    (hc : Chained K μ table cells) (hmem : c ∈ cells) (hb : K.bucket c.2.1 = K.bucket key)
    (hn : μ c.1 = some n) : K.same n.key key = K.entry key c.2.1 := by
  obtain ⟨it, hit, hkey, -⟩ := hc.content c hmem
  obtain rfl := Option.some.inj (hn.symm.trans hit)
  unfold KeyOps.entry
  rw [hkey, beq_iff_eq.2 hb, Bool.true_and]

theorem Chained.miss {key : κ} (hc : Chained K μ table cells)
    (hsub : ∀ c ∈ cs₁, c ∈ cells) (hmiss : ∀ c ∈ cs₁, K.entry key c.2.1 = false) :
    ∀ a ∈ chain K (K.bucket key) cs₁, ∀ n, μ a = some n → K.same n.key key = false := by
  intro a ha n hn
  obtain ⟨c, hmem, rfl, hb⟩ := mem_chain ha
  rw [hc.entry_eq (hsub c hmem) hb hn, hmiss c hmem]

theorem chain_length_le (i : Nat) (cells : List (Nat × κ × Option α)) :
    (chain K i cells).length ≤ cells.length := by
  unfold chain
  rw [List.length_map]
  exact List.length_filter_le _ _

theorem findKey_miss {key : κ} (hc : Chained K h.mem h.table cells) (hlen : cells.length ≤ h.brk)
    (hmiss : ∀ c ∈ cells, K.entry key c.2.1 = false) : findKey K h key = some none :=
  search_miss (hc.chains _) (hc.miss (fun _ hmem => hmem) hmiss)
    ((chain_length_le _ _).trans hlen) none

theorem findKey_hit {key : κ} {c : Nat × κ × Option α}
    (hc : Chained K h.mem h.table (cs₁ ++ c :: cs₂)) (hlen : (cs₁ ++ c :: cs₂).length ≤ h.brk)
    (hmiss : ∀ c ∈ cs₁, K.entry key c.2.1 = false) (hhit : K.entry key c.2.1 = true) :
    findKey K h key = some (some (c.1, (chain K (K.bucket key) cs₁).getLast?)) := by
  have hb : K.bucket c.2.1 = K.bucket key := by
    unfold KeyOps.entry at hhit
    exact beq_iff_eq.1 (Bool.and_eq_true_iff.1 hhit).1
  have hmem : c ∈ cs₁ ++ c :: cs₂ := List.mem_append_right _ (List.mem_cons_self ..)
  obtain ⟨n, hn, -, -⟩ := hc.content c hmem
  have hseg := hc.chains (K.bucket key)
  rw [chain_append, chain_cons_same hb] at hseg
  have hfuel : (chain K (K.bucket key) cs₁).length < h.brk := by
    have := chain_length_le (K := K) (K.bucket key) cs₁
    rw [List.length_append, List.length_cons] at hlen
    omega
  have hsearch := search_hit hseg
    (hc.miss (fun x hx => List.mem_append_left _ hx) hmiss) hn
    ((hc.entry_eq hmem hb hn).trans hhit) hfuel none
  rw [Option.or_none] at hsearch
  exact hsearch

/-- The entries of a book that do or do not have a key. -/
theorem entries_cases (K : KeyOps κ) (key : κ) (cells : List (Nat × κ × Option α)) :
    (∀ c ∈ cells, K.entry key c.2.1 = false) ∨
      ∃ cs₁ c cs₂, cells = cs₁ ++ c :: cs₂ ∧ (∀ x ∈ cs₁, K.entry key x.2.1 = false) ∧
        K.entry key c.2.1 = true := by
  induction cells with
  | nil => exact .inl (by simp)
  | cons c cs ih =>
    cases hc : K.entry key c.2.1 with
    | true => exact .inr ⟨[], c, cs, rfl, by simp, hc⟩
    | false =>
      rcases ih with hmiss | ⟨cs₁, d, cs₂, rfl, hmiss, hhit⟩
      · exact .inl (by simpa [hc] using fun a b c h => hmiss (a, b, c) h)
      · exact .inr ⟨c :: cs₁, d, cs₂, rfl, by simpa [hc] using fun a b c h => hmiss (a, b, c) h, hhit⟩

/-! ## Stores that keep the chains -/

/-- A store that changes neither keys, values nor chains. -/
def Keeps (μ μ' : Nat → Option (HtableItem κ α)) (a : Nat) : Prop :=
  ∀ n, μ a = some n → ∃ n', μ' a = some n' ∧ n'.key = n.key ∧ n'.addrs = n.addrs ∧ n'.next = n.next

theorem Chained.frame (hc : Chained K μ table cells) (hkeeps : ∀ c ∈ cells, Keeps μ μ' c.1) :
    Chained K μ' table cells := by
  refine ⟨fun c hmem => ?_, fun i => (hc.chains i).frame fun a ha => ?_⟩
  · obtain ⟨it, hit, hkey, haddrs⟩ := hc.content c hmem
    obtain ⟨it', hit', hkey', haddrs', -⟩ := hkeeps c hmem it hit
    exact ⟨it', hit', hkey'.trans hkey, haddrs'.trans haddrs⟩
  · obtain ⟨c, hmem, rfl, -⟩ := mem_chain ha
    intro n hn
    obtain ⟨n', hn', -, -, hnext⟩ := hkeeps c hmem n hn
    exact ⟨n', hn', hnext⟩

/-! ## Appends -/

/-- The first address is the last of the reversed list only. -/
theorem head_not_mem_dropLast {as : List Nat} (hnodup : as.Nodup) {a : Nat} (ha : as.head? = some a) :
    a ∉ as.reverse.dropLast := by
  cases as with
  | nil => exact absurd ha (by simp)
  | cons b as =>
    obtain rfl := Option.some.inj ha
    rw [List.reverse_cons, List.dropLast_concat, List.mem_reverse]
    exact (List.nodup_cons.1 hnodup).1

theorem Alloc.mallocAddr_free {addresses : List Nat} (ha : Alloc h addresses) (at' : Nat) :
    h.mem (h.mallocAddr at') = none := by
  unfold mallocAddr
  split
  · next hfree => exact Option.isNone_iff_eq_none.1 hfree
  · cases hbrk : h.mem h.brk with
    | none => rfl
    | some n => exact absurd (ha.below _ (ha.live _ n hbrk)) (Nat.lt_irrefl _)

/-- The table behind `malloc` and the first store: the new item is at `d`, and the first item is
linked back to it. -/
structure Prepared (h h₂ : Htable κ α) (addresses : List Nat) (d : Nat) (key : κ)
    (v : Option α) : Prop where
  first : h₂.first = h.first
  table : h₂.table = h.table
  brk : h.brk ≤ h₂.brk ∧ d < h₂.brk
  new : h₂.mem d = some ⟨key, v, none, h.first, none⟩
  old : ∀ a ∈ addresses, ∀ n, h.mem a = some n →
    h₂.mem a = some { n with lprev := if h.first = some a then some d else n.lprev }
  other : ∀ a, a ∉ addresses → a ≠ d → h₂.mem a = none

theorem exists_prepared {addresses : List Nat} {before : Option Nat} (ha : Alloc h addresses)
    (hl : Listed h.mem h.first before addresses) {d : Nat} (hd : h.mem d = none) (key : κ)
    (v : Option α) :
    ∃ h₂, ((h.malloc d ⟨key, v, none, h.first, none⟩).storeIf h.first
      fun it => { it with lprev := some d }) = some h₂ ∧ Prepared h h₂ addresses d key v := by
  have hne : ∀ a n, h.mem a = some n → a ≠ d := by
    rintro a n hn rfl
    exact absurd (hd.symm.trans hn) (by simp)
  have hother : ∀ a, a ≠ d → (h.malloc d ⟨key, v, none, h.first, none⟩).mem a = h.mem a :=
    fun a had => Function.update_of_ne had _ _
  have hnew : (h.malloc d ⟨key, v, none, h.first, none⟩).mem d =
      some ⟨key, v, none, h.first, none⟩ := Function.update_self ..
  have hfirst : ∀ a, h.first = some a → ∃ n, h.mem a = some n := by
    intro a hfirst
    have hstart := hl.forth.start
    rw [hfirst, Option.or_none] at hstart
    exact hl.forth.live (List.mem_of_mem_head? hstart.symm)
  have hdfirst : h.first ≠ some d := by
    intro hfd
    obtain ⟨n, hn⟩ := hfirst d hfd
    exact hne d n hn rfl
  refine ⟨_, storeIf_eq (fun a hfa => ?_) _, rfl, rfl, ⟨Nat.le_max_left _ _, ?_⟩, ?_, ?_, ?_⟩
  · obtain ⟨n, hn⟩ := hfirst a hfa
    exact ⟨n, (hother a (hne a n hn)).trans hn⟩
  · exact Nat.lt_of_lt_of_le (Nat.lt_succ_self d) (Nat.le_max_right _ _)
  · show setAt _ _ _ d = _
    rw [setAt_of_some hnew, if_neg hdfirst]
  · intro a _ n hn
    show setAt _ _ _ a = _
    rw [setAt_of_some ((hother a (hne a n hn)).trans hn)]
    split <;> rfl
  · intro a hna had
    refine setAt_of_none ?_ _ _
    rw [hother a had]
    cases hn : h.mem a with
    | none => rfl
    | some n => exact absurd (ha.live a n hn) hna

/-- The first item is linked back to something else. -/
theorem Listed.relink {first before e : Option Nat} {addresses : List Nat}
    (hl : Listed μ first before addresses) (hnodup : addresses.Nodup) (hne : addresses ≠ [])
    (hmem : ∀ x ∈ addresses, ∀ n, μ x = some n → ∃ n', μ' x = some n' ∧ n'.lnext = n.lnext ∧
      n'.lprev = if first = some x then e else n.lprev) : Listed μ' first e addresses := by
  obtain ⟨hforth, last, hback⟩ := hl
  refine ⟨hforth.frame fun x hx n hn => ?_, last, ?_⟩
  · obtain ⟨n', hn', hlnext, -⟩ := hmem x hx n hn
    exact ⟨n', hn', hlnext⟩
  · cases addresses with
    | nil => exact absurd rfl hne
    | cons f rest =>
      have hfirst : first = some f := hforth.1
      rw [List.reverse_cons] at hback ⊢
      obtain ⟨m, hrest, hm, n, hn, -⟩ := seg_append.1 hback
      refine seg_append.2 ⟨m, hrest.frame fun x hx n hn => ?_, hm, ?_⟩
      · have hxr : x ∈ rest := List.mem_reverse.1 hx
        obtain ⟨n', hn', -, hlprev⟩ := hmem x (List.mem_cons_of_mem _ hxr) n hn
        refine ⟨n', hn', hlprev.trans (if_neg ?_)⟩
        rw [hfirst]
        rintro ⟨⟩
        exact (List.nodup_cons.1 hnodup).1 hxr
      · obtain ⟨n', hn', -, hlprev⟩ := hmem f (List.mem_cons_self ..) n hn
        exact ⟨n', hn', hlprev.trans (if_pos hfirst)⟩

theorem chain_overwrite (i : Nat) (cs₁ cs₂ : List (Nat × κ × Option α)) (a : Nat) (k : κ)
    (v w : Option α) : chain K i (cs₁ ++ (a, k, v) :: cs₂) = chain K i (cs₁ ++ (a, k, w) :: cs₂) := by
  rw [chain_append, chain_append]
  by_cases hi : K.bucket k = i
  · rw [chain_cons_same (c := (a, k, v)) hi, chain_cons_same (c := (a, k, w)) hi]
  · rw [chain_cons_other (c := (a, k, v)) hi, chain_cons_other (c := (a, k, w)) hi]

section Append

variable {b : Book κ α} {before : Option Nat} {d : Nat} {key : κ} {v : Option α} {h₂ : Htable κ α}

theorem Prepared.ne {addresses : List Nat} (hp : Prepared h h₂ addresses d key v)
    (hd : h.mem d = none) {a : Nat} (ha : ∃ n, h.mem a = some n) : a ≠ d := by
  rintro rfl
  obtain ⟨n, hn⟩ := ha
  exact absurd (hd.symm.trans hn) (by simp)

theorem Prepared.chained (hp : Prepared h h₂ (cells.map Prod.fst) d key v)
    (hc : Chained K h.mem h.table cells) : Chained K h₂.mem h₂.table cells := by
  rw [hp.table]
  refine hc.frame fun c hmem n hn => ?_
  exact ⟨_, hp.old c.1 (List.mem_map_of_mem hmem) n hn, rfl, rfl, rfl⟩

/-- A new key: the item is put before all others, and in the front of its chain. -/
theorem Prepared.fresh (hp : Prepared h h₂ (cells.map Prod.fst) d key v)
    (hb : Holds K h b cells before) (hd : h.mem d = none) :
    ∃ h', (h₂.store d fun it => { it with next := h₂.table (K.bucket key) }) = some h' ∧
      Holds K ({ h' with first := some d }.setBucket (K.bucket key) (some d))
        ⟨(key, v) :: b.entries, false⟩ ((d, key, v) :: cells) none := by
  have hnotmem : d ∉ cells.map Prod.fst := by
    intro hmem
    exact hp.ne hd (hb.listed.forth.live hmem) rfl
  have hkeep : ∀ a ∈ cells.map Prod.fst, ∀ n, h.mem a = some n →
      setAt h₂.mem (some d) (fun it => { it with next := h₂.table (K.bucket key) }) a =
        some { n with lprev := if h.first = some a then some d else n.lprev } := by
    intro a ha n hn
    rw [setAt_of_some (hp.old a ha n hn), if_neg]
    rintro ⟨⟩
    exact hnotmem ha
  have hnew : setAt h₂.mem (some d) (fun it => { it with next := h₂.table (K.bucket key) }) d =
      some ⟨key, v, h.table (K.bucket key), h.first, none⟩ := by
    rw [setAt_of_some hp.new, if_pos rfl, hp.table]
  refine ⟨_, store_eq hp.new _, ?_⟩
  have hframe : Chained K (setAt h₂.mem (some d) fun it =>
      { it with next := h₂.table (K.bucket key) }) h.table cells := by
    refine hb.chained.frame fun c hmem n hn => ?_
    exact ⟨_, hkeep c.1 (List.mem_map_of_mem hmem) n hn, rfl, rfl, rfl⟩
  constructor
  · simp [hb.entries]
  · refine ⟨?_, ?_, ?_⟩
    · exact List.nodup_cons.2 ⟨hnotmem, hb.alloc.nodup⟩
    · intro a n hn
      by_cases had : a = d
      · exact had ▸ List.mem_cons_self ..
      · refine List.mem_cons_of_mem _ ?_
        by_contra hna
        exact absurd (hn.symm.trans (setAt_of_none (hp.other a hna had) _ _)) (by simp)
    · intro a ha
      rcases List.mem_cons.1 ha with rfl | ha
      · exact hp.brk.2
      · exact Nat.lt_of_lt_of_le (hb.alloc.below a ha) hp.brk.1
  · refine ⟨fun c hmem => ?_, fun i => ?_⟩
    · rcases List.mem_cons.1 hmem with rfl | hmem
      · exact ⟨_, hnew, rfl, rfl⟩
      · exact hframe.content c hmem
    · by_cases hi : K.bucket key = i
      · subst hi
        rw [chain_cons_same (c := (d, key, v)) rfl]
        refine ⟨Function.update_self .., _, hnew, ?_⟩
        exact hframe.chains (K.bucket key)
      · rw [chain_cons_other hi]
        have htable : Function.update h₂.table (K.bucket key) (some d) i = h.table i := by
          rw [Function.update_of_ne (Ne.symm hi), hp.table]
        show Seg _ _ (Function.update h₂.table (K.bucket key) (some d) i) _ _
        rw [htable]
        exact hframe.chains i
  · refine ⟨⟨rfl, _, hnew, ?_⟩, ?_⟩
    · refine hb.listed.forth.frame fun a ha n hn => ?_
      exact ⟨_, hkeep a ha n hn, rfl⟩
    · obtain ⟨last, hback⟩ := hb.listed.back
      refine ⟨_, List.reverse_cons ▸ hback.snoc hnew rfl (fun c hlast => ?_) fun c hc n hn => ?_⟩
      · rw [List.getLast?_reverse] at hlast
        have hfirst : h.first = some c := by
          rw [hb.listed.forth.start, hlast]
          rfl
        have hmem := List.mem_of_mem_head? hlast
        obtain ⟨n, hn⟩ := hb.listed.forth.live hmem
        exact ⟨_, hkeep c hmem n hn, if_pos hfirst⟩
      · have hmem : c ∈ cells.map Prod.fst := List.mem_reverse.1 (List.mem_of_mem_dropLast hc)
        refine ⟨_, hkeep c hmem n hn, if_neg fun hfirst => ?_⟩
        -- only the first item has a new link, and it is the last of the reversed list
        rw [hb.listed.forth.start, Option.or_none] at hfirst
        exact head_not_mem_dropLast hb.alloc.nodup hfirst hc
  · intro _
    rfl
  · intro hstale
    exact Bool.noConfusion hstale

/-- A key that is there: the new item is freed, and the first item is left linked back to it. -/
theorem Prepared.overwrites {cs₁ cs₂ : List (Nat × κ × Option α)} {k : κ} {w : Option α} {a : Nat}
    (hp : Prepared h h₂ ((cs₁ ++ (a, k, w) :: cs₂).map Prod.fst) d key v)
    (hb : Holds K h b (cs₁ ++ (a, k, w) :: cs₂) before) (hd : h.mem d = none) :
    ∃ h', ((h₂.free d).store a fun it => { it with addrs := v }) = some h' ∧
      Holds K h' ⟨(cs₁ ++ (a, k, v) :: cs₂).map Prod.snd, true⟩ (cs₁ ++ (a, k, v) :: cs₂)
        (some d) := by
  set L := (cs₁ ++ (a, k, w) :: cs₂).map Prod.fst with hL
  have hL' : (cs₁ ++ (a, k, v) :: cs₂).map Prod.fst = L := by simp [hL]
  have hnodup : L.Nodup := hb.alloc.nodup
  have hfree : ∀ x ∈ L, ∀ n, h.mem x = some n → (h₂.free d).mem x =
      some { n with lprev := if h.first = some x then some d else n.lprev } := by
    intro x hx n hn
    show Function.update h₂.mem d none x = _
    rw [Function.update_of_ne (hp.ne hd ⟨n, hn⟩), hp.old x hx n hn]
  have ha : a ∈ L := by simp [hL]
  obtain ⟨na, hna⟩ := hb.listed.forth.live ha
  have hmem : ∀ x ∈ L, ∀ n, h.mem x = some n →
      setAt (h₂.free d).mem (some a) (fun it => { it with addrs := v }) x =
        some { n with
          lprev := if h.first = some x then some d else n.lprev
          addrs := if a = x then v else n.addrs } := by
    intro x hx n hn
    rw [setAt_of_some (hfree x hx n hn)]
    by_cases hax : a = x
    · simp [hax]
    · simp [hax]
  have hnone : ∀ x, x ∉ L → setAt (h₂.free d).mem (some a) (fun it => { it with addrs := v }) x = none := by
    intro x hx
    refine setAt_of_none ?_ _ _
    by_cases hxd : x = d
    · rw [hxd]
      exact Function.update_self ..
    · show Function.update h₂.mem d none x = none
      rw [Function.update_of_ne hxd]
      exact hp.other x hx hxd
  have hothers : ∀ c ∈ cs₁ ++ cs₂, ∃ it,
      setAt (h₂.free d).mem (some a) (fun it => { it with addrs := v }) c.1 = some it ∧
        it.key = c.2.1 ∧ it.addrs = c.2.2 := by
    intro c hc
    have hold : c ∈ cs₁ ++ (a, k, w) :: cs₂ := by
      rcases List.mem_append.1 hc with hc | hc
      · exact List.mem_append_left _ hc
      · exact List.mem_append_right _ (List.mem_cons_of_mem _ hc)
    have hne : a ≠ c.1 := by
      rw [hL, List.map_append, List.map_cons, List.nodup_middle, ← List.map_append] at hnodup
      intro heq
      refine (List.nodup_cons.1 hnodup).1 ?_
      rw [heq]
      show c.1 ∈ (cs₁ ++ cs₂).map Prod.fst
      exact List.mem_map_of_mem hc
    obtain ⟨it, hit, hkey, haddrs⟩ := hb.chained.content c hold
    exact ⟨_, hmem c.1 (List.mem_map_of_mem hold) it hit, hkey, (if_neg hne).trans haddrs⟩
  refine ⟨_, store_eq (hfree a ha na hna) _, ?_⟩
  constructor
  · rfl
  · rw [hL']
    refine ⟨hnodup, fun x n hn => ?_, fun x hx => ?_⟩
    · by_contra hx
      exact absurd (hn.symm.trans (hnone x hx)) (by simp)
    · exact Nat.lt_of_lt_of_le (hb.alloc.below x hx) hp.brk.1
  · refine ⟨fun c hc => ?_, fun i => ?_⟩
    · rcases List.mem_append.1 hc with hc | hc
      · exact hothers c (List.mem_append_left _ hc)
      · rcases List.mem_cons.1 hc with rfl | hc
        · obtain ⟨it, hit, hkey, -⟩ := hb.chained.content (a, k, w) (by simp)
          exact ⟨_, hmem a ha it hit, hkey, if_pos rfl⟩
        · exact hothers c (List.mem_append_right _ hc)
    · rw [chain_overwrite i cs₁ cs₂ a k v w]
      show Seg _ _ (h₂.table i) _ _
      rw [hp.table]
      refine (hb.chained.chains i).frame fun x hx n hn => ?_
      exact ⟨_, hmem x (chain_subset hx) n hn, rfl⟩
  · rw [hL']
    have hlisted := hb.listed.relink (e := some d) hnodup (List.ne_nil_of_mem ha) fun x hx n hn =>
      ⟨_, hmem x hx n hn, rfl, rfl⟩
    show Listed _ h₂.first _ _
    rwa [hp.first]
  · intro hfresh
    exact Bool.noConfusion hfresh
  · intro _
    refine ⟨by simp, d, rfl, ?_⟩
    refine hnone d fun hmem' => ?_
    exact hp.ne hd (hb.listed.forth.live hmem') rfl

theorem any_entries (hb : Holds K h b cells before) (P : κ → Bool) :
    (b.entries.any fun e => P e.1) = cells.any fun c => P c.2.1 := by
  rw [← hb.entries, List.any_map]
  rfl

theorem overwrite_split {P : κ → Bool} {cs₁ cs₂ : List (Nat × κ × Option α)}
    {c : Nat × κ × Option α} (hmiss : ∀ x ∈ cs₁, P x.2.1 = false) (hhit : P c.2.1 = true)
    (v : Option α) : overwrite P v ((cs₁ ++ c :: cs₂).map Prod.snd) =
      (cs₁ ++ (c.1, c.2.1, v) :: cs₂).map Prod.snd := by
  induction cs₁ with
  | nil =>
    show overwrite P v (c.2 :: cs₂.map Prod.snd) = _
    rw [overwrite, if_pos hhit]
    rfl
  | cons x cs₁ ih =>
    show overwrite P v (x.2 :: (cs₁ ++ c :: cs₂).map Prod.snd) = _
    rw [overwrite, if_neg (by simp [hmiss x (List.mem_cons_self ..)]),
      ih fun y hy => hmiss y (List.mem_cons_of_mem _ hy)]
    rfl

/-- **An append** does to the table what the append of the book does to the entries. -/
theorem append_holds (hb : Holds K h b cells before) (at' : Nat) (key : κ) (v : Option α) :
    ∃ h' cells' before', append K at' key v h = some h' ∧
      Holds K h' (b.append K key v) cells' before' := by
  have hd := hb.alloc.mallocAddr_free at'
  obtain ⟨h₂, hstore, hp⟩ := exists_prepared hb.alloc hb.listed hd key v
  have hlen : cells.length ≤ h₂.brk := by
    have := hb.alloc.length_le
    rw [List.length_map] at this
    exact this.trans hp.brk.1
  unfold append Book.append
  rw [any_entries hb]
  simp only [hstore, bind, Option.bind_some]
  rcases entries_cases K key cells with hmiss | ⟨cs₁, ⟨a, k, w⟩, cs₂, rfl, hmiss, hhit⟩
  · have hany : (cells.any fun c => K.entry key c.2.1) = false := by
      rw [List.any_eq_false]
      intro c hc
      simp [hmiss c hc]
    obtain ⟨h', hh', hholds⟩ := hp.fresh hb hd
    rw [findKey_miss (hp.chained hb.chained) hlen hmiss, hany]
    simp only [Option.bind_some, hh', Bool.false_eq_true, if_false]
    exact ⟨_, _, _, rfl, hholds⟩
  · have hany : ((cs₁ ++ (a, k, w) :: cs₂).any fun c => K.entry key c.2.1) = true := by
      rw [List.any_eq_true]
      exact ⟨(a, k, w), by simp, hhit⟩
    obtain ⟨h', hh', hholds⟩ := hp.overwrites hb hd
    rw [findKey_hit (hp.chained hb.chained) hlen hmiss hhit, hany, if_pos rfl, ← hb.entries,
      overwrite_split hmiss hhit]
    exact ⟨_, _, _, hh', hholds⟩

end Append

/-! ## Erases -/

/-- A store through a pointer, or something else when it is `NULL`. -/
theorem elim_store {p : Option Nat} {g : Htable κ α} {f : HtableItem κ α → HtableItem κ α}
    (hp : ∀ a, p = some a → ∃ n, h.mem a = some n) (hg : g.mem = h.mem ∧ g.brk = h.brk) :
    p.elim (some g) (fun a => h.store a f) =
      some ⟨setAt h.mem p f, h.brk, if p = none then g.first else h.first,
        if p = none then g.table else h.table⟩ := by
  cases p with
  | none =>
    rw [setAt_none, ← hg.1, ← hg.2]
    rfl
  | some a =>
    obtain ⟨n, hn⟩ := hp a rfl
    exact store_eq hn f

theorem setAt_live {p : Option Nat} {f : HtableItem κ α → HtableItem κ α} {x : Nat}
    (hx : ∃ n, μ x = some n) : ∃ n, setAt μ p f x = some n := by
  obtain ⟨n, hn⟩ := hx
  exact ⟨_, setAt_of_some hn p f⟩

/-- The memory behind an erase of the item `it` at `a`, which follows `hPrev` in its chain. -/
def erased (μ : Nat → Option (HtableItem κ α)) (hPrev : Option Nat) (a : Nat)
    (it : HtableItem κ α) : Nat → Option (HtableItem κ α) :=
  Function.update (setAt (setAt (setAt μ hPrev fun n => { n with next := it.next })
    it.lprev fun n => { n with lnext := it.lnext }) it.lnext fun n => { n with lprev := it.lprev })
    a none

theorem erased_self {hPrev : Option Nat} {a : Nat} {it : HtableItem κ α} :
    erased μ hPrev a it a = none := Function.update_self ..

theorem erased_of_none {hPrev : Option Nat} {a x : Nat} {it : HtableItem κ α} (hx : μ x = none) :
    erased μ hPrev a it x = none := by
  unfold erased
  by_cases hxa : x = a
  · subst hxa
    exact Function.update_self ..
  · rw [Function.update_of_ne hxa]
    exact setAt_of_none (setAt_of_none (setAt_of_none hx _ _) _ _) _ _

theorem erased_of_some {a x : Nat} {n : HtableItem κ α} (hx : μ x = some n) (hxa : x ≠ a)
    (hPrev : Option Nat) (it : HtableItem κ α) : ∃ n', erased μ hPrev a it x = some n' ∧ n'.key = n.key ∧ n'.addrs = n.addrs ∧
      n'.next = (if hPrev = some x then it.next else n.next) ∧
      n'.lnext = (if it.lprev = some x then it.lnext else n.lnext) ∧
      n'.lprev = (if it.lnext = some x then it.lprev else n.lprev) := by
  unfold erased
  rw [Function.update_of_ne hxa, setAt_of_some (setAt_of_some (setAt_of_some hx _ _) _ _)]
  refine ⟨_, rfl, ?_⟩
  by_cases h₁ : hPrev = some x <;> by_cases h₂ : it.lprev = some x <;>
    by_cases h₃ : it.lnext = some x <;> simp [h₁, h₂, h₃]

/-- The stores of an erase link the item out of its chain and out of the list. -/
theorem erase_eq {key : κ} {a : Nat} {hPrev : Option Nat} {it : HtableItem κ α}
    (hfind : findKey K h key = some (some (a, hPrev))) (hit : h.mem a = some it)
    (hPrevLive : ∀ x, hPrev = some x → ∃ n, h.mem x = some n)
    (hlprev : ∀ x, it.lprev = some x → ∃ n, h.mem x = some n)
    (hlnext : ∀ x, it.lnext = some x → ∃ n, h.mem x = some n) :
    erase K key h = some ⟨erased h.mem hPrev a it, h.brk,
      if it.lprev = none then it.lnext else h.first,
      if hPrev = none then Function.update h.table (K.bucket key) it.next else h.table⟩ := by
  unfold erase
  simp only [hfind, bind, Option.bind_some, hit]
  rw [elim_store (g := h.setBucket (K.bucket key) it.next) hPrevLive ⟨rfl, rfl⟩]
  obtain ⟨h₁, hh₁⟩ : ∃ h₁ : Htable κ α, h₁ = ⟨setAt h.mem hPrev fun n => { n with next := it.next },
    h.brk, if hPrev = none then (h.setBucket (K.bucket key) it.next).first else h.first,
    if hPrev = none then (h.setBucket (K.bucket key) it.next).table else h.table⟩ := ⟨_, rfl⟩
  have hlive₁ : ∀ x, (∃ n, h.mem x = some n) → ∃ n, h₁.mem x = some n := by
    intro x hx
    rw [hh₁]
    exact setAt_live hx
  rw [← hh₁, Option.bind_some,
    elim_store (h := h₁) (g := { h₁ with first := it.lnext }) (fun x hx => hlive₁ x (hlprev x hx))
      ⟨rfl, rfl⟩, Option.bind_some,
    storeIf_eq (fun x hx => setAt_live (hlive₁ x (hlnext x hx)))]
  subst hh₁
  obtain ⟨k, v, next, lnext, lprev⟩ := it
  cases hPrev <;> cases lprev <;> rfl

/-- The last address is the last only. -/
theorem last_not_mem_dropLast {as : List Nat} (hnodup : as.Nodup) {a : Nat}
    (ha : as.getLast? = some a) : a ∉ as.dropLast := by
  have hnot := head_not_mem_dropLast (List.nodup_reverse.2 hnodup) (a := a)
    (by rw [List.head?_reverse, ha])
  rwa [List.reverse_reverse] at hnot

/-- The links of an item that is taken out. -/
theorem Listed.links {first before : Option Nat} {L₁ L₂ : List Nat} {a : Nat} {it : HtableItem κ α}
    (hl : Listed μ first before (L₁ ++ a :: L₂)) (hit : μ a = some it) :
    it.lprev = L₁.getLast?.or before ∧ it.lnext = L₂.head? := by
  obtain ⟨hforth, last, hback⟩ := hl
  rw [List.reverse_append, List.reverse_cons, List.append_assoc, List.singleton_append] at hback
  have hlprev := hback.middle hit
  have hlnext := hforth.middle hit
  rw [List.head?_reverse] at hlprev
  rw [Option.or_none] at hlnext
  exact ⟨hlprev, hlnext⟩

/-- The list of all items behind an erase. -/
theorem Listed.erased {first before hPrev : Option Nat} {L₁ L₂ : List Nat} {a : Nat}
    {it : HtableItem κ α} (hl : Listed μ first before (L₁ ++ a :: L₂))
    (hnodup : (L₁ ++ a :: L₂).Nodup) (hit : μ a = some it) (hsafe : L₁ = [] → before = none) :
    Listed (erased μ hPrev a it) (if it.lprev = none then it.lnext else first) before
      (L₁ ++ L₂) := by
  obtain ⟨hlprev, hlnext⟩ := hl.links hit
  obtain ⟨hforth, last, hback⟩ := hl
  obtain ⟨hnodup₁, hnodup₂, hdisjoint⟩ := List.nodup_append'.1 hnodup
  obtain ⟨ha₂, hnodup₂⟩ := List.nodup_cons.1 hnodup₂
  have ha₁ : a ∉ L₁ := fun ha => hdisjoint ha (List.mem_cons_self ..)
  -- the item before: only the last of `L₁` has it
  have hprev : ∀ x, it.lprev = some x → L₁.getLast? = some x := by
    intro x hx
    rw [hlprev] at hx
    cases hL₁ : L₁.getLast? with
    | none =>
      rw [hL₁, Option.none_or, hsafe (List.getLast?_eq_none_iff.1 hL₁)] at hx
      exact absurd hx (by simp)
    | some y =>
      rw [hL₁, Option.some_or] at hx
      exact hx
  have hfirst : (if it.lprev = none then it.lnext else first) =
      if L₁ = [] then it.lnext else first := by
    by_cases hL₁ : L₁ = []
    · rw [if_pos hL₁, if_pos]
      rw [hlprev, hL₁, hsafe hL₁]
      rfl
    · rw [if_neg hL₁, if_neg]
      rw [hlprev]
      intro hnone
      exact hL₁ (List.getLast?_eq_none_iff.1 (Option.or_eq_none_iff.1 hnone).1)
  refine ⟨?_, ?_⟩
  · rw [hfirst]
    refine hforth.unlink hit (fun c hc => ?_) fun c hc n hn => ?_
    · have hmem : c ∈ L₁ := List.mem_of_getLast? hc
      obtain ⟨n, hn⟩ := hforth.live (List.mem_append_left _ hmem)
      obtain ⟨n', hn', -, -, -, hlink, -⟩ := erased_of_some (a := a) hn
        (by rintro rfl; exact ha₁ hmem) hPrev it
      refine ⟨n', hn', hlink.trans (if_pos ?_)⟩
      rw [hlprev, hc]
      rfl
    · have hca : c ≠ a := by
        rintro rfl
        rcases List.mem_append.1 hc with hc | hc
        · exact ha₁ (List.mem_of_mem_dropLast hc)
        · exact ha₂ hc
      obtain ⟨n', hn', -, -, -, hlink, -⟩ := erased_of_some hn hca hPrev it
      refine ⟨n', hn', hlink.trans (if_neg fun hx => ?_)⟩
      have hlast := hprev c hx
      rcases List.mem_append.1 hc with hc | hc
      · exact last_not_mem_dropLast hnodup₁ hlast hc
      · exact hdisjoint (List.mem_of_getLast? hlast) (List.mem_cons_of_mem _ hc)
  · rw [List.reverse_append, List.reverse_cons, List.append_assoc, List.singleton_append] at hback
    rw [List.reverse_append]
    refine ⟨_, hback.unlink hit (fun c hc => ?_) fun c hc n hn => ?_⟩
    · rw [List.getLast?_reverse] at hc
      have hmem : c ∈ L₂ := List.mem_of_mem_head? hc
      obtain ⟨n, hn⟩ := hforth.live (List.mem_append_right _ (List.mem_cons_of_mem _ hmem))
      obtain ⟨n', hn', -, -, -, -, hlink⟩ := erased_of_some (a := a) hn
        (by rintro rfl; exact ha₂ hmem) hPrev it
      exact ⟨n', hn', hlink.trans (if_pos (hlnext.trans hc))⟩
    · have hca : c ≠ a := by
        rintro rfl
        rcases List.mem_append.1 hc with hc | hc
        · exact ha₂ (List.mem_reverse.1 (List.mem_of_mem_dropLast hc))
        · exact ha₁ (List.mem_reverse.1 hc)
      obtain ⟨n', hn', -, -, -, -, hlink⟩ := erased_of_some hn hca hPrev it
      refine ⟨n', hn', hlink.trans (if_neg fun hx => ?_)⟩
      rw [hlnext] at hx
      rcases List.mem_append.1 hc with hc | hc
      · exact head_not_mem_dropLast hnodup₂ hx hc
      · exact hdisjoint (List.mem_reverse.1 hc) (List.mem_cons_of_mem _ (List.mem_of_mem_head? hx))

/-- The chains behind an erase are those before without the item. -/
theorem Chained.erased {key k : κ} {a : Nat} {w : Option α} {it : HtableItem κ α}
    (hc : Chained K μ table (cs₁ ++ (a, k, w) :: cs₂)) (hk : K.bucket k = K.bucket key)
    (hnodup : ((cs₁ ++ (a, k, w) :: cs₂).map Prod.fst).Nodup) (hit : μ a = some it)
    {hPrev : Option Nat} (hprev : hPrev = (chain K (K.bucket key) cs₁).getLast?) :
    Chained K (erased μ hPrev a it)
      (if hPrev = none then Function.update table (K.bucket key) it.next else table)
      (cs₁ ++ cs₂) := by
  have hsub : ∀ c ∈ cs₁ ++ cs₂, c ∈ cs₁ ++ (a, k, w) :: cs₂ := by
    intro c hmem
    rcases List.mem_append.1 hmem with hmem | hmem
    · exact List.mem_append_left _ hmem
    · exact List.mem_append_right _ (List.mem_cons_of_mem _ hmem)
  rw [List.map_append, List.map_cons] at hnodup
  have hne : ∀ c ∈ cs₁ ++ cs₂, c.1 ≠ a := by
    intro c hmem heq
    rw [List.nodup_middle, ← List.map_append] at hnodup
    have hmem' : c.1 ∈ (cs₁ ++ cs₂).map Prod.fst := List.mem_map_of_mem hmem
    rw [heq] at hmem'
    exact (List.nodup_cons.1 hnodup).1 hmem'
  refine ⟨fun c hmem => ?_, fun i => ?_⟩
  · obtain ⟨n, hn, hkey, haddrs⟩ := hc.content c (hsub c hmem)
    obtain ⟨n', hn', hkey', haddrs', -⟩ := erased_of_some hn (hne c hmem) hPrev it
    exact ⟨n', hn', hkey'.trans hkey, haddrs'.trans haddrs⟩
  · have hseg := hc.chains i
    rw [chain_append] at hseg ⊢
    by_cases hi : K.bucket key = i
    · subst hi
      rw [chain_cons_same (c := (a, k, w)) hk] at hseg
      have hchain : (chain K (K.bucket key) cs₁ ++ a :: chain K (K.bucket key) cs₂).Nodup :=
        hnodup.sublist ((chain_sublist _ cs₁).append ((chain_sublist _ cs₂).cons_cons a))
      obtain ⟨hnodup₁, -, hdisjoint⟩ := List.nodup_append'.1 hchain
      have hstart : (if hPrev = none then Function.update table (K.bucket key) it.next else table)
          (K.bucket key) = if chain K (K.bucket key) cs₁ = [] then it.next else table (K.bucket key) := by
        rw [hprev]
        simp only [List.getLast?_eq_none_iff]
        split
        · exact Function.update_self ..
        · rfl
      rw [hstart]
      refine hseg.unlink hit (fun x hx => ?_) fun x hx n hn => ?_
      · have hmem := List.mem_of_getLast? hx
        obtain ⟨n, hn⟩ := hseg.live (List.mem_append_left _ hmem)
        obtain ⟨n', hn', -, -, hlink, -⟩ := erased_of_some (a := a) hn
          (by rintro rfl; exact hdisjoint hmem (List.mem_cons_self ..)) hPrev it
        exact ⟨n', hn', hlink.trans (if_pos (hprev.trans hx))⟩
      · have hmem : x ∈ chain K (K.bucket key) (cs₁ ++ cs₂) := by
          rw [chain_append]
          rcases List.mem_append.1 hx with hx | hx
          · exact List.mem_append_left _ (List.mem_of_mem_dropLast hx)
          · exact List.mem_append_right _ hx
        obtain ⟨c, hmemc, rfl, -⟩ := mem_chain hmem
        obtain ⟨n', hn', -, -, hlink, -⟩ := erased_of_some hn (hne c hmemc) hPrev it
        refine ⟨n', hn', hlink.trans (if_neg fun hlast => ?_)⟩
        rw [hprev] at hlast
        rcases List.mem_append.1 hx with hx | hx
        · exact last_not_mem_dropLast hnodup₁ hlast hx
        · exact hdisjoint (List.mem_of_getLast? hlast) (List.mem_cons_of_mem _ hx)
    · rw [chain_cons_other (c := (a, k, w)) (hk ▸ hi)] at hseg
      have hstart : (if hPrev = none then Function.update table (K.bucket key) it.next else table) i =
          table i := by
        split
        · exact Function.update_of_ne (Ne.symm hi) _ _
        · rfl
      rw [hstart]
      refine hseg.frame fun x hx n hn => ?_
      rw [← chain_append] at hx
      obtain ⟨c, hmemc, rfl, hci⟩ := mem_chain hx
      obtain ⟨n', hn', -, -, hlink, -⟩ := erased_of_some hn (hne c hmemc) hPrev it
      refine ⟨n', hn', hlink.trans (if_neg fun hlast => ?_)⟩
      -- the item before `a` in its chain is in another bucket
      rw [hprev] at hlast
      obtain ⟨c', hmemc', heq, hci'⟩ := mem_chain (List.mem_of_getLast? hlast)
      obtain ⟨m, hm, hkey, -⟩ := hc.content c (hsub c hmemc)
      obtain ⟨m', hm', hkey', -⟩ := hc.content c' (List.mem_append_left _ hmemc')
      rw [heq] at hm'
      obtain rfl := Option.some.inj (hm.symm.trans hm')
      rw [← hkey'] at hci'
      rw [← hkey] at hci
      exact hi (hci'.symm.trans hci)

section Erase

variable {b : Book κ α} {before : Option Nat} {key k : κ} {a : Nat} {w : Option α}

theorem eraseP_split {P : κ → Bool} {c : Nat × κ × Option α}
    (hmiss : ∀ x ∈ cs₁, P x.2.1 = false) (hhit : P c.2.1 = true) :
    ((cs₁ ++ c :: cs₂).map Prod.snd).eraseP (fun e => P e.1) = (cs₁ ++ cs₂).map Prod.snd := by
  rw [List.map_append, List.map_append, List.map_cons, List.eraseP_append_right]
  · rw [List.eraseP_cons_of_pos]
    exact hhit
  · intro e he
    obtain ⟨x, hx, rfl⟩ := List.mem_map.1 he
    simp [hmiss x hx]

/-- An erase that finds its key, and does not write to freed memory. -/
theorem Holds.erased (hb : Holds K h b (cs₁ ++ (a, k, w) :: cs₂) before)
    (hmiss : ∀ x ∈ cs₁, K.entry key x.2.1 = false) (hhit : K.entry key k = true)
    (hsafe : cs₁ = [] → before = none) (stale : Bool)
    (hfresh : stale = false → before = none) (hstale : stale = true → b.stale = true ∧ cs₁ ≠ []) :
    ∃ h', erase K key h = some h' ∧
      Holds K h' ⟨(cs₁ ++ cs₂).map Prod.snd, stale⟩ (cs₁ ++ cs₂) before := by
  have hk : K.bucket k = K.bucket key := by
    unfold KeyOps.entry at hhit
    exact beq_iff_eq.1 (Bool.and_eq_true_iff.1 hhit).1
  obtain ⟨it, hit, -⟩ := hb.chained.content (a, k, w) (by simp)
  have hlen : (cs₁ ++ (a, k, w) :: cs₂).length ≤ h.brk := by
    have := hb.alloc.length_le
    rwa [List.length_map] at this
  have hfind := findKey_hit hb.chained hlen hmiss hhit
  have hnodup := hb.alloc.nodup
  have hlisted := hb.listed
  rw [List.map_append, List.map_cons] at hlisted
  have hnodup' := hnodup
  rw [List.map_append, List.map_cons] at hnodup'
  have hsafe' : cs₁.map Prod.fst = [] → before = none := fun hnil =>
    hsafe (List.map_eq_nil_iff.1 hnil)
  obtain ⟨hlprev, hlnext⟩ := hlisted.links hit
  have hlive : ∀ x, x ∈ cs₁.map Prod.fst ∨ x ∈ cs₂.map Prod.fst → ∃ n, h.mem x = some n := by
    intro x hx
    refine hlisted.forth.live ?_
    rcases hx with hx | hx
    · exact List.mem_append_left _ hx
    · exact List.mem_append_right _ (List.mem_cons_of_mem _ hx)
  have herase := erase_eq hfind hit
    (fun x hx => hlive x (.inl (chain_subset (List.mem_of_getLast? hx))))
    (fun x hx => ?_) (fun x hx => hlive x (.inr (List.mem_of_mem_head? (hlnext.symm.trans hx))))
  · refine ⟨_, herase, ?_⟩
    constructor
    · rfl
    · refine ⟨?_, fun x n hn => ?_, fun x hx => ?_⟩
      · rw [List.nodup_middle, ← List.map_append] at hnodup'
        exact (List.nodup_cons.1 hnodup').2
      · have hx : x ∈ (cs₁ ++ (a, k, w) :: cs₂).map Prod.fst := by
          by_contra hx
          cases hmem : h.mem x with
          | none => exact absurd (hn.symm.trans (erased_of_none hmem)) (by simp)
          | some m => exact hx (hb.alloc.live x m hmem)
        have hxa : x ≠ a := by
          rintro rfl
          exact absurd (hn.symm.trans erased_self) (by simp)
        rw [List.map_append, List.map_cons, List.mem_append, List.mem_cons] at hx
        rw [List.map_append, List.mem_append]
        rcases hx with hx | rfl | hx
        · exact .inl hx
        · exact absurd rfl hxa
        · exact .inr hx
      · refine hb.alloc.below x ?_
        rw [List.map_append, List.mem_append] at hx
        rw [List.map_append, List.map_cons, List.mem_append, List.mem_cons]
        rcases hx with hx | hx
        · exact .inl hx
        · exact .inr (.inr hx)
    · exact hb.chained.erased hk hnodup hit rfl
    · rw [List.map_append]
      exact hlisted.erased hnodup' hit hsafe'
    · exact hfresh
    · intro hs
      obtain ⟨hbs, hne⟩ := hstale hs
      obtain ⟨-, d, hd, hfree⟩ := hb.stale hbs
      exact ⟨List.append_ne_nil_of_left_ne_nil hne _, d, hd, erased_of_none hfree⟩
  · rw [hlprev] at hx
    cases hlast : (cs₁.map Prod.fst).getLast? with
    | none =>
      rw [hlast, Option.none_or, hsafe' (List.getLast?_eq_none_iff.1 hlast)] at hx
      exact absurd hx (by simp)
    | some y =>
      rw [hlast, Option.some_or] at hx
      exact hlive x (.inl (List.mem_of_getLast? (hlast.trans hx)))

/-- An erase of the newest item, which is linked back to freed memory. -/
theorem Holds.erase_stale (hb : Holds K h b ((a, k, w) :: cs₂) before)
    (hhit : K.entry key k = true) (hstale : b.stale = true) : erase K key h = none := by
  obtain ⟨it, hit, -⟩ := hb.chained.content (a, k, w) (by simp)
  obtain ⟨-, d, rfl, hd⟩ := hb.stale hstale
  have hlen : ([] ++ (a, k, w) :: cs₂).length ≤ h.brk := by
    have := hb.alloc.length_le
    rwa [List.length_map] at this
  have hchained : Chained K h.mem h.table ([] ++ (a, k, w) :: cs₂) := hb.chained
  have hfind := findKey_hit hchained hlen (by simp) hhit
  have hlisted : Listed h.mem h.first (some d) ([] ++ a :: cs₂.map Prod.fst) := hb.listed
  have hlprev : it.lprev = some d := (Listed.links hlisted hit).1
  unfold erase
  simp only [hfind, bind, Option.bind_some, hit, hlprev]
  show (((some _).elim _ fun x => store x _ (h.setBucket _ _)) : Option (Htable κ α)).bind _ = none
  show (store d _ (h.setBucket _ _)).bind _ = none
  unfold store
  rw [show (h.setBucket _ _).mem d = none from hd]
  rfl

theorem Book.erase_miss (hmiss : ∀ e ∈ b.entries, K.entry key e.1 = false) :
    b.erase K key = some b := by
  obtain ⟨_ | ⟨e, es⟩, stale⟩ := b
  · rfl
  · have he : K.entry key e.1 = false := hmiss e (List.mem_cons_self ..)
    have hrest : es.eraseP (fun e => K.entry key e.1) = es := by
      refine List.eraseP_of_forall_not fun x hx => ?_
      simp [hmiss x (List.mem_cons_of_mem _ hx)]
    unfold Book.erase
    simp only [he, Bool.false_eq_true, if_false, hrest]

/-- **An erase** does to the table what the erase of the book does to the entries. -/
theorem erase_holds (hb : Holds K h b cells before) (key : κ) :
    (∃ h' b' cells', erase K key h = some h' ∧ b.erase K key = some b' ∧
      Holds K h' b' cells' before) ∨ erase K key h = none ∧ b.erase K key = none := by
  have hentries := hb.entries
  have hlen : cells.length ≤ h.brk := by
    have := hb.alloc.length_le
    rwa [List.length_map] at this
  rcases entries_cases K key cells with hmiss | ⟨cs₁, ⟨a, k, w⟩, cs₂, rfl, hmiss, hhit⟩
  · refine .inl ⟨h, b, cells, ?_, Book.erase_miss fun e he => ?_, hb⟩
    · unfold erase
      rw [findKey_miss hb.chained hlen hmiss]
      rfl
    · rw [← hentries] at he
      obtain ⟨c, hc, rfl⟩ := List.mem_map.1 he
      exact hmiss c hc
  · obtain ⟨entries, stale⟩ := b
    simp only at hentries
    subst hentries
    cases cs₁ with
    | nil =>
      -- the newest item
      have hbook : Book.erase K key ⟨((a, k, w) :: cs₂).map Prod.snd, stale⟩ =
          if stale then none else some ⟨cs₂.map Prod.snd, false⟩ := if_pos hhit
      cases stale with
      | true => exact .inr ⟨hb.erase_stale hhit rfl, hbook⟩
      | false =>
        have hbefore := hb.fresh rfl
        obtain ⟨h', herase, hholds⟩ := hb.erased hmiss hhit (fun _ => hbefore) false
          (fun _ => hbefore) (fun hs => Bool.noConfusion hs)
        exact .inl ⟨h', _, _, herase, hbook, hholds⟩
    | cons c cs₁ =>
      have hc : K.entry key c.2.1 = false := hmiss c (List.mem_cons_self ..)
      have hbook : Book.erase K key ⟨(c :: cs₁ ++ (a, k, w) :: cs₂).map Prod.snd, stale⟩ =
          some ⟨(c :: cs₁ ++ cs₂).map Prod.snd, stale⟩ := by
        have hrest : ((cs₁ ++ (a, k, w) :: cs₂).map Prod.snd).eraseP (fun e => K.entry key e.1) =
            (cs₁ ++ cs₂).map Prod.snd :=
          eraseP_split (fun x hx => hmiss x (List.mem_cons_of_mem _ hx)) hhit
        unfold Book.erase
        simp only [List.cons_append, List.map_cons, hc, Bool.false_eq_true, if_false, hrest]
      obtain ⟨h', herase, hholds⟩ := hb.erased hmiss hhit
        (fun hnil => absurd hnil (List.cons_ne_nil _ _)) stale hb.fresh
        (fun hs => ⟨hs, List.cons_ne_nil _ _⟩)
      exact .inl ⟨h', _, _, herase, hbook, hholds⟩

end Erase

/-! ## Sequences of calls -/

/-- A call on a book. -/
def Call.book (seed : UInt32) {type : ApeHashType} (b : Book (Key type) α) :
    Call type α → Option (Book (Key type) α)
  | .append _ key v => key.key.elim (some b) fun key => some (b.append (keyOps seed type) key v)
  | .erase key => key.key.elim (some b) fun key => b.erase (keyOps seed type) key

theorem book_append (seed : UInt32) {type : ApeHashType} (b : Book (Key type) α) (at' : Nat)
    (key : Arg type) (v : Option α) : (Call.append at' key v).book seed b =
      key.key.elim (some b) fun key => some (b.append (keyOps seed type) key v) := rfl

theorem book_erase (seed : UInt32) {type : ApeHashType} (b : Book (Key type) α) (key : Arg type) :
    (Call.erase key).book seed b =
      key.key.elim (some b) fun key => b.erase (keyOps seed type) key := rfl

/-- **One call** keeps the book, or writes to freed memory. -/
theorem apply_holds (seed : UInt32) {type : ApeHashType} {h : Htable (Key type) α}
    {b : Book (Key type) α} {cells : List (Nat × Key type × Option α)} {before : Option Nat}
    (hb : Holds (keyOps seed type) h b cells before) (call : Call type α) :
    (∃ h' b' cells' before', call.apply seed h = some h' ∧ call.book seed b = some b' ∧
      Holds (keyOps seed type) h' b' cells' before') ∨
      call.apply seed h = none ∧ call.book seed b = none := by
  cases call with
  | append at' key v =>
    rw [apply_append, book_append]
    cases key.key with
    | none => exact .inl ⟨h, b, cells, before, rfl, rfl, hb⟩
    | some key =>
      obtain ⟨h', cells', before', happend, hholds⟩ := append_holds hb at' key v
      exact .inl ⟨h', _, cells', before', happend, rfl, hholds⟩
  | erase key =>
    rw [apply_erase, book_erase]
    cases key.key with
    | none => exact .inl ⟨h, b, cells, before, rfl, rfl, hb⟩
    | some key =>
      rcases erase_holds hb key with ⟨h', b', cells', herase, hbook, hholds⟩ | ⟨herase, hbook⟩
      · exact .inl ⟨h', b', cells', before, herase, hbook, hholds⟩
      · exact .inr ⟨herase, hbook⟩

/-- The book of a sequence of calls; `none` when one of them writes to freed memory. -/
def bookOf (seed : UInt32) {type : ApeHashType} (calls : List (Call type α)) :
    Option (Book (Key type) α) :=
  calls.foldlM (fun b call => call.book seed b) ⟨[], false⟩

/-- **A sequence of calls** holds its book, or writes to freed memory. -/
theorem run_holds (seed : UInt32) {type : ApeHashType} (calls : List (Call type α)) :
    (∃ h b cells before, run seed calls = some h ∧ bookOf seed calls = some b ∧
      Holds (keyOps seed type) h b cells before) ∨
      run seed calls = none ∧ bookOf seed calls = none := by
  induction calls using List.reverseRecOn with
  | nil => exact .inl ⟨_, _, [], none, rfl, rfl, holds_init _⟩
  | append_singleton calls call ih =>
    unfold run bookOf at ih ⊢
    rw [List.foldlM_append, List.foldlM_append]
    rcases ih with ⟨h, b, cells, before, hrun, hbook, hholds⟩ | ⟨hrun, hbook⟩
    · rw [hrun, hbook]
      simpa using apply_holds seed hholds call
    · rw [hrun, hbook]
      exact .inr ⟨rfl, rfl⟩

end Holds

end Ape.Table
