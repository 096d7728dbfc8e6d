import ApeServer.Table.Entries

/-!
# The list of all items of a hash table

`hashtbl_append` links the new item in front of the list of all items before it looks for the key,
and does not undo that when the key is there and the new item is freed.

* `Linked` — the list of all items holds what the buckets hold, and no link is dangling;
* `holds_linked_iff` — a table is linked if its newest item is not stale, and only then;
* `linked_iff` — **every state of a run is linked** exactly when no append of the run finds its key.
-/

namespace Ape.Table

open Assoc Links

variable {κ α : Type}

/-- The list of all items and the chains of the buckets hold the same items; the list can be followed
back to its beginning; no item links to freed memory. -/
structure Linked (h : Htable κ α) : Prop where
  items : ∃ items : List Nat, Seg h.mem HtableItem.lnext h.first items none ∧ items.Nodup ∧
    (∀ a, a ∈ items ↔ ∃ i chain, Seg h.mem HtableItem.next (h.table i) chain none ∧ a ∈ chain) ∧
    ∃ last, Seg h.mem HtableItem.lprev last items.reverse none
  live : ∀ a n, h.mem a = some n → ∀ p, n.next = some p ∨ n.lnext = some p ∨ n.lprev = some p →
    ∃ m, h.mem p = some m

section Holds

variable {K : KeyOps κ} {h : Htable κ α} {b : Book κ α} {cells : List (Nat × κ × Option α)}
  {before : Option Nat}

/-- The items of the chains are those of the list. -/
theorem Holds.mem_iff (hb : Holds K h b cells before) (a : Nat) :
    a ∈ cells.map Prod.fst ↔
      ∃ i chain, Seg h.mem HtableItem.next (h.table i) chain none ∧ a ∈ chain := by
  constructor
  · intro ha
    obtain ⟨c, hc, rfl⟩ := List.mem_map.1 ha
    refine ⟨K.bucket c.2.1, _, hb.chained.chains _, ?_⟩
    exact List.mem_map_of_mem (List.mem_filter.2 ⟨hc, decide_eq_true rfl⟩)
  · rintro ⟨i, as, hseg, ha⟩
    rw [hseg.unique (hb.chained.chains i)] at ha
    exact chain_subset ha

/-- A table without a stale address is linked. -/
theorem Holds.linked (hb : Holds K h b cells none) : Linked h := by
  obtain ⟨last, hback⟩ := hb.listed.back
  refine ⟨⟨_, hb.listed.forth, hb.alloc.nodup, hb.mem_iff, last, hback⟩, fun a n hn p hp => ?_⟩
  have ha := hb.alloc.live a n hn
  rcases hp with hp | hp
  · -- the chain of its bucket
    obtain ⟨c, hc, rfl⟩ := List.mem_map.1 ha
    have hmem : c.1 ∈ chain K (K.bucket c.2.1) cells :=
      List.mem_map_of_mem (List.mem_filter.2 ⟨hc, decide_eq_true rfl⟩)
    have hseg := hb.chained.chains (K.bucket c.2.1)
    obtain ⟨as, bs, hsplit⟩ := List.append_of_mem hmem
    rw [hsplit] at hseg
    have hnext := hseg.middle hn
    rw [hp, Option.or_none] at hnext
    exact hseg.live (List.mem_append_right _
      (List.mem_cons_of_mem _ (List.mem_of_mem_head? hnext.symm)))
  · obtain ⟨as, bs, hsplit⟩ := List.append_of_mem ha
    have hlisted := hb.listed
    rw [hsplit] at hlisted
    obtain ⟨hlprev, hlnext⟩ := hlisted.links hn
    rcases hp with hp | hp
    · rw [hlnext] at hp
      exact hlisted.forth.live (List.mem_append_right _
        (List.mem_cons_of_mem _ (List.mem_of_mem_head? hp)))
    · rw [hlprev, Option.or_none] at hp
      exact hlisted.forth.live (List.mem_append_left _ (List.mem_of_getLast? hp))

/-- A stale table: its first item is linked back. -/
theorem Holds.not_linked (hb : Holds K h b cells before) (hstale : b.stale = true) : ¬ Linked h := by
  rintro ⟨⟨items, hforth, -, -, last, hback⟩, -⟩
  obtain ⟨hne, d, hd, -⟩ := hb.stale hstale
  obtain ⟨c, cs, rfl⟩ := List.exists_cons_of_ne_nil hne
  have hitems := hforth.unique hb.listed.forth
  obtain ⟨it, hit, -⟩ := hb.chained.content c (List.mem_cons_self ..)
  rw [List.map_cons] at hitems
  have hlisted : Listed h.mem h.first before ([] ++ c.1 :: cs.map Prod.fst) := hb.listed
  have hlisted' : Listed h.mem h.first none ([] ++ c.1 :: cs.map Prod.fst) :=
    ⟨hitems ▸ hforth, last, hitems ▸ hback⟩
  have hlprev := (Listed.links hlisted hit).1
  have hnone := (Listed.links hlisted' hit).1
  rw [hlprev, hd] at hnone
  exact absurd hnone (by simp)

/-- **A table is linked** if it is not stale, and only then. -/
theorem holds_linked_iff (hb : Holds K h b cells before) : Linked h ↔ b.stale = false := by
  constructor
  · intro hlinked
    by_contra hstale
    exact hb.not_linked (by simpa using hstale) hlinked
  · intro hfresh
    obtain rfl := hb.fresh hfresh
    exact hb.linked

end Holds

/-! ## Runs -/

section Runs

variable {type : ApeHashType} (seed : UInt32)

/-- The table has an entry that an append for `key` would find: the last call for it was an append. -/
def Present (calls : List (Call type α)) (key : Key type) : Prop :=
  (lastLeft ((keyOps seed type).entry key) calls).isSome = true

/-- No append finds its key. -/
def NoOverwrite (calls : List (Call type α)) : Prop :=
  ∀ pre at' key v post, calls = pre ++ Call.append at' key v :: post →
    ∀ k, key.key = some k → ¬ Present seed pre k

theorem present_iff {calls : List (Call type α)} {b : Book (Key type) α}
    (h : bookOf seed calls = some b) (key : Key type) :
    Present seed calls key ↔ (b.entries.any fun e => (keyOps seed type).entry key e.1) = true := by
  unfold Present
  rw [← (find_bookOf seed h).2 key, Option.isSome_map, any_iff_first]

theorem NoOverwrite.initial {pre calls : List (Call type α)} (h : NoOverwrite seed calls)
    (hpre : pre <+: calls) : NoOverwrite seed pre := by
  obtain ⟨post, rfl⟩ := hpre
  intro pre' at' key v post' hsplit
  exact h pre' at' key v (post' ++ post) (by rw [hsplit]; simp)

/-- No overwrite leaves the newest item stale. -/
theorem NoOverwrite.fresh {calls : List (Call type α)} (h : NoOverwrite seed calls) :
    ∃ b, bookOf seed calls = some b ∧ b.stale = false := by
  induction calls using List.reverseRecOn with
  | nil => exact ⟨_, rfl, rfl⟩
  | append_singleton calls call ih =>
    obtain ⟨b, hb, hfresh⟩ := ih (h.initial seed (List.prefix_append _ _))
    have hbook : bookOf seed (calls ++ [call]) = call.book seed b := by
      unfold bookOf at hb ⊢
      rw [List.foldlM_append, hb]
      simp
    rw [hbook]
    cases call with
    | append at' key v =>
      rw [book_append]
      cases hkey : key.key with
      | none => exact ⟨b, rfl, hfresh⟩
      | some k =>
        have hnot := h calls at' key v [] rfl k hkey
        rw [present_iff seed hb] at hnot
        refine ⟨_, rfl, ?_⟩
        unfold Book.append
        rw [if_neg hnot]
    | erase key =>
      rw [book_erase]
      cases key.key with
      | none => exact ⟨b, rfl, hfresh⟩
      | some k => exact Book.erase_fresh hfresh k

/-- **The two lists of a table** agree in every state of a run if and only if no append of the run
finds its key. -/
theorem linked_iff (calls : List (Call type α)) :
    (∀ pre, pre <+: calls → ∃ h, run seed pre = some h ∧ Linked h) ↔ NoOverwrite seed calls := by
  constructor
  · rintro h pre at' key v post rfl k hk hpresent
    obtain ⟨h', hrun, hlinked⟩ := h (pre ++ [Call.append at' key v]) ⟨post, by simp⟩
    rcases run_holds seed (pre ++ [Call.append at' key v]) with
      ⟨_, b, cells, before, hrun', hbook, hholds⟩ | ⟨hnone, -⟩
    · obtain rfl := Option.some.inj (hrun.symm.trans hrun')
      have hfresh := (holds_linked_iff hholds).1 hlinked
      -- the append has found its key
      unfold bookOf at hbook
      rw [List.foldlM_append] at hbook
      obtain ⟨b₀, hb₀, hcall⟩ := Option.bind_eq_some_iff.1 hbook
      have hb : b = b₀.append (keyOps seed type) k v := by
        have hcall' : (Call.append at' key v).book seed b₀ = some b := by simpa using hcall
        rw [book_append, hk] at hcall'
        exact (Option.some.inj hcall').symm
      rw [present_iff seed hb₀] at hpresent
      rw [hb] at hfresh
      unfold Book.append at hfresh
      rw [if_pos hpresent] at hfresh
      exact Bool.noConfusion hfresh
    · exact absurd (hrun.symm.trans hnone) (by simp)
  · intro h pre hpre
    obtain ⟨b, hbook, hfresh⟩ := (h.initial seed hpre).fresh seed
    rcases run_holds seed pre with ⟨h', b', cells, before, hrun, hbook', hholds⟩ | ⟨-, hnone⟩
    · obtain rfl := Option.some.inj (hbook.symm.trans hbook')
      exact ⟨h', hrun, (holds_linked_iff hholds).2 hfresh⟩
    · exact absurd (hbook.symm.trans hnone) (by simp)

/-- Two appends for one key. -/
def twice : List (Call .int Nat) := [.append 0 (5 : UInt64) (some 1), .append 1 (5 : UInt64) (some 2)]

/-- Behind them the first item is linked back to the item that was freed. -/
theorem linked_fails :
    ¬ ∀ (seed : UInt32) (type : ApeHashType) (calls pre : List (Call type Nat)), pre <+: calls →
      ∃ h, run seed pre = some h ∧ Linked h := by
  intro h
  have hbook : bookOf 0 twice = some ⟨[((5 : UInt64), some 2)], true⟩ := rfl
  obtain ⟨h', hrun, hlinked⟩ := h 0 .int twice twice List.prefix_rfl
  rcases run_holds 0 twice with ⟨_, b, cells, before, hrun', hbook', hholds⟩ | ⟨-, hnone⟩
  · obtain rfl := Option.some.inj (hrun.symm.trans hrun')
    obtain rfl := Option.some.inj (hbook.symm.trans hbook')
    exact Bool.noConfusion ((holds_linked_iff hholds).1 hlinked)
  · exact absurd (hbook.symm.trans hnone) (by simp)

end Runs

end Ape.Table
