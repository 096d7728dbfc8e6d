import ApeServer.Table.Entries

/-!
# Looking up a string in a hash table

`ape_hash_str` hashes the bytes of a key, and the items of a bucket are compared by `strcasecmp`, so
keys that differ in letter case are taken for each other if they happen to share a bucket.

* `seek_chained`, `seek_holds` — a table answers from the items of its chains;
* `lastAppended` — what was last appended under a key, ignoring case;
* `Unharmed`, `BucketTold` — no erase writes to freed memory, and the bucket of a key knows what
  happened last to it;
* `seek_iff` — **`hashtbl_seek` returns the value last appended** exactly under these two.
-/

namespace Ape.Table

open Assoc CString Links

variable {κ α : Type}

/-- **A lookup** answers from the items of the chains. -/
theorem seek_chained {K : KeyOps κ} {h : Htable κ α} {cells : List (Nat × κ × Option α)}
    (hc : Chained K h.mem h.table cells) (hlen : cells.length ≤ h.brk) (key : κ) :
    seek K key h = some ((first (K.entry key) (cells.map Prod.snd)).map Prod.snd).join := by
  rcases entries_cases K key cells with hmiss | ⟨cs₁, ⟨a, k, w⟩, cs₂, rfl, hmiss, hhit⟩
  · have hnone : first (K.entry key) (cells.map Prod.snd) = none := by
      unfold first
      rw [List.find?_eq_none]
      intro e he
      obtain ⟨c, hmem, rfl⟩ := List.mem_map.1 he
      simp [hmiss c hmem]
    unfold seek
    rw [findKey_miss hc hlen hmiss, hnone]
    rfl
  · have hsome : first (K.entry key) ((cs₁ ++ (a, k, w) :: cs₂).map Prod.snd) = some (k, w) := by
      unfold first
      rw [List.map_append, List.find?_append, List.find?_eq_none.2, Option.none_or, List.map_cons,
        List.find?_cons_of_pos]
      · exact hhit
      · intro e he
        obtain ⟨c, hmem, rfl⟩ := List.mem_map.1 he
        simp [hmiss c hmem]
    obtain ⟨it, hit, -, haddrs⟩ := hc.content (a, k, w) (by simp)
    unfold seek
    rw [findKey_hit hc hlen hmiss hhit, hsome]
    simp only [bind, Option.bind_some, hit, pure, haddrs]
    rfl

/-- A lookup in a table that holds a book. -/
theorem seek_holds {K : KeyOps κ} {h : Htable κ α} {b : Book κ α}
    {cells : List (Nat × κ × Option α)} {before : Option Nat} (hb : Holds K h b cells before)
    (key : κ) :
    seek K key h = some ((first (K.entry key) b.entries).map Prod.snd).join := by
  have hlen : cells.length ≤ h.brk := by
    have := hb.alloc.length_le
    rwa [List.length_map] at this
  rw [← hb.entries]
  exact seek_chained hb.chained hlen key

/-! ## Strings -/

section Strings

variable (seed : UInt32) (calls : List (Call .str α)) (q : StrKey)

/-- What was last appended under a key that is equal to `q` ignoring case, and not erased since. -/
def lastAppended (calls : List (Call .str α)) (q : StrKey) : Option α :=
  (lastLeft (fun k : Key .str => strcasecmp (StrKey.bytes k) q.bytes) calls).join

/-- `hashtbl_seek` returns it. -/
def SeeksLast : Prop :=
  ∃ h, run seed calls = some h ∧ hashtblSeek seed (some q) h = some (lastAppended calls q)

/-- No erase takes the newest item of the table away when an append has overwritten a value since
the item was new. -/
def Unharmed : Prop := (bookOf seed calls).isSome = true

/-- The last call for `q`, ignoring case, has left what the last such call in the bucket of `q`
has. -/
def BucketTold : Prop :=
  (lastLeft (fun k : Key .str => apeHashStr seed (StrKey.bytes k) == apeHashStr seed q.bytes &&
    strcasecmp (StrKey.bytes k) q.bytes) calls).join = lastAppended calls q

/-- **`hashtbl_seek`** returns what was last appended under its key, ignoring case, if and only if no
erase has written to freed memory and the bucket of the key knows what happened last to it. -/
theorem seek_iff : SeeksLast seed calls q ↔ Unharmed seed calls ∧ BucketTold seed calls q := by
  unfold SeeksLast Unharmed
  rcases run_holds seed calls with ⟨h, b, cells, before, hrun, hbook, hholds⟩ | ⟨hrun, hbook⟩
  · have hseek : hashtblSeek seed (some q) h = some
        (lastLeft ((keyOps seed .str).entry q) calls).join := by
      rw [← (find_bookOf seed hbook).2 q]
      exact seek_holds hholds q
    rw [hrun, hbook]
    constructor
    · rintro ⟨h', hh', hlast⟩
      obtain rfl := Option.some.inj hh'
      exact ⟨rfl, Option.some.inj (hseek.symm.trans hlast)⟩
    · rintro ⟨-, htold⟩
      exact ⟨h, rfl, hseek.trans (congrArg some htold)⟩
  · rw [hrun, hbook]
    exact iff_of_false (fun ⟨_, hh', _⟩ => absurd hh' (by simp)) (fun hu => Bool.noConfusion hu.1)

/-- `A`. -/
def upperA : StrKey := ⟨[65], by decide, by decide⟩

/-- `a`. -/
def lowerA : StrKey := ⟨[97], by decide, by decide⟩

/-- An append of `A`. -/
def appendA : List (Call .str Nat) := [.append 0 (some upperA) (some 1)]

/-- Under the seed 0 the two have different buckets: `a` is not found behind an append of `A`. -/
theorem seek_fails :
    ¬ ∀ (seed : UInt32) (calls : List (Call .str Nat)) (q : StrKey), SeeksLast seed calls q := by
  intro h
  obtain ⟨t, hrun, hseek⟩ := h 0 appendA lowerA
  have hnone : (run 0 appendA).bind (hashtblSeek 0 (some lowerA)) = some none := by decide
  rw [hrun] at hnone
  exact absurd (hseek.symm.trans hnone) (by decide)

/-- Under the seed 5267 they share one. -/
example : (run 5267 appendA).bind (hashtblSeek 5267 (some lowerA)) = some (some 1) := by decide

end Strings

end Ape.Table
