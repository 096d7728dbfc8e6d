import ApeServer.Lib.Assoc
import ApeServer.Table.Items

/-!
# What a hash table knows of its calls

A table takes keys of one bucket that compare equal for each other.  For every key it holds the value
of the last append for it, unless an erase came later.

* `first_overwrite`, `first_eraseP` — an overwrite and an erase are seen under the keys of the entry;
* `lastLeft` — what the last call for some keys has left;
* `find_bookOf` — **the entry of a key** is that of its last call.
-/

namespace Ape.Table

open Assoc Links

variable {κ α : Type}

/-! ## Entries and keys -/

section Entries

variable (K : KeyOps κ)

theorem KeyOps.entry_iff {key k : κ} :
    K.entry key k = true ↔ K.bucket k = K.bucket key ∧ K.same k key = true := by
  unfold KeyOps.entry
  rw [Bool.and_eq_true, beq_iff_eq]

/-- Keys that are taken for each other. -/
theorem KeyOps.entry_congr {k k' : κ} (h : K.entry k' k = true) (key : κ) :
    K.entry key k = K.entry key k' := by
  obtain ⟨hbucket, hsame⟩ := K.entry_iff.1 h
  rw [Bool.eq_iff_iff, K.entry_iff, K.entry_iff, hbucket]
  exact and_congr_right fun _ =>
    ⟨fun hk => K.equivalence.trans (K.equivalence.symm hsame) hk,
      fun hk => K.equivalence.trans hsame hk⟩

theorem KeyOps.entry_comm (key k : κ) : K.entry key k = K.entry k key := by
  rw [Bool.eq_iff_iff, K.entry_iff, K.entry_iff]
  exact ⟨fun hk => ⟨hk.1.symm, K.equivalence.symm hk.2⟩,
    fun hk => ⟨hk.1.symm, K.equivalence.symm hk.2⟩⟩

theorem KeyOps.entry_congr_left {k k' : κ} (h : K.entry k' k = true) (key : κ) :
    K.entry k key = K.entry k' key := by
  rw [K.entry_comm k, K.entry_congr h, K.entry_comm]

theorem KeyOps.entry_refl (key : κ) : K.entry key key = true :=
  K.entry_iff.2 ⟨rfl, K.equivalence.refl key⟩

/-- No key has two entries. -/
def Distinct (entries : List (κ × Option α)) : Prop :=
  entries.Pairwise fun e e' => K.entry e.1 e'.1 = false

variable {K} {key key' : κ} {v : Option α} {entries : List (κ × Option α)}

theorem overwrite_keys (P : κ → Bool) (v : Option α) (entries : List (κ × Option α)) :
    (overwrite P v entries).map Prod.fst = entries.map Prod.fst := by
  induction entries with
  | nil => rfl
  | cons e es ih =>
    rw [overwrite]
    split
    · rfl
    · rw [List.map_cons, ih, List.map_cons]

theorem Distinct.of_keys {entries' : List (κ × Option α)} (h : Distinct K entries)
    (hkeys : entries'.map Prod.fst = entries.map Prod.fst) : Distinct K entries' := by
  unfold Distinct at h ⊢
  rw [← List.pairwise_map (f := Prod.fst) (R := fun k k' => K.entry k k' = false)] at h ⊢
  rwa [hkeys]

/-- An overwrite is seen under the keys of its entry. -/
theorem first_overwrite (hany : (first (K.entry key') entries).isSome) :
    (first (K.entry key) (overwrite (K.entry key') v entries)).map Prod.snd =
      if K.entry key key' then some v else (first (K.entry key) entries).map Prod.snd := by
  induction entries with
  | nil => exact absurd hany Bool.false_ne_true
  | cons e es ih =>
    rw [overwrite, first_cons]
    by_cases he : K.entry key' e.1 = true
    · rw [if_pos he, first_cons, K.entry_congr he key]
      split <;> rfl
    · rw [first_cons, if_neg he] at hany
      rw [if_neg he, first_cons, apply_ite (Option.map Prod.snd), ih hany]
      by_cases hkey : K.entry key e.1 = true
      · have hne : ¬ K.entry key key' = true := by
          intro hkk
          rw [← K.entry_congr_left hkk] at hkey
          exact he hkey
        rw [if_pos hkey, if_neg hne, if_pos hkey]
      · rw [if_neg hkey, if_neg hkey]

/-- An erase is seen under the keys of its entry. -/
theorem first_eraseP (hdistinct : Distinct K entries) :
    first (K.entry key) (entries.eraseP fun e => K.entry key' e.1) =
      if K.entry key key' then none else first (K.entry key) entries := by
  induction entries with
  | nil => exact (ite_self none).symm
  | cons e es ih =>
    obtain ⟨hhead, htail⟩ := List.pairwise_cons.1 hdistinct
    rw [List.eraseP_cons, first_cons]
    cases he : K.entry key' e.1 with
    | true =>
      rw [K.entry_congr he key]
      by_cases hkey : K.entry key key' = true
      · rw [if_pos hkey, cond_true]
        unfold first
        rw [List.find?_eq_none]
        intro x hx hentry
        have : K.entry e.1 x.1 = true := by
          rwa [K.entry_congr_left he, K.entry_congr_left hkey]
        rw [hhead x hx] at this
        exact Bool.noConfusion this
      · rw [if_neg hkey, if_neg hkey, cond_true]
    | false =>
      rw [cond_false, first_cons, ih htail]
      by_cases hkey : K.entry key e.1 = true
      · have hne : ¬ K.entry key key' = true := by
          intro hkk
          rw [← K.entry_congr_left hkk, he] at hkey
          exact Bool.noConfusion hkey
        rw [if_pos hkey, if_neg hne, if_pos hkey]
      · rw [if_neg hkey, if_neg hkey]

theorem Distinct.eraseP (h : Distinct K entries) (P : κ × Option α → Bool) :
    Distinct K (entries.eraseP P) := List.Pairwise.sublist List.eraseP_sublist h

end Entries

/-! ## Books -/

section Books

variable {K : KeyOps κ} {b b' : Book κ α} {key key' : κ} {v : Option α}

theorem any_iff_first (P : κ → Bool) (entries : List (κ × Option α)) :
    (entries.any fun e => P e.1) = (first P entries).isSome := by
  unfold first
  rw [Bool.eq_iff_iff, List.any_eq_true, List.find?_isSome]

theorem Book.append_distinct (h : Distinct K b.entries) (key : κ) (v : Option α) :
    Distinct K (b.append K key v).entries := by
  unfold Book.append
  split
  · exact h.of_keys (overwrite_keys _ _ _)
  · next hany =>
    refine List.pairwise_cons.2 ⟨fun e he => ?_, h⟩
    rw [Bool.not_eq_true, List.any_eq_false] at hany
    simpa using hany e he

theorem Book.first_append (key key' : κ) (v : Option α) (b : Book κ α) :
    (first (K.entry key) (b.append K key' v).entries).map Prod.snd =
      if K.entry key key' then some v else (first (K.entry key) b.entries).map Prod.snd := by
  unfold Book.append
  rw [any_iff_first]
  split
  · next hany => exact first_overwrite hany
  · rw [first_cons, apply_ite (Option.map Prod.snd)]
    rfl

/-- What is left behind an erase. -/
theorem Book.erase_entries (h : b.erase K key' = some b') :
    b'.entries = b.entries.eraseP fun e => K.entry key' e.1 := by
  obtain ⟨_ | ⟨e, es⟩, stale⟩ := b
  · obtain rfl := Option.some.inj h
    rfl
  · unfold Book.erase at h
    simp only at h
    rw [List.eraseP_cons]
    cases he : K.entry key' e.1 with
    | true =>
      rw [he, if_pos rfl] at h
      cases stale with
      | true => exact absurd h (by simp)
      | false =>
        obtain rfl := Option.some.inj h
        rfl
    | false =>
      rw [he, if_neg Bool.false_ne_true] at h
      obtain rfl := Option.some.inj h
      rfl

theorem Book.erase_fresh (h : b.stale = false) (key : κ) :
    ∃ b', b.erase K key = some b' ∧ b'.stale = false := by
  obtain ⟨_ | ⟨e, es⟩, stale⟩ := b
  · exact ⟨_, rfl, h⟩
  · obtain rfl : stale = false := h
    unfold Book.erase
    simp only
    split
    · exact ⟨_, rfl, rfl⟩
    · exact ⟨_, rfl, rfl⟩

end Books

/-! ## The last call for a key -/

section Calls

variable {type : ApeHashType} (seed : UInt32)

/-- The key of a call, unless it is `NULL`. -/
def Call.key : Call type α → Option (Key type)
  | .append _ key _ => key.key
  | .erase key => key.key

/-- What a call leaves under its keys: an append its value, an erase nothing. -/
def Call.value : Call type α → Option (Option α)
  | .append _ _ v => some v
  | .erase _ => none

/-- What the last call for the keys with a property has left. -/
def lastLeft (P : Key type → Bool) (calls : List (Call type α)) : Option (Option α) :=
  (calls.reverse.find? fun c => c.key.any P).bind Call.value

theorem lastLeft_snoc (P : Key type → Bool) (calls : List (Call type α)) (c : Call type α) :
    lastLeft P (calls ++ [c]) = bif c.key.any P then c.value else lastLeft P calls := by
  unfold lastLeft
  rw [List.reverse_append, List.reverse_singleton, List.singleton_append, List.find?_cons]
  cases c.key.any P <;> rfl

/-- The call for the keys with a property. -/
theorem any_key_append (P : Key type → Bool) (at' : Nat) (key : Arg type) (v : Option α) :
    (Call.append at' key v).key.any P = key.key.any P := rfl

theorem any_key_erase (P : Key type → Bool) (key : Arg type) :
    (Call.erase key : Call type α).key.any P = key.key.any P := rfl

/-- One call keeps the keys distinct, and changes what is found under its own key only. -/
theorem book_first {b b' : Book (Key type) α} {call : Call type α}
    (hdistinct : Distinct (keyOps seed type) b.entries) (h : call.book seed b = some b') :
    Distinct (keyOps seed type) b'.entries ∧ ∀ key,
      (first ((keyOps seed type).entry key) b'.entries).map Prod.snd =
        bif call.key.any ((keyOps seed type).entry key) then call.value
        else (first ((keyOps seed type).entry key) b.entries).map Prod.snd := by
  cases call with
  | append at' key' v =>
    rw [book_append] at h
    simp only [any_key_append]
    cases hkey : key'.key with
    | none =>
      rw [hkey] at h
      obtain rfl := Option.some.inj h
      exact ⟨hdistinct, fun _ => rfl⟩
    | some k =>
      rw [hkey] at h
      obtain rfl := Option.some.inj h
      refine ⟨Book.append_distinct hdistinct k v, fun key => ?_⟩
      rw [Book.first_append, Option.any_some, Bool.cond_eq_ite]
      rfl
  | erase key' =>
    rw [book_erase] at h
    simp only [any_key_erase]
    cases hkey : key'.key with
    | none =>
      rw [hkey] at h
      obtain rfl := Option.some.inj h
      exact ⟨hdistinct, fun _ => rfl⟩
    | some k =>
      rw [hkey] at h
      rw [Book.erase_entries h]
      refine ⟨hdistinct.eraseP _, fun key => ?_⟩
      rw [first_eraseP hdistinct, apply_ite (Option.map Prod.snd), Option.any_some, Bool.cond_eq_ite]
      rfl

/-- **The entry of a key** is what the last call for it has left. -/
theorem find_bookOf {calls : List (Call type α)} {b : Book (Key type) α}
    (h : bookOf seed calls = some b) :
    Distinct (keyOps seed type) b.entries ∧ ∀ key,
      (first ((keyOps seed type).entry key) b.entries).map Prod.snd =
        lastLeft ((keyOps seed type).entry key) calls := by
  induction calls using List.reverseRecOn generalizing b with
  | nil =>
    obtain rfl := Option.some.inj h
    exact ⟨List.Pairwise.nil, fun _ => rfl⟩
  | append_singleton calls call ih =>
    unfold bookOf at h ih
    rw [List.foldlM_append] at h
    obtain ⟨b₀, hb₀, hcall⟩ := Option.bind_eq_some_iff.1 h
    simp only [List.foldlM_cons, List.foldlM_nil, bind_pure] at hcall
    obtain ⟨hdistinct, hfirst⟩ := ih hb₀
    obtain ⟨hdistinct', hcallFirst⟩ := book_first seed hdistinct hcall
    refine ⟨hdistinct', fun key => ?_⟩
    rw [lastLeft_snoc, hcallFirst key, hfirst key]

end Calls

end Ape.Table
