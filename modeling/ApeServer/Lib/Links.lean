import Mathlib.Data.List.Basic
import Mathlib.Data.List.Nodup

/-!
# Linked lists in a memory

A memory gives the node at an address, if there is one.  Nodes are linked by a field, and a list of
several fields is a list for each of them.

* `Seg` — the addresses from a pointer along a field, up to another pointer;
* `Seg.frame`, `Seg.unlink`, `Seg.snoc` — a store elsewhere, a node taken out, a node at the end;
* `Seg.unique` — a list that ends is the only one from its pointer;
* `search`, `search_miss`, `search_hit` — a loop along a field that looks for a node.
-/

namespace Ape.Links

variable {A N : Type*}

/-- From `p` along `link` lie the addresses of a list, and behind them the pointer `e`. -/
def Seg (μ : A → Option N) (link : N → Option A) : Option A → List A → Option A → Prop
  | p, [], e => p = e
  | p, a :: as, e => p = some a ∧ ∃ n, μ a = some n ∧ Seg μ link (link n) as e

/-- The memory `μ'` has the links of `μ` at an address. -/
def SameLink (μ μ' : A → Option N) (link : N → Option A) (a : A) : Prop :=
  ∀ n, μ a = some n → ∃ n', μ' a = some n' ∧ link n' = link n

section Seg

variable {μ μ' : A → Option N} {link : N → Option A} {p e : Option A} {as bs : List A} {a : A}

theorem Seg.live (h : Seg μ link p as e) (ha : a ∈ as) : ∃ n, μ a = some n := by
  induction as generalizing p with
  | nil => exact absurd ha (List.not_mem_nil)
  | cons b bs ih =>
    obtain ⟨-, n, hn, hrest⟩ := h
    rcases List.mem_cons.1 ha with rfl | ha
    · exact ⟨n, hn⟩
    · exact ih hrest ha

theorem Seg.start (h : Seg μ link p as e) : p = as.head?.or e := by
  cases as with
  | nil => exact h
  | cons a as => exact h.1

/-- A store that leaves the links of a list alone. -/
theorem Seg.frame (h : Seg μ link p as e) (hsame : ∀ a ∈ as, SameLink μ μ' link a) :
    Seg μ' link p as e := by
  induction as generalizing p with
  | nil => exact h
  | cons a as ih =>
    obtain ⟨hp, n, hn, hrest⟩ := h
    obtain ⟨n', hn', hlink⟩ := hsame a (List.mem_cons_self ..) n hn
    refine ⟨hp, n', hn', ?_⟩
    rw [hlink]
    exact ih hrest fun b hb => hsame b (List.mem_cons_of_mem _ hb)

/-- A segment of a list splits where its addresses are split. -/
theorem seg_append : Seg μ link p (as ++ bs) e ↔ ∃ m, Seg μ link p as m ∧ Seg μ link m bs e := by
  induction as generalizing p with
  | nil =>
    constructor
    · intro h
      exact ⟨p, rfl, h⟩
    · rintro ⟨m, rfl, h⟩
      exact h
  | cons a as ih =>
    constructor
    · rintro ⟨hp, n, hn, hrest⟩
      obtain ⟨m, has, hbs⟩ := ih.1 hrest
      exact ⟨m, ⟨hp, n, hn, has⟩, hbs⟩
    · rintro ⟨m, ⟨hp, n, hn, has⟩, hbs⟩
      exact ⟨hp, n, hn, ih.2 ⟨m, has, hbs⟩⟩

/-- A list that ends is the only one from its pointer. -/
theorem Seg.unique (h : Seg μ link p as none) (h' : Seg μ link p bs none) : as = bs := by
  induction as generalizing p bs with
  | nil =>
    cases bs with
    | nil => rfl
    | cons b bs => exact absurd (h.symm.trans h'.1) (by simp)
  | cons a as ih =>
    cases bs with
    | nil => exact absurd (h'.symm.trans h.1) (by simp)
    | cons b bs =>
      obtain ⟨hp, n, hn, hrest⟩ := h
      obtain ⟨hp', n', hn', hrest'⟩ := h'
      obtain rfl := Option.some.inj (hp.symm.trans hp')
      obtain rfl := Option.some.inj (hn.symm.trans hn')
      rw [ih hrest hrest']

/-- A list that ends meets no address twice. -/
theorem Seg.nodup (h : Seg μ link p as none) : as.Nodup := by
  induction as generalizing p with
  | nil => exact List.nodup_nil
  | cons a as ih =>
    have hall := h
    obtain ⟨rfl, n, hn, hrest⟩ := h
    refine List.nodup_cons.2 ⟨?_, ih hrest⟩
    intro hmem
    -- from the second place the list would be the same, and shorter
    obtain ⟨before, after, rfl⟩ := List.append_of_mem hmem
    obtain ⟨m, -, hsecond⟩ := seg_append.1 hrest
    obtain rfl : m = some a := hsecond.1
    have heq := hall.unique hsecond
    have hlength := congrArg List.length heq
    simp only [List.length_cons, List.length_append] at hlength
    omega

/-- **A node is taken out**: the node before it is linked to the one behind it. -/
theorem Seg.unlink {n : N} (h : Seg μ link p (as ++ a :: bs) e) (hn : μ a = some n)
    (hlast : ∀ c, as.getLast? = some c → ∃ n', μ' c = some n' ∧ link n' = link n)
    (hsame : ∀ c ∈ as.dropLast ++ bs, SameLink μ μ' link c) :
    Seg μ' link (if as = [] then link n else p) (as ++ bs) e := by
  induction as generalizing p with
  | nil =>
    obtain ⟨-, n₁, hn₁, hrest⟩ := h
    obtain rfl := Option.some.inj (hn₁.symm.trans hn)
    exact hrest.frame fun c hc => hsame c hc
  | cons c as ih =>
    rw [if_neg (List.cons_ne_nil _ _)]
    obtain ⟨hp, n₁, hn₁, hrest⟩ := h
    cases as with
    | nil =>
      obtain ⟨n', hn', hlink⟩ := hlast c rfl
      obtain ⟨-, n₂, hn₂, hrest₂⟩ := hrest
      obtain rfl := Option.some.inj (hn₂.symm.trans hn)
      refine ⟨hp, n', hn', ?_⟩
      rw [hlink]
      exact hrest₂.frame fun b hb => hsame b hb
    | cons c' as =>
      obtain ⟨n', hn', hlink⟩ := hsame c (List.mem_cons_self ..) n₁ hn₁
      have hrest' := ih hrest hlast fun b hb => hsame b (List.mem_cons_of_mem _ hb)
      refine ⟨hp, n', hn', ?_⟩
      rwa [hlink]

/-- **A node at the end**: the last node is linked to it. -/
theorem Seg.snoc {n : N} {e' : Option A} (h : Seg μ link p as e) (ha : μ' a = some n)
    (hend : link n = e') (hlast : ∀ c, as.getLast? = some c → ∃ n', μ' c = some n' ∧ link n' = some a)
    (hsame : ∀ c ∈ as.dropLast, SameLink μ μ' link c) :
    Seg μ' link (if as = [] then some a else p) (as ++ [a]) e' := by
  induction as generalizing p with
  | nil => exact ⟨rfl, n, ha, hend⟩
  | cons c as ih =>
    rw [if_neg (List.cons_ne_nil _ _)]
    obtain ⟨hp, n₁, hn₁, hrest⟩ := h
    cases as with
    | nil =>
      obtain ⟨n', hn', hlink⟩ := hlast c rfl
      exact ⟨hp, n', hn', hlink, n, ha, hend⟩
    | cons c' as =>
      obtain ⟨n', hn', hlink⟩ := hsame c (List.mem_cons_self ..) n₁ hn₁
      have hrest' := ih hrest hlast fun b hb => hsame b (List.mem_cons_of_mem _ hb)
      refine ⟨hp, n', hn', ?_⟩
      rwa [hlink]

/-- **The last node is linked elsewhere.** -/
theorem Seg.relink {n : N} {e' : Option A} (h : Seg μ link p (as ++ [a]) e) (ha : μ' a = some n)
    (hend : link n = e') (hsame : ∀ c ∈ as, SameLink μ μ' link c) : Seg μ' link p (as ++ [a]) e' := by
  obtain ⟨m, has, hm, -⟩ := seg_append.1 h
  exact seg_append.2 ⟨m, has.frame hsame, hm, n, ha, hend⟩

/-- The last node of a list is linked to what lies behind it. -/
theorem Seg.last (h : Seg μ link p (as ++ [a]) e) : ∃ n, μ a = some n ∧ link n = e := by
  induction as generalizing p with
  | nil =>
    obtain ⟨-, n, hn, hend⟩ := h
    exact ⟨n, hn, hend⟩
  | cons c as ih =>
    obtain ⟨-, n, -, hrest⟩ := h
    exact ih hrest

/-- A node in the middle is linked to the one behind it. -/
theorem Seg.middle {n : N} (h : Seg μ link p (as ++ a :: bs) e) (hn : μ a = some n) :
    link n = bs.head?.or e := by
  induction as generalizing p with
  | nil =>
    obtain ⟨-, n₁, hn₁, hrest⟩ := h
    obtain rfl := Option.some.inj (hn₁.symm.trans hn)
    exact hrest.start
  | cons c as ih =>
    obtain ⟨-, n₁, -, hrest⟩ := h
    exact ih hrest

end Seg

/-! ## Searching -/

section Search

/-- The loop along `link` from `p` to the first node with a property: that node and the one before
it.  Nothing is found at the end of the list; the loop fails on a pointer to no node, and when it
has not ended after `fuel` nodes. -/
def search (μ : A → Option N) (link : N → Option A) (P : N → Bool) :
    Nat → Option A → Option A → Option (Option (A × Option A))
  | _, none, _ => some none
  | 0, some _, _ => none
  | fuel + 1, some a, before =>
    (μ a).bind fun n => if P n then some (some (a, before)) else search μ link P fuel (link n) (some a)

variable {μ : A → Option N} {link : N → Option A} {P : N → Bool} {as bs : List A} {a : A}

theorem search_miss {p : Option A} {fuel : Nat} (h : Seg μ link p as none)
    (hmiss : ∀ c ∈ as, ∀ n, μ c = some n → P n = false) (hfuel : as.length ≤ fuel)
    (before : Option A) : search μ link P fuel p before = some none := by
  induction as generalizing p fuel before with
  | nil =>
    obtain rfl : p = none := h
    cases fuel <;> rfl
  | cons c as ih =>
    obtain ⟨rfl, n, hn, hrest⟩ := h
    cases fuel with
    | zero => exact absurd hfuel (by simp)
    | succ fuel =>
      rw [search, hn, Option.bind_some, hmiss c (List.mem_cons_self ..) n hn, if_neg (by simp)]
      exact ih hrest (fun b hb => hmiss b (List.mem_cons_of_mem _ hb)) (Nat.le_of_succ_le_succ hfuel) _

theorem search_hit {p : Option A} {fuel : Nat} {n : N} {e : Option A}
    (h : Seg μ link p (as ++ a :: bs) e) (hmiss : ∀ c ∈ as, ∀ n, μ c = some n → P n = false)
    (hn : μ a = some n) (hhit : P n = true) (hfuel : as.length < fuel) (before : Option A) :
    search μ link P fuel p before = some (some (a, as.getLast?.or before)) := by
  induction as generalizing p fuel before with
  | nil =>
    obtain ⟨rfl, -⟩ := h
    cases fuel with
    | zero => exact absurd hfuel (by simp)
    | succ fuel =>
      rw [search, hn, Option.bind_some, if_pos hhit]
      rfl
  | cons c as ih =>
    obtain ⟨rfl, n₁, hn₁, hrest⟩ := h
    cases fuel with
    | zero => exact absurd hfuel (by simp)
    | succ fuel =>
      rw [search, hn₁, Option.bind_some, hmiss c (List.mem_cons_self ..) n₁ hn₁, if_neg (by simp),
        ih hrest (fun b hb => hmiss b (List.mem_cons_of_mem _ hb)) (Nat.lt_of_succ_lt_succ hfuel)]
      cases as with
      | nil => rfl
      | cons d as =>
        rw [List.getLast?_cons_cons, List.getLast?_eq_getLast_of_ne_nil (List.cons_ne_nil d as)]
        rfl

end Search

end Ape.Links
