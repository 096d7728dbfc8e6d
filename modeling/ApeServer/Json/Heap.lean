import ApeServer.Json.Item
import ApeServer.Lib.Forest
import ApeServer.Lib.Links

/-!
# Items that are linked as trees

All items lie in one memory, whoever allocated them: the callback, the setters or the copy.  What
they have in common is kept here apart from the functions, one kind of store at a time.

* `Row` — the items behind one another, from a pointer on;
* `Kept` — links have no cycle and agree with the fathers, and a tail pointer that is set is the last
  child;
* `Kept.append`, `Kept.linkChild`, `Kept.linkNext`, `Kept.setHead` — **the stores that keep it**.
-/

namespace Ape.Json

open Relation

/-- The items behind one another, from a pointer on. -/
def Row (items : List Item) : Option Nat → List Nat → Prop :=
  fun p row => Links.Seg (fun i => items[i]?) Item.next p row none

/-- The links of an item, as those of a forest. -/
theorem link_eq (items : List Item) :
    Link items = Forest.Points (fun i => items[i]?) Item.child Item.next := rfl

/-- The items are linked as trees: no path of links is endless; the father of a child is the item
it is below, and brothers have one father; and where an item with children has a tail pointer, it
points to the last of them. -/
structure Kept (items : List Item) : Prop where
  grounded : ∀ i, Forest.Grounded (fun i => items[i]?) Item.child Item.next i
  child : ∀ (i j : Nat) (it : Item), items[i]? = some it → it.child = some j →
    ∃ jt, items[j]? = some jt ∧ jt.father = some i
  next : ∀ (i j : Nat) (it : Item), items[i]? = some it → it.next = some j →
    ∃ jt, items[j]? = some jt ∧ jt.father = it.father
  tail : ∀ (i t : Nat) (it : Item), items[i]? = some it → it.child ≠ none → it.childHead = some t →
    ∃ row, Row items it.child (row ++ [t])

/-! ## What follows -/

section

variable {items : List Item}

theorem kept_nil : Kept [] := by
  refine ⟨?_, ?_, ?_, ?_⟩
  · intro i
    refine Acc.intro i ?_
    rintro j ⟨it, hit, -⟩
    exact absurd hit (by simp)
  · intro i j it hit
    exact absurd hit (by simp)
  · intro i j it hit
    exact absurd hit (by simp)
  · intro i t it hit
    exact absurd hit (by simp)

/-- A link of an item leads to an item in memory. -/
theorem Kept.inside (h : Kept items) {i j : Nat} (hlink : Link items i j) : j < items.length := by
  obtain ⟨it, hit, hj⟩ := hlink
  rcases hj with hj | hj
  · obtain ⟨jt, hjt, -⟩ := h.child i j it hit hj
    exact (List.getElem?_eq_some_iff.1 hjt).1
  · obtain ⟨jt, hjt, -⟩ := h.next i j it hit hj
    exact (List.getElem?_eq_some_iff.1 hjt).1

theorem Kept.reach_inside (h : Kept items) {i j : Nat} (hi : i < items.length)
    (hreach : Reach items i j) : j < items.length := by
  induction hreach with
  | refl => exact hi
  | tail _ hlink _ => exact h.inside hlink

/-- Every item is the root of a forest, and there are no longer paths than there are items. -/
theorem Kept.exists_spells (h : Kept items) {i : Nat} (hi : i < items.length) :
    ∃ F : Forest (Nat × Item), F.Spells (fun i => items[i]?) Item.child Item.next (some i) ∧
      F.height ≤ items.length := by
  obtain ⟨F, hF, hheight⟩ := (h.grounded i).exists_spells (Finset.range items.length)
    (fun j hj => Finset.mem_range.2 (h.reach_inside hi hj))
    (fun j hj => ⟨_, List.getElem?_eq_getElem (Finset.mem_range.1 hj)⟩)
  rw [Finset.card_range] at hheight
  exact ⟨F, hF, hheight⟩

/-- The items of a row are found from the first. -/
theorem Row.reach {p : Option Nat} {row : List Nat} (h : Row items p row) {i j : Nat}
    (hp : p = some i) (hj : j ∈ row) : Reach items i j := by
  induction row generalizing p i with
  | nil => exact absurd hj List.not_mem_nil
  | cons k row ih =>
    obtain ⟨hk, it, hit, hrest⟩ := h
    obtain rfl := Option.some.inj (hp.symm.trans hk)
    rcases List.mem_cons.1 hj with rfl | hj
    · exact .refl
    · cases hnext : it.next with
      | none =>
        rw [hnext] at hrest
        cases row with
        | nil => exact absurd hj List.not_mem_nil
        | cons k' row => exact absurd hrest.1 (by simp)
      | some k' => exact .head ⟨it, hit, .inr hnext⟩ (ih hrest hnext hj)

/-- No item stands twice in a row of brothers. -/
theorem Kept.row_nodup (h : Kept items) {p : Option Nat} {row : List Nat} (hrow : Row items p row) :
    row.Nodup := by
  induction row generalizing p with
  | nil => exact List.nodup_nil
  | cons k row ih =>
    obtain ⟨-, it, hit, hrest⟩ := hrow
    refine List.nodup_cons.2 ⟨?_, ih hrest⟩
    intro hk
    cases hnext : it.next with
    | none =>
      rw [hnext] at hrest
      cases row with
      | nil => exact absurd hk List.not_mem_nil
      | cons k' row => exact absurd hrest.1 (by simp)
    | some k' =>
      refine (h.grounded k).not_cycle (TransGen.head'_iff.2 ⟨k', ⟨it, hit, .inr hnext⟩, ?_⟩)
      exact Row.reach hrest hnext hk

/-- The items of a row are brothers. -/
theorem Kept.row_father (h : Kept items) {p : Option Nat} {row : List Nat} (hrow : Row items p row)
    {father : Option Nat} (hfirst : ∀ i, p = some i → ∃ it, items[i]? = some it ∧ it.father = father)
    {k : Nat} (hk : k ∈ row) : ∃ it, items[k]? = some it ∧ it.father = father := by
  induction row generalizing p with
  | nil => exact absurd hk List.not_mem_nil
  | cons j row ih =>
    obtain ⟨rfl, it, hit, hrest⟩ := hrow
    obtain ⟨it', hit', hfather⟩ := hfirst j rfl
    obtain rfl := Option.some.inj (hit.symm.trans hit')
    rcases List.mem_cons.1 hk with rfl | hk
    · exact ⟨it, hit, hfather⟩
    · refine ih hrest ?_ hk
      intro i hi
      obtain ⟨jt, hjt, hsame⟩ := h.next j i it hit hi
      exact ⟨jt, hjt, hsame.trans hfather⟩

/-- The children of an item have it as their father. -/
theorem Kept.children_father (h : Kept items) {i : Nat} {it : Item} (hit : items[i]? = some it)
    {row : List Nat} (hrow : Row items it.child row) {k : Nat} (hk : k ∈ row) :
    ∃ kt, items[k]? = some kt ∧ kt.father = some i :=
  h.row_father hrow (fun j hj => h.child i j it hit hj) hk

/-- Who finds a child of an item finds the item, if he is no child of it himself. -/
theorem Kept.reach_father (h : Kept items) {v t x : Nat} (hreach : Reach items v t)
    (ht : ∃ tt, items[t]? = some tt ∧ tt.father = some x)
    (hv : ∀ vt, items[v]? = some vt → vt.father ≠ some x) : Reach items v x := by
  induction hreach with
  | refl =>
    obtain ⟨tt, htt, hfather⟩ := ht
    exact absurd hfather (hv tt htt)
  | @tail b t hvb hlink ih =>
    obtain ⟨tt, htt, hfather⟩ := ht
    obtain ⟨bt, hbt, hj⟩ := hlink
    rcases hj with hj | hj
    · obtain ⟨tt', htt', hfather'⟩ := h.child b t bt hbt hj
      obtain rfl := Option.some.inj (htt.symm.trans htt')
      obtain rfl := Option.some.inj (hfather.symm.trans hfather')
      exact hvb
    · obtain ⟨tt', htt', hfather'⟩ := h.next b t bt hbt hj
      obtain rfl := Option.some.inj (htt.symm.trans htt')
      exact ih ⟨bt, hbt, hfather'.symm.trans hfather⟩

/-! ## One store at a time -/

/-- The items after a store to one of them. -/
theorem getElem?_store (x : Nat) (f : Item → Item) {k : Nat} {it' : Item}
    (hk : (items.modify x f)[k]? = some it') :
    ∃ it, items[k]? = some it ∧ it' = if x = k then f it else it := by
  rw [List.getElem?_modify] at hk
  obtain ⟨it, hit, rfl⟩ := Option.map_eq_some_iff.1 hk
  exact ⟨it, hit, rfl⟩

theorem getElem?_stored {x k : Nat} (f : Item → Item) {it : Item} (hk : items[k]? = some it) :
    (items.modify x f)[k]? = some (if x = k then f it else it) := by
  rw [List.getElem?_modify, hk]
  rfl

/-- A store to one of the first items. -/
theorem modify_append_left {x : Nat} (hx : x < items.length) (f : Item → Item) (new : List Item) :
    (items ++ new).modify x f = items.modify x f ++ new := by
  apply List.ext_getElem?
  intro k
  rw [List.getElem?_modify]
  rcases Nat.lt_or_ge k items.length with hk | hk
  · rw [List.getElem?_append_left hk, List.getElem?_append_left (by simpa using hk),
      List.getElem?_modify]
  · rw [List.getElem?_append_right hk, List.getElem?_append_right (by simpa using hk),
      List.length_modify]
    have hne : x ≠ k := by omega
    cases new[k - items.length]? <;> simp [hne]

/-- A row whose items keep their next one stays. -/
theorem Row.store {p : Option Nat} {row : List Nat} (h : Row items p row) {x : Nat}
    {f : Item → Item} (hkeep : x ∈ row → ∀ it, items[x]? = some it → (f it).next = it.next) :
    Row (items.modify x f) p row := by
  refine Links.Seg.frame h ?_
  intro k hk it hit
  refine ⟨_, getElem?_stored f hit, ?_⟩
  split
  case isTrue hx =>
    subst hx
    exact hkeep hk it hit
  case isFalse => rfl

/-- **A store that leaves the links alone**: the tail pointer may be cleared, and the father may be
set of an item that nothing is linked to and behind which nothing is. -/
theorem Kept.relabel (h : Kept items) {x : Nat} {f : Item → Item}
    (hf : ∀ it, (f it).child = it.child ∧ (f it).next = it.next ∧
      ((f it).childHead = it.childHead ∨ (f it).childHead = none))
    (hfather : (∀ it, (f it).father = it.father) ∨
      ((∀ i, ¬ Link items i x) ∧ ∀ it, items[x]? = some it → it.next = none)) :
    Kept (items.modify x f) := by
  have hlinks : ∀ (it : Item) (k : Nat), (if x = k then f it else it).child = it.child ∧
      (if x = k then f it else it).next = it.next ∧
      ((if x = k then f it else it).childHead = it.childHead ∨
        (if x = k then f it else it).childHead = none) := by
    intro it k
    split
    · exact hf it
    · exact ⟨rfl, rfl, .inl rfl⟩
  -- an item that is linked to, and one that is linked to another, keep their fathers
  have hsame : ∀ (it : Item) (k : Nat), items[k]? = some it →
      ((∃ i, Link items i k) ∨ it.next ≠ none) → (if x = k then f it else it).father = it.father := by
    intro it k hk hlinked
    split
    case isTrue hx =>
      subst hx
      rcases hfather with hkeep | ⟨hfree, hlast⟩
      · exact hkeep it
      · rcases hlinked with ⟨i, hi⟩ | hnext
        · exact absurd hi (hfree i)
        · exact absurd (hlast it hk) hnext
    case isFalse => rfl
  refine ⟨?_, ?_, ?_, ?_⟩
  · intro i
    refine (h.grounded i).mono ?_
    rintro a b ⟨it', hit', hb⟩
    obtain ⟨it, hit, rfl⟩ := getElem?_store x f hit'
    rw [(hlinks it a).1, (hlinks it a).2.1] at hb
    exact ⟨it, hit, hb⟩
  · intro i j it' hit' hj
    obtain ⟨it, hit, rfl⟩ := getElem?_store x f hit'
    rw [(hlinks it i).1] at hj
    obtain ⟨jt, hjt, hjfather⟩ := h.child i j it hit hj
    refine ⟨_, getElem?_stored f hjt, ?_⟩
    rw [hsame jt j hjt (.inl ⟨i, it, hit, .inl hj⟩)]
    exact hjfather
  · intro i j it' hit' hj
    obtain ⟨it, hit, rfl⟩ := getElem?_store x f hit'
    rw [(hlinks it i).2.1] at hj
    obtain ⟨jt, hjt, hjfather⟩ := h.next i j it hit hj
    refine ⟨_, getElem?_stored f hjt, ?_⟩
    rw [hsame jt j hjt (.inl ⟨i, it, hit, .inr hj⟩), hsame it i hit (.inr (by simp [hj]))]
    exact hjfather
  · intro i t it' hit' hchild hhead
    obtain ⟨it, hit, rfl⟩ := getElem?_store x f hit'
    rw [(hlinks it i).1] at hchild ⊢
    rcases (hlinks it i).2.2 with hkept | hnone
    · rw [hkept] at hhead
      obtain ⟨row, hrow⟩ := h.tail i t it hit hchild hhead
      exact ⟨row, hrow.store fun _ it _ => (hf it).2.1⟩
    · exact absurd (hnone.symm.trans hhead) (by simp)

/-- A store that leaves the links alone and the tail pointer too. -/
theorem Kept.payload (h : Kept items) {x : Nat} {f : Item → Item}
    (hf : ∀ it, (f it).child = it.child ∧ (f it).next = it.next ∧ (f it).father = it.father ∧
      (f it).childHead = it.childHead) : Kept (items.modify x f) :=
  h.relabel (fun it => ⟨(hf it).1, (hf it).2.1, .inl (hf it).2.2.2⟩) (.inl fun it => (hf it).2.2.1)

/-- A new item that is not linked. -/
theorem Kept.append (h : Kept items) {new : Item} (hchild : new.child = none)
    (hnext : new.next = none) : Kept (items ++ [new]) := by
  have hget : ∀ (k : Nat) (it : Item), (items ++ [new])[k]? = some it → items[k]? = some it ∨ it = new := by
    intro k it hk
    rcases Nat.lt_or_ge k items.length with hlt | hge
    · rw [List.getElem?_append_left hlt] at hk
      exact .inl hk
    · rw [List.getElem?_append_right hge] at hk
      exact .inr (List.mem_singleton.1 (List.mem_of_getElem? hk))
  have hold : ∀ (k : Nat) (it : Item), items[k]? = some it → (items ++ [new])[k]? = some it := by
    intro k it hk
    rw [List.getElem?_append_left (List.getElem?_eq_some_iff.1 hk).1]
    exact hk
  refine ⟨?_, ?_, ?_, ?_⟩
  · intro i
    refine (h.grounded i).mono ?_
    rintro a b ⟨it, hit, hb⟩
    rcases hget a it hit with hit | rfl
    · exact ⟨it, hit, hb⟩
    · rw [hchild, hnext] at hb
      exact absurd hb (by simp)
  · intro i j it hit hj
    rcases hget i it hit with hit | rfl
    · obtain ⟨jt, hjt, hfather⟩ := h.child i j it hit hj
      exact ⟨jt, hold j jt hjt, hfather⟩
    · exact absurd (hchild.symm.trans hj) (by simp)
  · intro i j it hit hj
    rcases hget i it hit with hit | rfl
    · obtain ⟨jt, hjt, hfather⟩ := h.next i j it hit hj
      exact ⟨jt, hold j jt hjt, hfather⟩
    · exact absurd (hnext.symm.trans hj) (by simp)
  · intro i t it hit hne hhead
    rcases hget i it hit with hit | rfl
    · obtain ⟨row, hrow⟩ := h.tail i t it hit hne hhead
      refine ⟨row, Links.Seg.frame hrow ?_⟩
      intro k _ kt hkt
      exact ⟨kt, hold k kt hkt, rfl⟩
    · exact absurd hchild hne

/-- **A child** for an item without a tail pointer. -/
theorem Kept.linkChild (h : Kept items) {x v : Nat} {xt vt : Item} (hx : items[x]? = some xt)
    (hhead : xt.childHead = none) (hv : items[v]? = some vt) (hfather : vt.father = some x)
    (hfar : ¬ Reach items v x) :
    Kept (items.modify x fun it => { it with child := some v }) := by
  have hlinks : ∀ (it : Item) (k : Nat),
      (if x = k then { it with child := some v } else it).next = it.next ∧
      (if x = k then { it with child := some v } else it).father = it.father ∧
      (if x = k then { it with child := some v } else it).childHead = it.childHead := by
    intro it k
    split <;> exact ⟨rfl, rfl, rfl⟩
  refine ⟨?_, ?_, ?_, ?_⟩
  · refine Forest.Grounded.graft h.grounded ?_ hfar
    rintro a b ⟨it', hit', hb⟩
    obtain ⟨it, hit, rfl⟩ := getElem?_store x _ hit'
    rw [(hlinks it a).1] at hb
    split at hb
    case isTrue hxa =>
      rcases hb with hb | hb
      · exact .inr ⟨hxa.symm, (Option.some.inj hb).symm⟩
      · exact .inl ⟨it, hit, .inr hb⟩
    case isFalse => exact .inl ⟨it, hit, hb⟩
  · intro i j it' hit' hj
    obtain ⟨it, hit, rfl⟩ := getElem?_store x _ hit'
    split at hj
    case isTrue hxi =>
      obtain rfl := Option.some.inj hj
      refine ⟨_, getElem?_stored _ hv, ?_⟩
      rw [(hlinks vt v).2.1, ← hxi]
      exact hfather
    case isFalse =>
      obtain ⟨jt, hjt, hjfather⟩ := h.child i j it hit hj
      exact ⟨_, getElem?_stored _ hjt, (hlinks jt j).2.1.trans hjfather⟩
  · intro i j it' hit' hj
    obtain ⟨it, hit, rfl⟩ := getElem?_store x _ hit'
    rw [(hlinks it i).1] at hj
    obtain ⟨jt, hjt, hjfather⟩ := h.next i j it hit hj
    refine ⟨_, getElem?_stored _ hjt, ?_⟩
    rw [(hlinks jt j).2.1, (hlinks it i).2.1]
    exact hjfather
  · intro i t it' hit' hchild hset
    obtain ⟨it, hit, rfl⟩ := getElem?_store x _ hit'
    rw [(hlinks it i).2.2] at hset
    split at hchild
    case isTrue hxi =>
      subst hxi
      obtain rfl := Option.some.inj (hx.symm.trans hit)
      exact absurd (hhead.symm.trans hset) (by simp)
    case isFalse hxi =>
      rw [if_neg hxi]
      obtain ⟨row, hrow⟩ := h.tail i t it hit hchild hset
      exact ⟨row, hrow.store fun _ _ _ => rfl⟩

/-- **A brother** for an item whose father has no tail pointer. -/
theorem Kept.linkNext (h : Kept items) {x v : Nat} {xt vt : Item} (hx : items[x]? = some xt)
    (hhead : ∀ i it, xt.father = some i → items[i]? = some it → it.childHead = none)
    (hv : items[v]? = some vt) (hfather : vt.father = xt.father) (hfar : ¬ Reach items v x) :
    Kept (items.modify x fun it => { it with next := some v }) := by
  have hlinks : ∀ (it : Item) (k : Nat),
      (if x = k then { it with next := some v } else it).child = it.child ∧
      (if x = k then { it with next := some v } else it).father = it.father ∧
      (if x = k then { it with next := some v } else it).childHead = it.childHead := by
    intro it k
    split <;> exact ⟨rfl, rfl, rfl⟩
  refine ⟨?_, ?_, ?_, ?_⟩
  · refine Forest.Grounded.graft h.grounded ?_ hfar
    rintro a b ⟨it', hit', hb⟩
    obtain ⟨it, hit, rfl⟩ := getElem?_store x _ hit'
    rw [(hlinks it a).1] at hb
    split at hb
    case isTrue hxa =>
      rcases hb with hb | hb
      · exact .inl ⟨it, hit, .inl hb⟩
      · exact .inr ⟨hxa.symm, (Option.some.inj hb).symm⟩
    case isFalse => exact .inl ⟨it, hit, hb⟩
  · intro i j it' hit' hj
    obtain ⟨it, hit, rfl⟩ := getElem?_store x _ hit'
    rw [(hlinks it i).1] at hj
    obtain ⟨jt, hjt, hjfather⟩ := h.child i j it hit hj
    exact ⟨_, getElem?_stored _ hjt, (hlinks jt j).2.1.trans hjfather⟩
  · intro i j it' hit' hj
    obtain ⟨it, hit, rfl⟩ := getElem?_store x _ hit'
    rw [(hlinks it i).2.1]
    split at hj
    case isTrue hxi =>
      subst hxi
      obtain rfl := Option.some.inj hj
      obtain rfl := Option.some.inj (hx.symm.trans hit)
      exact ⟨_, getElem?_stored _ hv, (hlinks vt v).2.1.trans hfather⟩
    case isFalse =>
      obtain ⟨jt, hjt, hjfather⟩ := h.next i j it hit hj
      exact ⟨_, getElem?_stored _ hjt, (hlinks jt j).2.1.trans hjfather⟩
  · intro i t it' hit' hchild hset
    obtain ⟨it, hit, rfl⟩ := getElem?_store x _ hit'
    rw [(hlinks it i).1] at hchild ⊢
    rw [(hlinks it i).2.2] at hset
    obtain ⟨row, hrow⟩ := h.tail i t it hit hchild hset
    refine ⟨row, hrow.store ?_⟩
    intro hmem
    -- the item would have a father with a tail pointer
    obtain ⟨xt', hx', hxfather⟩ := h.children_father hit hrow hmem
    obtain rfl := Option.some.inj (hx.symm.trans hx')
    exact absurd ((hhead i it hxfather hit).symm.trans hset) (by simp)

/-- **The tail pointer** to the last child. -/
theorem Kept.setHead (h : Kept items) {x v : Nat}
    (hlast : ∀ it, items[x]? = some it → ∃ row, Row items it.child (row ++ [v])) :
    Kept (items.modify x fun it => { it with childHead := some v }) := by
  have hlinks : ∀ (it : Item) (k : Nat),
      (if x = k then { it with childHead := some v } else it).child = it.child ∧
      (if x = k then { it with childHead := some v } else it).next = it.next ∧
      (if x = k then { it with childHead := some v } else it).father = it.father := by
    intro it k
    split <;> exact ⟨rfl, rfl, rfl⟩
  refine ⟨?_, ?_, ?_, ?_⟩
  · intro i
    refine (h.grounded i).mono ?_
    rintro a b ⟨it', hit', hb⟩
    obtain ⟨it, hit, rfl⟩ := getElem?_store x _ hit'
    rw [(hlinks it a).1, (hlinks it a).2.1] at hb
    exact ⟨it, hit, hb⟩
  · intro i j it' hit' hj
    obtain ⟨it, hit, rfl⟩ := getElem?_store x _ hit'
    rw [(hlinks it i).1] at hj
    obtain ⟨jt, hjt, hjfather⟩ := h.child i j it hit hj
    exact ⟨_, getElem?_stored _ hjt, (hlinks jt j).2.2.trans hjfather⟩
  · intro i j it' hit' hj
    obtain ⟨it, hit, rfl⟩ := getElem?_store x _ hit'
    rw [(hlinks it i).2.1] at hj
    rw [(hlinks it i).2.2]
    obtain ⟨jt, hjt, hjfather⟩ := h.next i j it hit hj
    exact ⟨_, getElem?_stored _ hjt, (hlinks jt j).2.2.trans hjfather⟩
  · intro i t it' hit' hchild hset
    obtain ⟨it, hit, rfl⟩ := getElem?_store x _ hit'
    rw [(hlinks it i).1] at hchild ⊢
    split at hset
    case isTrue hxi =>
      subst hxi
      obtain rfl := Option.some.inj hset
      obtain ⟨row, hrow⟩ := hlast it hit
      exact ⟨row, hrow.store fun _ _ _ => rfl⟩
    case isFalse =>
      obtain ⟨row, hrow⟩ := h.tail i t it hit hchild hset
      exact ⟨row, hrow.store fun _ _ _ => rfl⟩

end

end Ape.Json
