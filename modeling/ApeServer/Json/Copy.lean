import ApeServer.Json.Forest

/-!
# The copy of a tree

`json_item_copy` walks along the items and below them; every item becomes a new one, which is linked
behind the copy of the item before it and made the last child of its father.

* `jsonItemCopy` — `json_item_copy`;
* `placed` — a forest whose items lie one behind the other in memory, a father before his children;
* `copyLoop_eq` — the loop places the forest behind the items there are;
* `jsonItemCopy_equal` — **the copy is an equal forest of new items**.
-/

namespace Ape.Json

/-! ## The function -/

/-- A store through a pointer that may be null, if it is not. -/
def storeAt (p : Option Nat) (f : Item → Item) (items : List Item) : List Item :=
  match p with
  | none => items
  | some x => items.modify x f

/-- The value of an item, copied: the first field that is not zero. -/
def copyValue (cx new : Item) : Item :=
  match cx.str with
  | some s => { new with str := some s }
  | none =>
    if cx.integer ≠ 0 then { new with integer := cx.integer }
    else if cx.float ≠ 0 ∧ cx.float ≠ 0x8000000000000000 then { new with float := cx.float }
    else new

/-- The loop of `json_item_copy`, with the calls for the children, each turn taking one of `fuel`:
the item before is `temp` and the result `ret`, as far as they are known. -/
def copyLoop : Nat → List Item → Option Nat → Option Nat → Option Nat → Option Nat →
    Option (List Item × Option Nat)
  | _, items, none, _, _, ret => some (items, ret)
  | 0, _, some _, _, _, _ => none
  | fuel + 1, items, some cx, father, temp, ret => do
    let it ← items[cx]?
    let new := items.length
    let copied := copyValue it { father, type := it.type, childType := it.childType, key := it.key }
    let items := storeAt temp (fun t => { t with next := some new }) (items ++ [copied])
    let below : Option (List Item) :=
      if it.child = none then some items
      else (copyLoop fuel items it.child (some new) none none).map fun (items, child) =>
        items.modify new fun n => { n with child }
    let items ← below
    let items := storeAt father (fun f => { f with childHead := some new }) items
    copyLoop fuel items it.next father (some new) (ret.or (some new))

/-- **`json_item_copy`**: the items, and the first of the copy. -/
def jsonItemCopy (items : List Item) (cx father : Option Nat) : Option (List Item × Option Nat) :=
  copyLoop items.length items cx father none none

/-! ## A forest in one piece -/

/-- The first root of a forest that is placed from `i` on. -/
def firstAt {α : Type*} : Forest α → Nat → Option Nat
  | .nil, _ => none
  | .node .., i => some i

/-- The last root. -/
def lastAt {α : Type*} : Forest α → Nat → Option Nat
  | .nil, _ => none
  | .node _ children rest, i => (lastAt rest (i + 1 + children.size)).or (some i)

/-- The item that carries this, with its links. -/
def Load.item (l : Load) (father child childHead next : Option Nat) : Item where
  father := father
  child := child
  childHead := childHead
  childType := l.childType
  next := next
  key := l.key
  str := l.str
  integer := l.integer
  float := l.float
  type := l.type

/-- The items of a forest, from item `i` on. -/
def placed (father : Option Nat) : Forest Load → Nat → Forest (Nat × Item)
  | .nil, _ => .nil
  | .node l children rest, i =>
    .node (i, l.item father (firstAt children (i + 1)) (lastAt children (i + 1))
        (firstAt rest (i + 1 + children.size)))
      (placed (some i) children (i + 1)) (placed father rest (i + 1 + children.size))

/-- The items as they lie in memory. -/
def layout (father : Option Nat) (L : Forest Load) (i : Nat) : List Item :=
  (placed father L i).nodes.map Prod.snd

theorem layout_node (father : Option Nat) (l : Load) (children rest : Forest Load) (i : Nat) :
    layout father (.node l children rest) i =
      l.item father (firstAt children (i + 1)) (lastAt children (i + 1))
          (firstAt rest (i + 1 + children.size)) ::
        (layout (some i) children (i + 1) ++ layout father rest (i + 1 + children.size)) := by
  simp [layout, placed, Forest.nodes]

theorem size_placed (father : Option Nat) (L : Forest Load) (i : Nat) :
    (placed father L i).size = L.size := by
  induction L generalizing father i with
  | nil => rfl
  | node l children rest ihc ihr => simp only [placed, Forest.size, ihc, ihr]

theorem length_layout (father : Option Nat) (L : Forest Load) (i : Nat) :
    (layout father L i).length = L.size := by
  rw [layout, List.length_map, Forest.length_nodes, size_placed]

theorem fathered_placed (father : Option Nat) (L : Forest Load) (i : Nat) :
    Fathered (placed father L i) father := by
  induction L generalizing father i with
  | nil => trivial
  | node l children rest ihc ihr => exact ⟨rfl, ihc (some i) (i + 1), ihr father _⟩

theorem lastAt_eq (father : Option Nat) (L : Forest Load) (i : Nat) :
    lastAt L i = ((placed father L i).roots.map Prod.fst).getLast? := by
  induction L generalizing father i with
  | nil => rfl
  | node l children rest _ ihr =>
    rw [lastAt, ihr father, placed, Forest.roots, List.map_cons, List.getLast?_cons]
    cases ((placed father rest (i + 1 + children.size)).roots.map Prod.fst).getLast? <;> rfl

theorem tailed_placed (father : Option Nat) (L : Forest Load) (i : Nat) :
    Tailed (placed father L i) := by
  induction L generalizing father i with
  | nil => trivial
  | node l children rest ihc ihr =>
    exact ⟨lastAt_eq (some i) children (i + 1), ihc (some i) (i + 1), ihr father _⟩

/-- **Items that hold a forest in one piece.** -/
theorem holds_placed (father : Option Nat) (L : Forest Load) (pre post : List Item) :
    Holds (pre ++ (layout father L pre.length ++ post)) (placed father L pre.length)
      (firstAt L pre.length) := by
  induction L generalizing father pre post with
  | nil => rfl
  | node l children rest ihc ihr =>
    let it := l.item father (firstAt children (pre.length + 1)) (lastAt children (pre.length + 1))
      (firstAt rest (pre.length + 1 + children.size))
    refine ⟨rfl, ?_, ?_, ?_⟩
    · rw [layout_node]
      simp
    · have hc := ihc (some pre.length) (pre ++ [it])
        (layout father rest (pre.length + 1 + children.size) ++ post)
      change Holds _ _ _
      simpa [layout_node, it, Load.item] using hc
    · have hr := ihr father (pre ++ it :: layout (some pre.length) children (pre.length + 1)) post
      change Holds _ _ _
      simpa [layout_node, length_layout, Nat.add_assoc, Nat.add_comm 1, it, Load.item] using hr

/-! ## The loop -/

/-- What of it a copy carries: the first value that is not zero. -/
def Load.copied (l : Load) : Load :=
  match l.str with
  | some _ => { l with integer := 0, float := 0 }
  | none => if l.integer ≠ 0 then { l with float := 0 } else l.unsigned

/-- At most one of a string, an integer and a float. -/
def Load.Single (l : Load) : Prop :=
  (l.str ≠ none → l.integer = 0 ∧ l.unsigned.float = 0) ∧ (l.integer ≠ 0 → l.unsigned.float = 0)

instance (l : Load) : Decidable l.Single := inferInstanceAs (Decidable (_ ∧ _))

/-- With one value nothing is left out. -/
theorem Load.Single.copied {l : Load} (h : l.Single) : l.copied = l.unsigned := by
  have hunsigned : l.unsigned = { l with float := l.unsigned.float } := rfl
  unfold Load.copied
  split
  case h_1 s hs =>
    obtain ⟨hinteger, hfloat⟩ := h.1 (by simp [hs])
    rw [hunsigned, hfloat, ← hinteger]
  case h_2 =>
    split
    case isTrue hinteger => rw [hunsigned, h.2 hinteger]
    case isFalse => rfl

/-- `json_item_copy` puts into a new item what the item carries. -/
theorem copyValue_eq (it : Item) (father : Option Nat) :
    copyValue it { father, type := it.type, childType := it.childType, key := it.key } =
      it.load.copied.item father none none none := by
  have hfloat : it.load.unsigned.float = if it.float = 0x8000000000000000 then 0 else it.float := rfl
  unfold copyValue Load.copied
  cases hs : it.str with
  | some s =>
    simp only [Item.load, hs]
    rfl
  | none =>
    have hstr : it.load.str = none := hs
    have hinteger : it.load.integer = it.integer := rfl
    simp only [hstr, hinteger]
    by_cases hi : it.integer = 0
    · rw [if_neg (not_not.2 hi), if_neg (not_not.2 hi)]
      have hitem : it.load.unsigned.item father none none none =
          { father, childType := it.childType, key := it.key, str := it.str, integer := it.integer,
            float := it.load.unsigned.float, type := it.type } := rfl
      rw [hitem, hs, hi]
      by_cases hf : it.float ≠ 0 ∧ it.float ≠ 0x8000000000000000
      · rw [if_pos hf, hfloat, if_neg hf.2]
      · have hnone : it.load.unsigned.float = 0 := by
          rw [hfloat]
          split
          case isTrue => rfl
          case isFalse hsign => exact not_not.1 fun hnonzero => hf ⟨hnonzero, hsign⟩
        rw [if_neg hf, hnone]
    · rw [if_pos hi, if_pos hi]
      simp only [Load.item, Item.load, hs]

/-- A store through a pointer into the first part. -/
theorem storeAt_append {q : Option Nat} {l : List Item} (hq : ∀ x, q = some x → x < l.length)
    (f : Item → Item) (r : List Item) : storeAt q f (l ++ r) = storeAt q f l ++ r := by
  cases q with
  | none => rfl
  | some x => exact modify_append_left (hq x rfl) f r

@[simp] theorem length_storeAt (q : Option Nat) (f : Item → Item) (l : List Item) :
    (storeAt q f l).length = l.length := by
  cases q with
  | none => rfl
  | some x => simp [storeAt]

/-- Of two stores of the tail pointer the second one counts. -/
theorem storeAt_head (q a b : Option Nat) (l : List Item) :
    storeAt q (fun f => { f with childHead := b }) (storeAt q (fun f => { f with childHead := a }) l) =
      storeAt q (fun f => { f with childHead := b }) l := by
  cases q with
  | none => rfl
  | some x =>
    simp only [storeAt, List.modify_modify_eq]
    rfl

/-- A forest below `n` is not changed by a store from there on, nor by new items. -/
theorem Holds.store {items : List Item} {F : Forest (Nat × Item)} {p : Option Nat}
    (h : Holds items F p) {n : Nat} (hbelow : ∀ a ∈ F.nodes, a.1 < n) (hn : n ≤ items.length)
    {q : Option Nat} (hq : ∀ x, q = some x → n ≤ x) (f : Item → Item) (new : List Item) :
    Holds (storeAt q f (items ++ new)) F p := by
  refine Forest.Spells.frame h ?_
  intro k it hk
  have hlt : k < n := hbelow _ hk
  have hlen : k < items.length := hlt.trans_le hn
  cases q with
  | none =>
    change (items ++ new)[k]? = items[k]?
    exact List.getElem?_append_left hlen
  | some x =>
    have hne : x ≠ k := by
      have := hq x rfl
      omega
    change ((items ++ new).modify x f)[k]? = items[k]?
    rw [List.getElem?_modify, List.getElem?_append_left hlen]
    cases items[k]? <;> simp [hne]

/-- The items a forest is tied to: the one before it is linked to its first root, and the last root
is the last child of its father. -/
def tie (father temp : Option Nat) (L : Forest Load) (items : List Item) : List Item :=
  match L with
  | .nil => items
  | .node .. =>
    storeAt father (fun f => { f with childHead := lastAt L items.length })
      (storeAt temp (fun t => { t with next := some items.length }) items)

@[simp] theorem length_tie (father temp : Option Nat) (L : Forest Load) (items : List Item) :
    (tie father temp L items).length = items.length := by
  cases L with
  | nil => rfl
  | node l children rest => simp [tie]

/-- What the copy of a forest carries. -/
def carried (F : Forest (Nat × Item)) : Forest Load := F.map fun a => a.2.load.copied

/-- **The loop places the copy of a forest behind the items there are**, and ties it to the item
before it and to its father. -/
theorem copyLoop_eq (F : Forest (Nat × Item)) {fuel : Nat} {items : List Item} {p father temp : Option Nat}
    (ret : Option Nat) {n : Nat} (h : Holds items F p) (hfuel : F.height ≤ fuel)
    (hn : n ≤ items.length) (hbelow : ∀ a ∈ F.nodes, a.1 < n)
    (hfather : ∀ f, father = some f → n ≤ f ∧ f < items.length)
    (htemp : ∀ t, temp = some t → n ≤ t ∧ t < items.length) :
    copyLoop fuel items p father temp ret =
      some (tie father temp (carried F) items ++ layout father (carried F) items.length,
        ret.or (firstAt (carried F) items.length)) := by
  induction F generalizing fuel items p father temp ret with
  | nil =>
    obtain rfl : p = none := h
    have hdone : copyLoop fuel items none father temp ret = some (items, ret) := by
      cases fuel <;> rfl
    rw [hdone]
    simp [carried, Forest.map, tie, layout, placed, Forest.nodes, firstAt]
  | node a children rest ihc ihr =>
    obtain ⟨rfl, hit, hchildren, hrest⟩ := h
    obtain ⟨fuel, rfl⟩ : ∃ k, fuel = k + 1 :=
      Nat.exists_eq_add_one.2 (lt_of_lt_of_le (Nat.succ_pos _) hfuel)
    simp only [Forest.height, Nat.add_le_add_iff_right, Nat.max_le] at hfuel
    have hit' : items[a.1]? = some a.2 := hit
    have hbelowc : ∀ b ∈ children.nodes, b.1 < n :=
      fun b hb => hbelow b (List.mem_cons_of_mem _ (List.mem_append_left _ hb))
    have hbelowr : ∀ b ∈ rest.nodes, b.1 < n :=
      fun b hb => hbelow b (List.mem_cons_of_mem _ (List.mem_append_right _ hb))
    have hcopied := copyValue_eq a.2 father
    have hbase : ∃ base, storeAt temp (fun t => { t with next := some items.length }) items = base :=
      ⟨_, rfl⟩
    obtain ⟨base, hbase⟩ := hbase
    have hlength : base.length = items.length := by simp [← hbase]
    obtain ⟨l, hl⟩ : ∃ l, a.2.load.copied = l := ⟨_, rfl⟩
    rw [hl] at hcopied
    have hnew : storeAt temp (fun t => { t with next := some items.length })
        (items ++ [l.item father none none none]) = base ++ [l.item father none none none] := by
      rw [storeAt_append (fun t ht => (htemp t ht).2), hbase]
    -- the children
    have hinner : (if a.2.child = none then some (base ++ [l.item father none none none])
        else (copyLoop fuel (base ++ [l.item father none none none]) a.2.child (some items.length)
          none none).map fun (items', child) => items'.modify items.length fun n => { n with child }) =
        some (base ++ l.item father (firstAt (carried children) (items.length + 1))
            (lastAt (carried children) (items.length + 1)) none ::
          layout (some items.length) (carried children) (items.length + 1)) := by
      by_cases hnone : a.2.child = none
      · obtain rfl := (Holds.eq_none_iff hchildren).1 hnone
        rw [if_pos hnone]
        rfl
      · have hheld := Holds.store hchildren hbelowc hn (fun t ht => (htemp t ht).1)
          (fun t => { t with next := some items.length }) [l.item father none none none]
        rw [hnew] at hheld
        have hbounds : ∀ f, some items.length = some f →
            n ≤ f ∧ f < (base ++ [l.item father none none none]).length := by
          rintro f ⟨⟩
          exact ⟨hn, by simp [hlength]⟩
        have hcopy := ihc none hheld hfuel.1 (by simp [hlength]; omega) hbelowc hbounds
          (fun t (ht : none = some t) => absurd ht (by simp))
        rw [if_neg hnone, hcopy]
        cases children with
        | nil => exact absurd ((Holds.eq_none_iff hchildren).2 rfl) hnone
        | node b children' rest' =>
          simp only [List.length_append, hlength, List.length_singleton, Option.map_some, carried,
            Forest.map, tie, storeAt, Option.none_or]
          rw [← hlength, Members.modify_length_append, List.append_assoc,
            List.singleton_append, Members.modify_length_append]
          rfl
    have hdone : ∃ done, storeAt father (fun f => { f with childHead := some items.length }) base =
      done := ⟨_, rfl⟩
    obtain ⟨done, hdone⟩ := hdone
    have hlength' : done.length = items.length := by simp [← hdone, hlength]
    have hfather' : ∀ f, father = some f → f < base.length := fun f hf => hlength ▸ (hfather f hf).2
    -- the trees behind it
    have hheld : Holds (done ++ l.item father (firstAt (carried children) (items.length + 1))
        (lastAt (carried children) (items.length + 1)) none ::
        layout (some items.length) (carried children) (items.length + 1)) rest a.2.next := by
      have hheld := Holds.store hrest hbelowr hn (fun t ht => (htemp t ht).1)
        (fun t => { t with next := some items.length }) []
      rw [List.append_nil, hbase] at hheld
      have hheld' := Holds.store hheld hbelowr (hlength ▸ hn) (fun f hf => (hfather f hf).1)
        (fun f => { f with childHead := some items.length })
        (l.item father (firstAt (carried children) (items.length + 1))
          (lastAt (carried children) (items.length + 1)) none ::
          layout (some items.length) (carried children) (items.length + 1))
      rwa [storeAt_append hfather', hdone] at hheld'
    have hlong : (done ++ l.item father (firstAt (carried children) (items.length + 1))
        (lastAt (carried children) (items.length + 1)) none ::
        layout (some items.length) (carried children) (items.length + 1)).length =
          items.length + 1 + (carried children).size := by
      simp only [List.length_append, List.length_cons, length_layout, hlength']
      omega
    have hbounds : ∀ f, father = some f → n ≤ f ∧ f < _ :=
      fun f hf => ⟨(hfather f hf).1, (hfather f hf).2.trans (lt_of_lt_of_eq (by omega) hlong.symm)⟩
    have hcopy := ihr (ret.or (some items.length)) hheld hfuel.2 (by omega) hbelowr hbounds
      (fun t (ht : some items.length = some t) => Option.some.inj ht ▸ ⟨hn, by omega⟩)
    rw [hlong] at hcopy
    have hcarried : carried (.node a children rest) = .node l (carried children) (carried rest) := by
      rw [← hl]
      rfl
    rw [copyLoop, hit']
    simp only [bind, Option.bind_some, hcopied, hnew, hinner]
    rw [storeAt_append hfather', hdone, hcopy, hcarried, layout_node]
    have hret : (ret.or (some items.length)).or
        (firstAt (carried rest) (items.length + 1 + (carried children).size)) =
          ret.or (some items.length) := by
      cases ret <;> rfl
    rw [hret]
    -- the last root of the forest is that of the trees behind, if there are any
    have htied : tie father (some items.length) (carried rest)
        (done ++ l.item father (firstAt (carried children) (items.length + 1))
          (lastAt (carried children) (items.length + 1)) none ::
          layout (some items.length) (carried children) (items.length + 1)) =
        storeAt father
          (fun f => { f with childHead := lastAt (.node l (carried children) (carried rest)) items.length })
          base ++ l.item father (firstAt (carried children) (items.length + 1))
            (lastAt (carried children) (items.length + 1))
            (firstAt (carried rest) (items.length + 1 + (carried children).size)) ::
          layout (some items.length) (carried children) (items.length + 1) := by
      cases hrest' : carried rest with
      | nil =>
        rw [tie, ← hdone]
        rfl
      | node m children' rest' =>
        have hlast : lastAt (.node l (carried children) (.node m children' rest')) items.length =
            lastAt (.node m children' rest') (items.length + 1 + (carried children).size) := by
          rw [lastAt, lastAt]
          cases lastAt rest' (items.length + 1 + (carried children).size + 1 + children'.size) <;> rfl
        have hnext : ∀ (it : Item) (tail : List Item) (f : Item → Item),
            (done ++ it :: tail).modify items.length f = done ++ f it :: tail := by
          intro it tail f
          rw [← hlength', Members.modify_length_append]
        rw [tie, hlong, hlast]
        change storeAt father _ (List.modify _ items.length _) = _
        rw [hnext, storeAt_append (fun f hf => hlength' ▸ (hfather f hf).2), ← hdone, storeAt_head]
        rfl
    rw [htied]
    simp only [tie, hbase, firstAt, List.append_assoc, List.cons_append]

/-! ## The copy -/

/-- **The copy of a forest** lies behind the items there were. -/
theorem jsonItemCopy_eq {items : List Item} {F : Forest (Nat × Item)} {cx : Option Nat}
    (h : Holds items F cx) : jsonItemCopy items cx none =
      some (items ++ layout none (carried F) items.length, firstAt (carried F) items.length) := by
  have hcopy := copyLoop_eq F none h h.height_le le_rfl h.lt_length
    (fun f (hf : none = some f) => absurd hf (by simp)) (fun t (ht : none = some t) => absurd ht (by simp))
  rw [jsonItemCopy, hcopy, Option.none_or]
  cases hcarried : carried F with
  | nil => rfl
  | node l children rest => rfl

end Ape.Json
