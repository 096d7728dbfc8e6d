import Mathlib.Data.List.Basic
import Mathlib.Logic.Relation
import ApeServer.Lib.Traces

/-!
# The items of a JSON tree and the callback that builds it

`ape_json.c` keeps a document as items linked by `child`, `next` and `father`.  `json_callback` is
told what the parser has read, one event at a time, and hangs every item below or behind the one it
has at hand.  A pointer is the number of its item in the order of allocation.

* `Item`, `Context` — `json_item` and `json_context`;
* `Event` — what the parser tells the callback;
* `jsonCallback` — `json_callback`;
* `Reach` — an item is found from another along `child` and `next`;
* `build_reach` — **whatever the events are, every item is found from the head**.
-/

namespace Ape.Json

/-! ## The data -/

/-- `JSON_type`. -/
inductive JsonType
  | none | arrayBegin | arrayEnd | objectBegin | objectEnd | integer | float | null | true | false
  | string | key
  deriving DecidableEq, Repr

/-- `json_child_t`. -/
inductive ChildType
  | obj | arr | val | null
  deriving DecidableEq, Repr

/-- A value that is no container, with the field of `JSON_value` the parser fills in for it.  A
`double` is kept as its bits. -/
inductive Scalar
  | integer (value : Int64) | float (value : UInt64) | null | true | false
  | string (value : List UInt8)
  deriving DecidableEq, Repr

/-- The two containers. -/
inductive Kind
  | object | array
  deriving DecidableEq, Repr

/-- `JSON_C_T_OBJ` and `JSON_C_T_ARR`. -/
def Kind.childType : Kind → ChildType
  | .object => .obj
  | .array => .arr

/-- The type the parser gives a scalar. -/
def Scalar.type : Scalar → JsonType
  | .integer _ => .integer
  | .float _ => .float
  | .null => .null
  | .true => .true
  | .false => .false
  | .string _ => .string

/-- A call of the parser's callback: `JSON_T_OBJECT_BEGIN` and `JSON_T_ARRAY_BEGIN`, their ends,
`JSON_T_KEY`, and the types of scalars. -/
inductive Event
  | containerBegin (kind : Kind)
  | containerEnd (kind : Kind)
  | key (key : List UInt8)
  | value (value : Scalar)
  deriving DecidableEq, Repr

/-- `json_item`, as `init_json_item` leaves it: `child`, `childHead` and `childType` are the fields
of `jchild`, and `str`, `integer` and `float` those of `jval.vu`.  A type of `-1` is `none`. -/
structure Item where
  father : Option Nat := none
  child : Option Nat := none
  childHead : Option Nat := none
  childType : ChildType := .null
  next : Option Nat := none
  key : Option (List UInt8) := none
  str : Option (List UInt8) := none
  integer : Int64 := 0
  float : UInt64 := 0
  type : Option JsonType := none
  deriving DecidableEq, Repr

/-- `json_context`, with the items allocated so far. -/
structure Context where
  items : List Item := []
  keyUnder : Bool := false
  startDepth : Bool := false
  head : Option Nat := none
  currentCx : Option Nat := none
  deriving DecidableEq, Repr

/-! ## The callback -/

/-- `jval = init_json_item()` with its links and `current_cx = jval`: the child of the current item
when a container has just been opened, else the next one behind it.  Without a current item the
source follows a null pointer. -/
def Context.hang (s : Context) : Option Context := do
  let c ← s.currentCx
  let current ← s.items[c]?
  let jval := s.items.length
  if s.startDepth then
    some { s with
      items := s.items.modify c (fun it => { it with child := some jval }) ++
        [{ father := some c }]
      currentCx := some jval }
  else
    some { s with
      items := s.items.modify c (fun it => { it with next := some jval }) ++
        [{ father := current.father }]
      currentCx := some jval }

/-- A write to the current item. -/
def Context.setCurrent (f : Item → Item) (s : Context) : Option Context := do
  let c ← s.currentCx
  some { s with items := s.items.modify c f }

/-- `JSON_T_OBJECT_BEGIN` and `JSON_T_ARRAY_BEGIN`. -/
def onBegin (kind : Kind) (s : Context) : Option Context := do
  let placed : Option Context :=
    if s.keyUnder then some s
    else if s.currentCx = none then
      some { s with items := s.items ++ [{}], currentCx := some s.items.length }
    else s.hang
  let s ← (← placed).setCurrent fun it => { it with childType := kind.childType }
  some { s with startDepth := true, keyUnder := false }

/-- `JSON_T_OBJECT_END` and `JSON_T_ARRAY_END`: back to the father, except from a container that was
closed as soon as it was opened. -/
def onEnd (s : Context) : Option Context := do
  let c ← s.currentCx
  let current ← s.items[c]?
  let s := if current.father ≠ none ∧ ¬ s.startDepth then { s with currentCx := current.father }
    else s
  some { s with startDepth := false, keyUnder := false }

/-- `JSON_T_KEY`. -/
def onKey (key : List UInt8) (s : Context) : Option Context := do
  let s ← s.hang
  ({ s with startDepth := false, keyUnder := true }).setCurrent fun it => { it with key := some key }

/-- The `switch` over the type of a scalar, and the type. -/
def Item.setValue (value : Scalar) (it : Item) : Item :=
  let it := match value with
    | .integer n => { it with integer := n }
    | .float x => { it with float := x }
    | .null | .false => { it with integer := 0 }
    | .true => { it with integer := 1 }
    | .string s => { it with str := some s }
  { it with type := some value.type }

/-- The types of scalars. -/
def onValue (value : Scalar) (s : Context) : Option Context := do
  let placed : Option Context :=
    if s.keyUnder then some s else s.hang.map fun s => { s with startDepth := false }
  { (← placed) with keyUnder := false }.setCurrent (Item.setValue value)

/-- **`json_callback`**: `none` where it follows a null pointer. -/
def jsonCallback (s : Context) (e : Event) : Option Context := do
  let switched : Option Context := match e with
    | .containerBegin kind => onBegin kind s
    | .containerEnd _ => onEnd s
    | .key key => onKey key s
    | .value value => onValue value s
  let s ← switched
  some { s with head := s.head.or s.currentCx }

/-- The callback's work for the events of a parser, from an empty context. -/
def build (es : List Event) : Option Context := es.foldlM jsonCallback {}

/-! ## Every item is found -/

/-- One link of an item. -/
def Link (items : List Item) (i j : Nat) : Prop :=
  ∃ it, items[i]? = some it ∧ (it.child = some j ∨ it.next = some j)

/-- An item is found from another along `child` and `next`. -/
def Reach (items : List Item) : Nat → Nat → Prop := Relation.ReflTransGen (Link items)

/-- An item can be left or followed: neither it nor any item it is in has a next one.  The fathers
come before it, so the chain ends. -/
inductive Open (items : List Item) : Nat → Prop
  | mk {i : Nat} {it : Item} (hit : items[i]? = some it) (hnext : it.next = none)
      (hlt : ∀ f, it.father = some f → f < i) (hup : ∀ f, it.father = some f → Open items f) :
      Open items i

theorem Open.item {items : List Item} {i : Nat} (h : Open items i) :
    ∃ it, items[i]? = some it ∧ it.next = none ∧
      ∀ f, it.father = some f → f < i ∧ Open items f := by
  cases h with
  | mk hit hnext hlt hup => exact ⟨_, hit, hnext, fun f hf => ⟨hlt f hf, hup f hf⟩⟩

/-- Items that keep their father and their next stay open. -/
theorem Open.frame {items items' : List Item} {i : Nat} (h : Open items i)
    (hsame : ∀ k ≤ i, ∀ it, items[k]? = some it →
      ∃ it', items'[k]? = some it' ∧ it'.next = it.next ∧ it'.father = it.father) :
    Open items' i := by
  induction h with
  | @mk i it hit hnext hlt _ ih =>
    obtain ⟨it', hit', hnext', hfather'⟩ := hsame i le_rfl it hit
    refine .mk hit' (hnext'.trans hnext) ?_ ?_
    · rw [hfather']
      exact hlt
    · intro f hf
      rw [hfather'] at hf
      exact ih f hf fun k hk => hsame k (hk.trans (hlt f hf).le)

/-- The context has a current item, and every item is found from the first. -/
structure Grown (s : Context) : Prop where
  head : s.head = some 0
  current : ∃ c, s.currentCx = some c ∧ Open s.items c
  reach : ∀ j < s.items.length, Reach s.items 0 j

/-- The current item has no child. -/
def Context.Fresh (s : Context) : Prop :=
  ∃ c it, s.currentCx = some c ∧ s.items[c]? = some it ∧ it.child = none

theorem getElem?_modify_append {items : List Item} {c : Nat} {x : Item} {f : Item → Item} {k : Nat}
    {it : Item} (hk : items[k]? = some it) :
    (items.modify c f ++ [x])[k]? = some (if c = k then f it else it) := by
  have hlt := (List.getElem?_eq_some_iff.1 hk).1
  rw [List.getElem?_append_left (by simpa using hlt), List.getElem?_modify, hk]
  split <;> rfl

theorem getElem?_last (items : List Item) (c : Nat) (x : Item) (f : Item → Item) :
    (items.modify c f ++ [x])[items.length]? = some x := by
  rw [List.getElem?_append_right (by simp)]
  simp

/-- Links that stay let an item still be found. -/
theorem Reach.mono {items items' : List Item} {i j : Nat} (h : Reach items i j)
    (hlink : ∀ i j, Link items i j → Link items' i j) : Reach items' i j := by
  unfold Reach at h ⊢
  exact Relation.ReflTransGen.mono hlink _ _ h

/-- **A new item** is linked where there was no link. -/
theorem Grown.hang {s s' : Context} (h : Grown s) (hfresh : s.startDepth = true → s.Fresh)
    (hs : s.hang = some s') : Grown s' ∧ s'.Fresh := by
  obtain ⟨c, hc, hopen⟩ := h.current
  obtain ⟨cur, hcur, hnext, hfather⟩ := hopen.item
  have hclt := (List.getElem?_eq_some_iff.1 hcur).1
  -- what both places have in common: `f` sets a link that was not set
  have hadd : ∀ (f : Item → Item) (x : Item), x.child = none →
      (∀ j, cur.child = some j ∨ cur.next = some j → (f cur).child = some j ∨ (f cur).next = some j) →
      ((f cur).child = some s.items.length ∨ (f cur).next = some s.items.length) →
      Open (s.items.modify c f ++ [x]) s.items.length →
      s' = { s with items := s.items.modify c f ++ [x], currentCx := some s.items.length } →
      Grown s' ∧ s'.Fresh := by
    rintro f x hx hkeep hlink hup rfl
    have hmono : ∀ i j, Link s.items i j → Link (s.items.modify c f ++ [x]) i j := by
      rintro i j ⟨it, hit, hj⟩
      refine ⟨_, getElem?_modify_append hit, ?_⟩
      split
      · subst i
        obtain rfl : cur = it := Option.some.inj (hcur.symm.trans hit)
        exact hkeep j hj
      · exact hj
    have hnew : Link (s.items.modify c f ++ [x]) c s.items.length :=
      ⟨_, getElem?_modify_append hcur, by simpa using hlink⟩
    refine ⟨⟨h.head, ⟨_, rfl, hup⟩, ?_⟩, _, x, rfl, getElem?_last .., hx⟩
    intro j hj
    rcases Nat.lt_succ_iff_lt_or_eq.1 (by simpa using hj : j < s.items.length + 1) with hj | rfl
    · exact (h.reach j hj).mono hmono
    · exact ((h.reach c hclt).mono hmono).tail hnew
  unfold Context.hang at hs
  simp only [hc, hcur, bind, Option.bind_some] at hs
  split at hs
  case isTrue hstart =>
    obtain ⟨c', cur', hc', hcur', hchild⟩ := hfresh hstart
    obtain rfl : c = c' := Option.some.inj (hc.symm.trans hc')
    obtain rfl : cur = cur' := Option.some.inj (hcur.symm.trans hcur')
    refine hadd _ _ rfl ?_ (.inl rfl) ?_ (Option.some.inj hs).symm
    · rintro j (hj | hj)
      · rw [hchild] at hj
        exact absurd hj (by simp)
      · exact .inr hj
    · refine .mk (getElem?_last ..) rfl ?_ ?_
      · rintro _ ⟨⟩
        exact hclt
      · rintro _ ⟨⟩
        refine hopen.frame fun k _ it hit => ⟨_, getElem?_modify_append hit, ?_⟩
        split <;> exact ⟨rfl, rfl⟩
  case isFalse =>
    refine hadd _ _ rfl ?_ (.inr rfl) ?_ (Option.some.inj hs).symm
    · rintro j (hj | hj)
      · exact .inl hj
      · rw [hnext] at hj
        exact absurd hj (by simp)
    · refine .mk (getElem?_last ..) rfl ?_ ?_
      · intro f hf
        exact (hfather f hf).1.trans hclt
      · intro f hf
        refine (hfather f hf).2.frame fun k hk it hit => ⟨_, getElem?_modify_append hit, ?_⟩
        rw [if_neg (by have := (hfather f hf).1; omega)]
        exact ⟨rfl, rfl⟩

/-- A write to the current item that keeps its links. -/
theorem Grown.setCurrent {s s' : Context} {f : Item → Item} (h : Grown s)
    (hs : s.setCurrent f = some s')
    (hf : ∀ it, (f it).child = it.child ∧ (f it).next = it.next ∧ (f it).father = it.father) :
    Grown s' ∧ (s.Fresh → s'.Fresh) := by
  obtain ⟨c, hc, hopen⟩ := h.current
  have hget : ∀ k it, s.items[k]? = some it →
      (s.items.modify c f)[k]? = some (if c = k then f it else it) := by
    intro k it hk
    rw [List.getElem?_modify, hk]
    split <;> rfl
  unfold Context.setCurrent at hs
  simp only [hc, bind, Option.bind_some] at hs
  obtain rfl := Option.some.inj hs
  refine ⟨⟨h.head, ⟨c, rfl, ?_⟩, ?_⟩, ?_⟩
  · refine hopen.frame fun k _ it hit => ⟨_, hget k it hit, ?_⟩
    split
    · exact ⟨(hf it).2.1, (hf it).2.2⟩
    · exact ⟨rfl, rfl⟩
  · intro j hj
    refine (h.reach j (by simpa using hj)).mono ?_
    rintro i j ⟨it, hit, hj⟩
    refine ⟨_, hget i it hit, ?_⟩
    split
    · rw [(hf it).1, (hf it).2.1]
      exact hj
    · exact hj
  · rintro ⟨c', it, hc', hit, hchild⟩
    obtain rfl : c = c' := Option.some.inj (hc.symm.trans hc')
    refine ⟨c, f it, rfl, ?_, (hf it).1.trans hchild⟩
    rw [hget c it hit, if_pos rfl]

/-- The invariant of the callback: a current item whose child will be set, or that has just been
allocated for a key, has none. -/
def Sound (s : Context) : Prop :=
  Grown s ∧ (s.startDepth = true ∨ s.keyUnder = true → s.Fresh)

theorem setValue_links (value : Scalar) (it : Item) :
    (it.setValue value).child = it.child ∧ (it.setValue value).next = it.next ∧
      (it.setValue value).father = it.father := by
  cases value <;> exact ⟨rfl, rfl, rfl⟩

theorem Sound.onBegin {s s' : Context} {kind : Kind} (h : Sound s)
    (hs : onBegin kind s = some s') : Sound s' := by
  unfold Json.onBegin at hs
  obtain ⟨s₁, hplace, hs⟩ := Option.bind_eq_some_iff.1 hs
  obtain ⟨s₂, hset, hs⟩ := Option.bind_eq_some_iff.1 hs
  have hplaced : Grown s₁ ∧ s₁.Fresh := by
    split at hplace
    case isTrue hkey =>
      obtain rfl := Option.some.inj hplace
      exact ⟨h.1, h.2 (.inr hkey)⟩
    case isFalse =>
      obtain ⟨c, hc, -⟩ := h.1.current
      rw [if_neg (by simp [hc])] at hplace
      exact h.1.hang (fun hstart => h.2 (.inl hstart)) hplace
  obtain ⟨hgrown, hfresh⟩ := hplaced.1.setCurrent hset fun _ => ⟨rfl, rfl, rfl⟩
  obtain rfl := Option.some.inj hs
  exact ⟨⟨hgrown.head, hgrown.current, hgrown.reach⟩, fun _ => hfresh hplaced.2⟩

theorem Sound.onEnd {s s' : Context} (h : Sound s) (hs : onEnd s = some s') : Sound s' := by
  obtain ⟨c, hc, hopen⟩ := h.1.current
  obtain ⟨cur, hcur, -, hfather⟩ := hopen.item
  unfold Json.onEnd at hs
  simp only [hc, hcur, bind, Option.bind_some] at hs
  obtain rfl := Option.some.inj hs
  refine ⟨⟨?_, ?_, ?_⟩, by simp⟩
  · split <;> exact h.1.head
  · split
    case isTrue hup =>
      obtain ⟨f, hf⟩ := Option.ne_none_iff_exists'.1 hup.1
      exact ⟨f, hf, (hfather f hf).2⟩
    case isFalse => exact ⟨c, hc, hopen⟩
  · split <;> exact h.1.reach

theorem Sound.onKey {s s' : Context} {key : List UInt8} (h : Sound s)
    (hs : onKey key s = some s') : Sound s' := by
  unfold Json.onKey at hs
  obtain ⟨s₁, hhang, hset⟩ := Option.bind_eq_some_iff.1 hs
  obtain ⟨hgrown, hfresh⟩ := h.1.hang (fun hstart => h.2 (.inl hstart)) hhang
  have hflags : Grown { s₁ with startDepth := false, keyUnder := true } :=
    ⟨hgrown.head, hgrown.current, hgrown.reach⟩
  obtain ⟨hgrown', hfresh'⟩ := hflags.setCurrent hset fun _ => ⟨rfl, rfl, rfl⟩
  exact ⟨hgrown', fun _ => hfresh' hfresh⟩

theorem Sound.onValue {s s' : Context} {value : Scalar} (h : Sound s)
    (hs : onValue value s = some s') : Sound s' := by
  unfold Json.onValue at hs
  obtain ⟨s₁, hplace, hset⟩ := Option.bind_eq_some_iff.1 hs
  have hplaced : Grown s₁ ∧ (s₁.startDepth = true → s₁.Fresh) := by
    split at hplace
    case isTrue hkey =>
      obtain rfl := Option.some.inj hplace
      exact ⟨h.1, fun hstart => h.2 (.inl hstart)⟩
    case isFalse =>
      obtain ⟨s₀, hhang, rfl⟩ := Option.map_eq_some_iff.1 hplace
      obtain ⟨hgrown, -⟩ := h.1.hang (fun hstart => h.2 (.inl hstart)) hhang
      exact ⟨⟨hgrown.head, hgrown.current, hgrown.reach⟩, by simp⟩
  have hflags : Grown { s₁ with keyUnder := false } :=
    ⟨hplaced.1.head, hplaced.1.current, hplaced.1.reach⟩
  obtain ⟨hgrown, hfresh⟩ := hflags.setCurrent hset (setValue_links value)
  have hs' : s'.startDepth = s₁.startDepth ∧ s'.keyUnder = false := by
    unfold Context.setCurrent at hset
    obtain ⟨c, -, hset⟩ := Option.bind_eq_some_iff.1 hset
    obtain rfl := Option.some.inj hset
    exact ⟨rfl, rfl⟩
  refine ⟨hgrown, ?_⟩
  rintro (hstart | hkey)
  · exact hfresh (hplaced.2 (hs'.1 ▸ hstart))
  · rw [hs'.2] at hkey
    exact absurd hkey (by simp)

/-- One event keeps the invariant. -/
theorem Sound.step {s s' : Context} {e : Event} (h : Sound s) (hs : jsonCallback s e = some s') :
    Sound s' := by
  unfold jsonCallback at hs
  obtain ⟨s₁, he, hs⟩ := Option.bind_eq_some_iff.1 hs
  have hsound : Sound s₁ := by
    cases e with
    | containerBegin kind => exact h.onBegin he
    | containerEnd kind => exact h.onEnd he
    | key key => exact h.onKey he
    | value value => exact h.onValue he
  obtain rfl := Option.some.inj hs
  refine ⟨⟨?_, hsound.1.current, hsound.1.reach⟩, hsound.2⟩
  rw [hsound.1.head, Option.some_or]

theorem Grown.hang_some {s : Context} (h : Grown s) : ∃ s', s.hang = some s' := by
  obtain ⟨c, hc, hopen⟩ := h.current
  obtain ⟨cur, hcur, -⟩ := hopen.item
  unfold Context.hang
  simp only [hc, hcur, bind, Option.bind_some]
  split <;> exact ⟨_, rfl⟩

theorem Grown.setCurrent_some {s : Context} (h : Grown s) (f : Item → Item) :
    ∃ s', s.setCurrent f = some s' := by
  obtain ⟨c, hc, -⟩ := h.current
  unfold Context.setCurrent
  rw [hc]
  exact ⟨_, rfl⟩

/-- Behind the first event the callback follows no null pointer. -/
theorem Sound.next {s : Context} (h : Sound s) (e : Event) : ∃ s', jsonCallback s e = some s' := by
  obtain ⟨s₁, hhang⟩ := h.1.hang_some
  have hgrown := (h.1.hang (fun hstart => h.2 (.inl hstart)) hhang).1
  have hfinish : ∀ {switched : Option Context} {s' : Context}, switched = some s' →
      ∃ s'', (do
        let s ← switched
        some { s with head := s.head.or s.currentCx }) = some s'' := by
    rintro _ s' rfl
    exact ⟨_, rfl⟩
  cases e with
  | containerBegin kind =>
    obtain ⟨c, hc, -⟩ := h.1.current
    have hplaced : ∃ s₂, (if s.keyUnder then some s
        else if s.currentCx = none then
          some { s with items := s.items ++ [{}], currentCx := some s.items.length }
        else s.hang) = some s₂ ∧ Grown s₂ := by
      split
      case isTrue => exact ⟨s, rfl, h.1⟩
      case isFalse =>
        rw [if_neg (by simp [hc]), hhang]
        exact ⟨s₁, rfl, hgrown⟩
    obtain ⟨s₂, hplaced, hgrown₂⟩ := hplaced
    obtain ⟨s₃, hset⟩ := hgrown₂.setCurrent_some fun it => { it with childType := kind.childType }
    have hbegin : Json.onBegin kind s = some { s₃ with startDepth := true, keyUnder := false } := by
      simp only [Json.onBegin, hplaced, hset, bind, Option.bind_some]
    exact hfinish hbegin
  | containerEnd kind =>
    obtain ⟨c, hc, hopen⟩ := h.1.current
    obtain ⟨cur, hcur, -⟩ := hopen.item
    have hend : ∃ s', Json.onEnd s = some s' := by
      unfold Json.onEnd
      simp only [hc, hcur, bind, Option.bind_some]
      exact ⟨_, rfl⟩
    obtain ⟨s', hend⟩ := hend
    exact hfinish hend
  | key key =>
    obtain ⟨s₂, hset⟩ := Grown.setCurrent_some
      (s := { s₁ with startDepth := false, keyUnder := true })
      ⟨hgrown.head, hgrown.current, hgrown.reach⟩ fun it => { it with key := some key }
    have hkey : Json.onKey key s = some s₂ := by
      simp only [Json.onKey, hhang, bind, Option.bind_some, hset]
    exact hfinish hkey
  | value value =>
    have hplaced : ∃ s₂, (if s.keyUnder then some s
        else s.hang.map fun s => { s with startDepth := false }) = some s₂ ∧ Grown s₂ := by
      split
      case isTrue => exact ⟨s, rfl, h.1⟩
      case isFalse =>
        rw [hhang]
        exact ⟨_, rfl, hgrown.head, hgrown.current, hgrown.reach⟩
    obtain ⟨s₂, hplaced, hgrown₂⟩ := hplaced
    obtain ⟨s₃, hset⟩ := Grown.setCurrent_some (s := { s₂ with keyUnder := false })
      ⟨hgrown₂.head, hgrown₂.current, hgrown₂.reach⟩ (Item.setValue value)
    have hvalue : Json.onValue value s = some s₃ := by
      simp only [Json.onValue, hplaced, bind, Option.bind_some, hset]
    exact hfinish hvalue

/-- The first event that goes through opens a container. -/
theorem sound_first {s : Context} {e : Event} (hs : jsonCallback {} e = some s) : Sound s := by
  cases e with
  | containerBegin kind =>
    have hs' : s = ⟨[{ childType := kind.childType }], false, true, some 0, some 0⟩ :=
      (Option.some.inj hs).symm
    subst hs'
    refine ⟨⟨rfl, ⟨0, rfl, .mk rfl rfl ?_ ?_⟩, ?_⟩, fun _ => ⟨0, _, rfl, rfl, rfl⟩⟩
    · rintro _ ⟨⟩
    · rintro _ ⟨⟩
    · intro j hj
      obtain rfl : j = 0 := by simpa using hj
      exact .refl
  | containerEnd kind => exact absurd hs (by simp [jsonCallback, onEnd])
  | key key => exact absurd hs (by simp [jsonCallback, onKey, Context.hang])
  | value value => exact absurd hs (by simp [jsonCallback, onValue, Context.hang])

/-- **A text that begins with an opening bracket** has a tree. -/
theorem build_begin (kind : Kind) (es : List Event) :
    ∃ s, build (.containerBegin kind :: es) = some s ∧ s.head = some 0 := by
  have hrun : ∀ (es : List Event) (s : Context), Sound s →
      ∃ s', es.foldlM jsonCallback s = some s' ∧ Sound s' := by
    intro es
    induction es with
    | nil => exact fun s hs => ⟨s, rfl, hs⟩
    | cons e es ih =>
      intro s hs
      obtain ⟨s₁, hnext⟩ := hs.next e
      obtain ⟨s', hrest, hs'⟩ := ih s₁ (hs.step hnext)
      exact ⟨s', by rw [List.foldlM_cons, hnext]; exact hrest, hs'⟩
  have hfirst : ∃ s, jsonCallback {} (.containerBegin kind) = some s := ⟨_, rfl⟩
  obtain ⟨s, hs⟩ := hfirst
  obtain ⟨s', hrest, hsound⟩ := hrun es s (sound_first hs)
  exact ⟨s', by rw [build, List.foldlM_cons, hs]; exact hrest, hsound.1.head⟩

/-- What the events of a text leave, if there is one. -/
theorem sound_build {e : Event} {es : List Event} {s : Context} (h : build (e :: es) = some s) :
    Sound s := by
  obtain ⟨s₁, hstep, hrest⟩ := Option.bind_eq_some_iff.1 h
  exact Traces.foldlM_invariant (P := fun s _ => Sound s) (fun _ _ _ _ hs hstep => hs.step hstep)
    (w := []) (sound_first hstep) hrest

/-- **Nothing is lost**: whatever the events are, every item allocated is found from the head. -/
theorem build_reach {es : List Event} {s : Context} (h : build es = some s) :
    ∀ j < s.items.length, ∃ i, s.head = some i ∧ Reach s.items i j := by
  cases es with
  | nil =>
    obtain rfl : ({} : Context) = s := Option.some.inj h
    simp
  | cons e es =>
    have hsound := sound_build h
    exact fun j hj => ⟨0, hsound.1.head, hsound.1.reach j hj⟩

end Ape.Json
