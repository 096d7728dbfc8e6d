import ApeServer.Json.Copy
import ApeServer.Json.Setters

/-!
# Trees from several sources

One memory holds what is parsed, copied and built by hand, and the setters append to any of it.  They
go by the tail pointer, which `json_item_copy` and they themselves set, and `json_callback` does not.

* `Call`, `exec` — the calls that make items or link them;
* `Contract` — what the caller sees to;
* `Extends` — along a run every tail pointer is right, and every setter appends one item;
* `Parsed.step` — what one event leaves;
* `extends_iff` — **trees can be extended exactly as long as no container with members is parsed**.
-/

namespace Ape.Json

/-! ## The calls -/

/-- The value of a setter that makes an item. -/
inductive Setter
  | str (value : List UInt8)
  | int (value : Int64)
  | float (value : UInt64)
  | boolean (value : Int32)
  | null
  deriving DecidableEq, Repr

/-- The setter of a value; with no key it is the one for elements. -/
def Setter.run (obj : Nat) (key : Option (List UInt8)) : Setter → List Item → Option (List Item)
  | .str value => jsonSetPropertyStrN obj key value
  | .int value => jsonSetPropertyIntN obj key value
  | .float value => jsonSetPropertyFloatN obj key value
  | .boolean value => jsonSetPropertyBoolean obj key value
  | .null => jsonSetPropertyNull obj key

/-- The item it makes. -/
def Setter.item (key : Option (List UInt8)) : Setter → Item
  | .str value => { key, str := some value, type := some .string }
  | .int value => { key, integer := value, type := some .integer }
  | .float value => { key, float := value, type := some .float }
  | .boolean value => { key, type := some (if value ≠ 0 then .true else .false) }
  | .null => { key, type := some .null }

/-- A call: a text is parsed, of which the callback sees the events, a tree is copied, a container is
made, or one of the setters is called. -/
inductive Call
  | parse (es : List Event)
  | copy (cx : Option Nat)
  | new (kind : Kind)
  | set (obj : Nat) (key : Option (List UInt8)) (value : Setter)
  | setObj (obj : Nat) (key : Option (List UInt8)) (value : Nat)
  deriving DecidableEq, Repr

/-- The items behind a call; `none` where it follows a null pointer. -/
def exec (items : List Item) : Call → Option (List Item)
  | .parse es => (es.foldlM jsonCallback { items }).map Context.items
  | .copy cx => (jsonItemCopy items cx none).map Prod.fst
  | .new kind => some (jsonNewContainer kind items).1
  | .set obj key value => value.run obj key items
  | .setObj obj key value => jsonSetPropertyObjN obj key value items

/-- What the caller of a call sees to: the pointers are those of items, and an object that is appended
is a detached root of another tree. -/
def Call.Valid (items : List Item) : Call → Prop
  | .parse es => ∃ s, es.foldlM jsonCallback { items } = some s
  | .copy cx => ∀ i, cx = some i → i < items.length
  | .new _ => True
  | .set obj _ _ => obj < items.length
  | .setObj obj _ value => obj < items.length ∧ Detached items value ∧ ¬ Reach items value obj

/-- Every call of a run is valid. -/
def Contract : List Item → List Call → Prop
  | _, [] => True
  | items, call :: calls =>
    call.Valid items ∧ ∀ items', exec items call = some items' → Contract items' calls

/-- The tail pointer of every container with children points to the last of them. -/
def Tails (items : List Item) : Prop :=
  ∀ (i : Nat) (it : Item), items[i]? = some it → it.child ≠ none →
    ∃ row t, Row items it.child (row ++ [t]) ∧ it.childHead = some t

/-- What a setter has done: it has appended one item. -/
def Call.Done (items items' : List Item) : Call → Prop
  | .set obj key value => items'.length = items.length + 1 ∧
      Appended items items' obj items.length { value.item key with father := some obj }
  | .setObj obj key value => items'.length = items.length ∧
      ∃ vt, items[value]? = some vt ∧
        Appended items items' obj value { vt with key := key.or vt.key, father := some obj }
  | _ => True

/-- Along a run the tail pointers are right, no call follows a null pointer, and the setters
append. -/
def Extends : List Item → List Call → Prop
  | items, [] => Tails items
  | items, call :: calls =>
    Tails items ∧ ∃ items', exec items call = some items' ∧ call.Done items items' ∧
      Extends items' calls

/-! ## What the callback leaves -/

/-- An opening bracket. -/
def Event.begins : Event → Bool
  | .containerBegin _ => true
  | _ => false

/-- A closing bracket. -/
def Event.ends : Event → Bool
  | .containerEnd _ => true
  | _ => false

/-- Behind every opening bracket follows a closing one, and behind the one before these events, if
there was one: no container has members. -/
def Memberless : Bool → List Event → Prop
  | _, [] => True
  | opened, e :: es => (opened = true → e.ends = true) ∧ Memberless e.begins es

instance decidableMemberless : (opened : Bool) → (es : List Event) → Decidable (Memberless opened es)
  | _, [] => isTrue trivial
  | _, e :: es =>
    have := decidableMemberless e.begins es
    inferInstanceAs (Decidable (_ ∧ _))

/-- The items from number `n` on have no children. -/
def Flat (n : Nat) (items : List Item) : Prop :=
  ∀ (k : Nat) (it : Item), n ≤ k → items[k]? = some it → it.child = none

/-- The memory of a run of the callback that began with the items `old`: these are what they were, and
those behind them have no tail pointer, and their fathers are behind them too. -/
structure Parsed (old items : List Item) (cx : Option Nat) : Prop where
  kept : Kept items
  length : old.length ≤ items.length
  same : ∀ k < old.length, items[k]? = old[k]?
  current : ∀ c, cx = some c → old.length ≤ c ∧ c < items.length
  made : ∀ (k : Nat) (it : Item), old.length ≤ k → items[k]? = some it → it.childHead = none ∧
    ∀ f, it.father = some f → old.length ≤ f ∧ f < items.length

theorem Parsed.start {items : List Item} (h : Kept items) : Parsed items items none := by
  refine ⟨h, le_rfl, fun k _ => rfl, ?_, ?_⟩
  · intro c hc
    exact absurd hc (by simp)
  · intro k it hk hit
    exact absurd (List.getElem?_eq_some_iff.1 hit).1 (Nat.not_lt.2 hk)

section

variable {old items : List Item} {cx : Option Nat} {c : Nat} {f : Item → Item}

/-- A store to an item that is not old, if it keeps the father and the tail pointer. -/
theorem Parsed.store (h : Parsed old items cx) (hc : old.length ≤ c) (hkept : Kept (items.modify c f))
    (hf : ∀ it, (f it).childHead = it.childHead ∧ (f it).father = it.father) :
    Parsed old (items.modify c f) cx := by
  refine ⟨hkept, by simpa using h.length, ?_, by simpa using h.current, ?_⟩
  · intro k hk
    rw [List.getElem?_modify, ← h.same k hk]
    cases items[k]? with
    | none => rfl
    | some it => exact congrArg some (if_neg (by omega))
  · intro k it' hk hit'
    obtain ⟨it, hit, rfl⟩ := getElem?_store c f hit'
    rw [List.length_modify]
    split
    · rw [(hf it).1, (hf it).2]
      exact h.made k it hk hit
    · exact h.made k it hk hit

/-- A new item, which becomes the current one. -/
theorem Parsed.append (h : Parsed old items cx) {x : Item} (hkept : Kept (items ++ [x]))
    (hhead : x.childHead = none)
    (hfather : ∀ g, x.father = some g → old.length ≤ g ∧ g < items.length) :
    Parsed old (items ++ [x]) (some items.length) := by
  have hlength : (items ++ [x]).length = items.length + 1 := by simp
  refine ⟨hkept, by have := h.length; omega, ?_, ?_, ?_⟩
  · intro k hk
    rw [List.getElem?_append_left (hk.trans_le h.length)]
    exact h.same k hk
  · rintro _ ⟨⟩
    exact ⟨h.length, by omega⟩
  · intro k it hk hit
    rcases Nat.lt_or_ge k items.length with hlt | hge
    · rw [List.getElem?_append_left hlt] at hit
      obtain ⟨hnone, hbelow⟩ := h.made k it hk hit
      exact ⟨hnone, fun g hg => ⟨(hbelow g hg).1, by have := (hbelow g hg).2; omega⟩⟩
    · rw [List.getElem?_append_right hge] at hit
      obtain rfl := List.mem_singleton.1 (List.mem_of_getElem? hit)
      exact ⟨hhead, fun g hg => ⟨(hfather g hg).1, by have := (hfather g hg).2; omega⟩⟩

theorem flat_store {n : Nat} (hf : ∀ it, (f it).child = it.child) :
    Flat n (items.modify c f) ↔ Flat n items := by
  constructor
  · intro h k it hk hit
    have hnone := h k _ hk (getElem?_stored f hit)
    split at hnone
    · exact (hf it).symm.trans hnone
    · exact hnone
  · intro h k it' hk hit'
    obtain ⟨it, hit, rfl⟩ := getElem?_store c f hit'
    split
    · exact (hf it).trans (h k it hk hit)
    · exact h k it hk hit

theorem flat_append {n : Nat} {x : Item} (hx : x.child = none) :
    Flat n (items ++ [x]) ↔ Flat n items := by
  constructor
  · intro h k it hk hit
    refine h k it hk ?_
    rw [List.getElem?_append_left (List.getElem?_eq_some_iff.1 hit).1]
    exact hit
  · intro h k it hk hit
    rcases Nat.lt_or_ge k items.length with hlt | hge
    · rw [List.getElem?_append_left hlt] at hit
      exact h k it hk hit
    · rw [List.getElem?_append_right hge] at hit
      obtain rfl := List.mem_singleton.1 (List.mem_of_getElem? hit)
      exact hx

end

variable {old : List Item} {s s' : Context}

/-- **A new item** is a child, if a container has just been opened. -/
theorem Parsed.hang (h : Parsed old s.items s.currentCx) (hs : s.hang = some s') :
    Parsed old s'.items s'.currentCx ∧ s'.currentCx ≠ none ∧ s'.startDepth = s.startDepth ∧
      s'.keyUnder = s.keyUnder ∧
      (Flat old.length s'.items ↔ Flat old.length s.items ∧ s.startDepth = false) := by
  obtain ⟨c, hc, hs⟩ := Option.bind_eq_some_iff.1 hs
  obtain ⟨cur, hcur, hs⟩ := Option.bind_eq_some_iff.1 hs
  obtain ⟨hle, hlt⟩ := h.current c hc
  obtain ⟨hhead, hbelow⟩ := h.made c cur hle hcur
  -- the new item is there first, and then it is linked
  have hcur' : ∀ x : Item, (s.items ++ [x])[c]? = some cur := by
    intro x
    rw [List.getElem?_append_left hlt]
    exact hcur
  have hfar : ∀ x : Item, x.child = none → x.next = none →
      ¬ Reach (s.items ++ [x]) s.items.length c := by
    intro x hchild hnext hreach
    exact absurd (hreach.eq_of_leaf List.getElem?_concat_length hchild hnext) (Nat.ne_of_lt hlt)
  split at hs
  case isTrue hstart =>
    obtain rfl := Option.some.inj hs
    have happend : Parsed old (s.items ++ [{ father := some c }]) (some s.items.length) :=
      h.append (h.kept.append rfl rfl) rfl (by rintro _ ⟨⟩; exact ⟨hle, hlt⟩)
    have hkept := happend.kept.linkChild (hcur' _) hhead List.getElem?_concat_length rfl
      (hfar _ rfl rfl)
    have hparsed := happend.store hle hkept fun it => ⟨rfl, rfl⟩
    rw [modify_append_left hlt] at hparsed
    refine ⟨hparsed, by simp, rfl, rfl, ?_⟩
    rw [hstart]
    refine iff_of_false ?_ (by simp)
    intro hflat
    exact absurd (hflat c _ hle (getElem?_modify_append hcur)) (by simp)
  case isFalse hstart =>
    obtain rfl := Option.some.inj hs
    have happend : Parsed old (s.items ++ [{ father := cur.father }]) (some s.items.length) :=
      h.append (h.kept.append rfl rfl) rfl hbelow
    have hbrother : ∀ i it, cur.father = some i →
        (s.items ++ [{ father := cur.father }])[i]? = some it → it.childHead = none :=
      fun i it hi hit => (happend.made i it (hbelow i hi).1 hit).1
    have hkept := happend.kept.linkNext (hcur' _) hbrother List.getElem?_concat_length rfl
      (hfar _ rfl rfl)
    have hparsed := happend.store hle hkept fun it => ⟨rfl, rfl⟩
    rw [modify_append_left hlt] at hparsed
    refine ⟨hparsed, by simp, rfl, rfl, ?_⟩
    rw [flat_append rfl, flat_store (f := fun it => { it with next := some s.items.length })
      fun it => rfl]
    simp [hstart]

/-- A write to the current item that keeps its links. -/
theorem Parsed.setCurrent {f : Item → Item} (h : Parsed old s.items s.currentCx)
    (hs : s.setCurrent f = some s')
    (hf : ∀ it, (f it).child = it.child ∧ (f it).next = it.next ∧ (f it).father = it.father ∧
      (f it).childHead = it.childHead) :
    Parsed old s'.items s'.currentCx ∧ s'.currentCx ≠ none ∧ s'.startDepth = s.startDepth ∧
      s'.keyUnder = s.keyUnder ∧ (Flat old.length s'.items ↔ Flat old.length s.items) := by
  obtain ⟨c, hc, hs⟩ := Option.bind_eq_some_iff.1 hs
  obtain rfl := Option.some.inj hs
  have hparsed := h.store (h.current c hc).1 (h.kept.payload hf) fun it => ⟨(hf it).2.2.2, (hf it).2.2.1⟩
  refine ⟨hparsed, ?_, rfl, rfl, flat_store fun it => (hf it).1⟩
  simp [hc]

/-- The flags between two events: below a key no container has just been opened, nor before the first
event. -/
def Context.Settled (s : Context) : Prop :=
  s.keyUnder = true ∨ s.currentCx = none → s.startDepth = false

/-- What an event leaves: the flag of an opening bracket is set behind one, and there are no new
children, unless there is something else than a closing bracket behind one. -/
def Took (old : List Item) (s s' : Context) (e : Event) : Prop :=
  Parsed old s'.items s'.currentCx ∧ s'.Settled ∧ s'.startDepth = e.begins ∧
    (Flat old.length s'.items ↔ Flat old.length s.items ∧ (s.startDepth = true → e.ends = true))

theorem setValue_places (value : Scalar) (it : Item) :
    (it.setValue value).child = it.child ∧ (it.setValue value).next = it.next ∧
      (it.setValue value).father = it.father ∧ (it.setValue value).childHead = it.childHead := by
  cases value <;> exact ⟨rfl, rfl, rfl, rfl⟩

theorem Parsed.onBegin {kind : Kind} (h : Parsed old s.items s.currentCx) (hsettled : s.Settled)
    (hs : onBegin kind s = some s') : Took old s s' (.containerBegin kind) := by
  obtain ⟨s₁, hplace, hs⟩ := Option.bind_eq_some_iff.1 hs
  obtain ⟨s₂, hset, hs⟩ := Option.bind_eq_some_iff.1 hs
  obtain rfl := Option.some.inj hs
  have hplaced : Parsed old s₁.items s₁.currentCx ∧
      (Flat old.length s₁.items ↔ Flat old.length s.items ∧ s.startDepth = false) := by
    split at hplace
    case isTrue hkey =>
      obtain rfl := Option.some.inj hplace
      exact ⟨h, by simp [hsettled (.inl hkey)]⟩
    case isFalse =>
      split at hplace
      case isTrue hnone =>
        obtain rfl := Option.some.inj hplace
        refine ⟨h.append (h.kept.append rfl rfl) rfl (by simp), ?_⟩
        rw [flat_append rfl]
        simp [hsettled (.inr hnone)]
      case isFalse =>
        obtain ⟨hparsed, -, -, -, hflat⟩ := h.hang hplace
        exact ⟨hparsed, hflat⟩
  obtain ⟨hparsed, hcurrent, -, -, hflat⟩ := hplaced.1.setCurrent hset fun _ => ⟨rfl, rfl, rfl, rfl⟩
  refine ⟨hparsed, by simp [Context.Settled, hcurrent], rfl, ?_⟩
  rw [hflat, hplaced.2]
  simp [Event.ends]

theorem Parsed.onEnd {kind : Kind} (h : Parsed old s.items s.currentCx)
    (hs : onEnd s = some s') : Took old s s' (.containerEnd kind) := by
  obtain ⟨c, hc, hs⟩ := Option.bind_eq_some_iff.1 hs
  obtain ⟨cur, hcur, hs⟩ := Option.bind_eq_some_iff.1 hs
  obtain rfl := Option.some.inj hs
  obtain ⟨hle, hlt⟩ := h.current c hc
  split
  case isTrue hup =>
    refine ⟨⟨h.kept, h.length, h.same, ?_, h.made⟩, by simp [Context.Settled], rfl, ?_⟩
    · intro f hf
      exact (h.made c cur hle hcur).2 f hf
    · simp [Event.ends]
  case isFalse =>
    exact ⟨h, by simp [Context.Settled], rfl, by simp [Event.ends]⟩

theorem Parsed.onKey {key : List UInt8} (h : Parsed old s.items s.currentCx)
    (hs : onKey key s = some s') : Took old s s' (.key key) := by
  obtain ⟨s₁, hhang, hset⟩ := Option.bind_eq_some_iff.1 hs
  obtain ⟨hparsed₁, -, -, -, hflat₁⟩ := h.hang hhang
  have hflags : Parsed old ({ s₁ with startDepth := false, keyUnder := true } : Context).items
      ({ s₁ with startDepth := false, keyUnder := true } : Context).currentCx := hparsed₁
  obtain ⟨hparsed, -, hstart, -, hflat⟩ := hflags.setCurrent hset fun _ => ⟨rfl, rfl, rfl, rfl⟩
  refine ⟨hparsed, fun _ => hstart, hstart, ?_⟩
  rw [hflat, hflat₁]
  simp [Event.ends]

theorem Parsed.onValue {value : Scalar} (h : Parsed old s.items s.currentCx) (hsettled : s.Settled)
    (hs : onValue value s = some s') : Took old s s' (.value value) := by
  obtain ⟨s₁, hplace, hset⟩ := Option.bind_eq_some_iff.1 hs
  have hplaced : Parsed old s₁.items s₁.currentCx ∧ s₁.startDepth = false ∧
      (Flat old.length s₁.items ↔ Flat old.length s.items ∧ s.startDepth = false) := by
    split at hplace
    case isTrue hkey =>
      obtain rfl := Option.some.inj hplace
      have hstart := hsettled (.inl hkey)
      exact ⟨h, hstart, by simp [hstart]⟩
    case isFalse =>
      obtain ⟨s₀, hhang, rfl⟩ := Option.map_eq_some_iff.1 hplace
      obtain ⟨hparsed, -, -, -, hflat⟩ := h.hang hhang
      exact ⟨hparsed, rfl, hflat⟩
  have hflags : Parsed old ({ s₁ with keyUnder := false } : Context).items
      ({ s₁ with keyUnder := false } : Context).currentCx := hplaced.1
  obtain ⟨hparsed, -, hstart, -, hflat⟩ := hflags.setCurrent hset (setValue_places value)
  refine ⟨hparsed, fun _ => hstart.trans hplaced.2.1, hstart.trans hplaced.2.1, ?_⟩
  rw [hflat]
  exact hplaced.2.2.trans (by simp [Event.ends])

/-- **One event** of the parser adds to the tree what it tells, and the old items stay. -/
theorem Parsed.step {e : Event} (h : Parsed old s.items s.currentCx) (hsettled : s.Settled)
    (hs : jsonCallback s e = some s') : Took old s s' e := by
  obtain ⟨s₁, he, hs⟩ := Option.bind_eq_some_iff.1 hs
  obtain rfl := Option.some.inj hs
  have htook : Took old s s₁ e := by
    cases e with
    | containerBegin kind => exact h.onBegin hsettled he
    | containerEnd kind => exact h.onEnd he
    | key key => exact h.onKey he
    | value value => exact h.onValue hsettled he
  exact htook

/-- **The events of a text** keep what is known, and the heads, if there are no members in it. -/
theorem Parsed.run {es : List Event} (h : Parsed old s.items s.currentCx) (hsettled : s.Settled)
    (hs : es.foldlM jsonCallback s = some s') :
    Parsed old s'.items s'.currentCx ∧
      (Flat old.length s'.items ↔ Flat old.length s.items ∧ Memberless s.startDepth es) := by
  induction es generalizing s with
  | nil =>
    obtain rfl := Option.some.inj hs
    exact ⟨h, by simp [Memberless]⟩
  | cons e es ih =>
    rw [List.foldlM_cons] at hs
    obtain ⟨s₁, hstep, hrest⟩ := Option.bind_eq_some_iff.1 hs
    obtain ⟨hparsed, hsettled₁, hbegins, hflat⟩ := h.step hsettled hstep
    obtain ⟨hparsed', hflat'⟩ := ih hparsed hsettled₁ hrest
    refine ⟨hparsed', ?_⟩
    rw [hflat', hflat, hbegins, and_assoc]
    rfl

/-- **What parsing leaves**: the items there were as they are, and new ones without tail pointers,
which have no children exactly if no container that is parsed has members. -/
theorem parse_spec {items items' : List Item} (h : Kept items) {es : List Event}
    (hs : exec items (.parse es) = some items') :
    Kept items' ∧ (∀ k < items.length, items'[k]? = items[k]?) ∧
      (∀ (k : Nat) (it : Item), items.length ≤ k → items'[k]? = some it → it.childHead = none) ∧
      (Flat items.length items' ↔ Memberless false es) := by
  obtain ⟨s, hrun, rfl⟩ := Option.map_eq_some_iff.1 hs
  obtain ⟨hparsed, hflat⟩ := (Parsed.start h).run (s := { items }) (fun _ => rfl) hrun
  refine ⟨hparsed.kept, hparsed.same, fun k it hk hit => (hparsed.made k it hk hit).1, ?_⟩
  rw [hflat]
  refine and_iff_right ?_
  intro k it hk hit
  exact absurd (List.getElem?_eq_some_iff.1 hit).1 (Nat.not_lt.2 hk)

/-! ## What a copy leaves -/

/-- The items of a forest have the numbers from `i` on. -/
theorem fst_placed (father : Option Nat) (L : Forest Load) (i : Nat) :
    (placed father L i).nodes.map Prod.fst = List.range' i L.size := by
  induction L generalizing father i with
  | nil => rfl
  | node l children rest ihc ihr =>
    rw [placed, Forest.nodes, List.map_cons, List.map_append, ihc, ihr, List.range'_append_1,
      Forest.size, Nat.add_assoc 1, Nat.add_comm 1, List.range'_succ]

/-- An item behind the others is one of the forest that was placed there. -/
theorem mem_nodes_placed {items : List Item} {father : Option Nat} {L : Forest Load} {k : Nat}
    {it : Item} (hk : items.length ≤ k)
    (hit : (items ++ layout father L items.length)[k]? = some it) :
    (k, it) ∈ (placed father L items.length).nodes := by
  rw [List.getElem?_append_right hk, layout, List.getElem?_map] at hit
  obtain ⟨⟨j, it'⟩, hnode, rfl⟩ := Option.map_eq_some_iff.1 hit
  have hfst := congrArg (Option.map Prod.fst) hnode
  rw [← List.getElem?_map, fst_placed] at hfst
  obtain ⟨hlt, hj⟩ := List.getElem?_eq_some_iff.1 hfst
  rw [List.getElem_range'] at hj
  obtain rfl : j = k := by
    simp only at hj
    omega
  exact List.mem_of_getElem? hnode

/-- **A forest that is placed behind the items** is linked as trees, and has tail pointers. -/
theorem Kept.plant {items : List Item} (h : Kept items) (L : Forest Load) :
    Kept (items ++ layout none L items.length) ∧
      (Headed items → Headed (items ++ layout none L items.length)) := by
  have hholds := holds_placed none L items []
  rw [List.append_nil] at hholds
  have hold : ∀ (k : Nat) (it : Item), k < items.length →
      (items ++ layout none L items.length)[k]? = some it → items[k]? = some it := by
    intro k it hk hit
    rw [List.getElem?_append_left hk] at hit
    exact hit
  have hkeep : ∀ (k : Nat) (it : Item), items[k]? = some it →
      (items ++ layout none L items.length)[k]? = some it := by
    intro k it hit
    rw [List.getElem?_append_left (List.getElem?_eq_some_iff.1 hit).1]
    exact hit
  -- an item of the forest, with what is below and behind it
  have hnew : ∀ (k : Nat) (it : Item), items.length ≤ k →
      (items ++ layout none L items.length)[k]? = some it → ∃ children rest,
        Holds (items ++ layout none L items.length) (.node (k, it) children rest) (some k) ∧
        Fathered (.node (k, it) children rest) it.father ∧ Tailed (.node (k, it) children rest) := by
    intro k it hk hit
    exact hholds.below (fathered_placed ..) (tailed_placed ..) (mem_nodes_placed hk hit)
  have hfirst : ∀ {F : Forest (Nat × Item)} {j : Nat} {father : Option Nat},
      Holds (items ++ layout none L items.length) F (some j) → Fathered F father →
        ∃ jt, (items ++ layout none L items.length)[j]? = some jt ∧ jt.father = father := by
    intro F j father hF hfather
    cases F with
    | nil => exact absurd hF (by simp [Holds, Forest.Spells])
    | node b children rest =>
      obtain ⟨hj, hjt, -⟩ := hF
      obtain rfl := Option.some.inj hj
      exact ⟨b.2, hjt, hfather.1⟩
  refine ⟨⟨?_, ?_, ?_, ?_⟩, ?_⟩
  · intro k
    rcases Nat.lt_or_ge k items.length with hk | hk
    · induction h.grounded k with
      | intro k _ ih =>
        refine Acc.intro k ?_
        rintro j ⟨it, hit, hj⟩
        have hlink : Link items k j := ⟨it, hold k it hk hit, hj⟩
        exact ih j hlink (h.inside hlink)
    · refine Acc.intro k ?_
      rintro j ⟨it, hit, hj⟩
      obtain ⟨children, rest, hF, -⟩ := hnew k it hk hit
      exact (Forest.Spells.grounded hF).inv ⟨it, hit, hj⟩
  · intro k j it hit hj
    rcases Nat.lt_or_ge k items.length with hk | hk
    · obtain ⟨jt, hjt, hfather⟩ := h.child k j it (hold k it hk hit) hj
      exact ⟨jt, hkeep j jt hjt, hfather⟩
    · obtain ⟨children, rest, hF, hfather, -⟩ := hnew k it hk hit
      obtain ⟨-, -, hchildren, -⟩ := hF
      exact hfirst (hj ▸ hchildren) hfather.2.1
  · intro k j it hit hj
    rcases Nat.lt_or_ge k items.length with hk | hk
    · obtain ⟨jt, hjt, hfather⟩ := h.next k j it (hold k it hk hit) hj
      exact ⟨jt, hkeep j jt hjt, hfather⟩
    · obtain ⟨children, rest, hF, hfather, -⟩ := hnew k it hk hit
      obtain ⟨-, -, -, hrest⟩ := hF
      exact hfirst (hj ▸ hrest) hfather.2.2
  · intro k t it hit hchild hhead
    rcases Nat.lt_or_ge k items.length with hk | hk
    · obtain ⟨row, hrow⟩ := h.tail k t it (hold k it hk hit) hchild hhead
      exact ⟨row, Links.Seg.frame hrow fun i _ jt hjt => ⟨jt, hkeep i jt hjt, rfl⟩⟩
    · obtain ⟨children, rest, hF, -, htail⟩ := hnew k it hk hit
      obtain ⟨-, -, hchildren, -⟩ := hF
      have hlast : (children.roots.map Prod.fst).getLast? = some t := htail.1.symm.trans hhead
      obtain ⟨row, hrow⟩ := List.getLast?_eq_some_iff.1 hlast
      exact ⟨row, hrow ▸ Holds.row hchildren⟩
  · intro hheaded k it hit hchild
    rcases Nat.lt_or_ge k items.length with hk | hk
    · exact hheaded k it (hold k it hk hit) hchild
    · obtain ⟨children, rest, hF, -, htail⟩ := hnew k it hk hit
      obtain ⟨-, -, hchildren, -⟩ := hF
      have hhead : it.childHead = (children.roots.map Prod.fst).getLast? := htail.1
      cases children with
      | nil => exact absurd hchildren hchild
      | node b below behind =>
        rw [hhead]
        simp [Forest.roots]

/-- **A copy** leaves the links and the heads as they were. -/
theorem copy_spec {items : List Item} (h : Kept items) {cx : Option Nat}
    (hcx : ∀ i, cx = some i → i < items.length) :
    ∃ items', exec items (.copy cx) = some items' ∧ Kept items' ∧
      (Headed items → Headed items') := by
  obtain ⟨F, hF⟩ : ∃ F, Holds items F cx := by
    cases cx with
    | none => exact ⟨.nil, rfl⟩
    | some i =>
      obtain ⟨F, hF, -⟩ := h.exists_spells (hcx i rfl)
      exact ⟨F, hF⟩
  refine ⟨_, ?_, h.plant (carried F)⟩
  rw [exec, jsonItemCopy_eq hF]
  rfl

/-! ## The setters -/

/-- Where no pointer dangles, all of them are alike. -/
theorem Setter.run_eq {items : List Item} (h : Kept items) {obj : Nat} {o : Item}
    (ho : items[obj]? = some o) (key : Option (List UInt8)) (value : Setter) :
    value.run obj key items = setNew obj (value.item key) items := by
  cases value with
  | str value =>
    refine jsonSetPropertyStrN_eq_setNew ho ?_ key value
    intro hchild t ht
    obtain ⟨row, hrow⟩ := h.tail obj t o ho hchild ht
    obtain ⟨tt, htt, -⟩ := h.children_father ho hrow (List.mem_append_right _ (List.mem_singleton_self t))
    exact (List.getElem?_eq_some_iff.1 htt).1
  | int value => rfl
  | float value => rfl
  | boolean value => rfl
  | null => rfl

theorem Setter.item_links (key : Option (List UInt8)) (value : Setter) :
    (value.item key).child = none ∧ (value.item key).next = none := by
  cases value <;> exact ⟨rfl, rfl⟩

/-- **A setter that makes an item** appends it. -/
theorem set_spec {items : List Item} (h : Kept items) {obj : Nat} {o : Item}
    (ho : items[obj]? = some o) (hhead : o.child ≠ none → o.childHead ≠ none)
    (key : Option (List UInt8)) (value : Setter) :
    ∃ items', exec items (.set obj key value) = some items' ∧ Kept items' ∧
      (Headed items → Headed items') ∧ (Call.set obj key value).Done items items' := by
  obtain ⟨hchild, hnext⟩ := value.item_links key
  obtain ⟨items', hset, hkept, hlength, hheaded', happended⟩ := setNew_spec h ho hhead hchild hnext
  exact ⟨items', (value.run_eq h ho key).trans hset, hkept, hheaded', hlength, happended⟩

/-- **The setter for other trees** links the tree in as the last child, if the last one is found. -/
theorem setObj_spec {items : List Item} (h : Kept items) {obj value : Nat} {o : Item}
    {key : Option (List UInt8)} (hvalid : (Call.setObj obj key value).Valid items)
    (ho : items[obj]? = some o) (hhead : o.child ≠ none → o.childHead ≠ none) :
    ∃ items', exec items (.setObj obj key value) = some items' ∧ Kept items' ∧
      (Headed items → Headed items') ∧ (Call.setObj obj key value).Done items items' := by
  obtain ⟨-, hdetached, hfar⟩ := hvalid
  obtain ⟨vt, hvt, -⟩ := hdetached.item
  obtain ⟨items', hset, hkept, hlength, hheaded', happended⟩ :=
    jsonSetPropertyObjN_spec h ho hhead hdetached hvt hfar key
  exact ⟨items', hset, hkept, hheaded', hlength, vt, hvt, happended⟩

/-- A setter that goes through has found a tail pointer, if there were children. -/
theorem linkLast_head {items items' : List Item} {obj v : Nat} {o : Item}
    (hs : linkLast obj v items = some items') (ho : items[obj]? = some o) :
    o.child ≠ none → o.childHead ≠ none := by
  intro hchild hhead
  obtain ⟨c, hc⟩ := Option.ne_none_iff_exists'.1 hchild
  rw [linkLast, ho] at hs
  simp [hc, hhead] at hs

/-- **Whatever call goes through**, the items are linked as trees. -/
theorem Kept.call {items items' : List Item} (h : Kept items) {call : Call}
    (hvalid : call.Valid items) (hs : exec items call = some items') : Kept items' := by
  cases call with
  | parse es => exact (parse_spec h hs).1
  | copy cx =>
    obtain ⟨items'', hexec, hkept, -⟩ := copy_spec h hvalid
    obtain rfl := Option.some.inj (hexec.symm.trans hs)
    exact hkept
  | new kind =>
    obtain rfl := Option.some.inj hs
    exact h.append rfl rfl
  | set obj key value =>
    have hlt : obj < items.length := hvalid
    have ho := List.getElem?_eq_getElem hlt
    have hrun : setNew obj (value.item key) items = some items' := (value.run_eq h ho key).symm.trans hs
    have hhead := linkLast_head hrun ((List.getElem?_append_left hlt).trans ho)
    obtain ⟨items'', hexec, hkept, -⟩ := set_spec h ho hhead key value
    obtain rfl := Option.some.inj (hexec.symm.trans hs)
    exact hkept
  | setObj obj key value =>
    have ho := List.getElem?_eq_getElem hvalid.1
    have hne : value ≠ obj := by
      rintro rfl
      exact hvalid.2.2 .refl
    have hhead := linkLast_head hs ((getElem?_stored _ ho).trans (by rw [if_neg hne]))
    obtain ⟨items'', hexec, hkept, -⟩ := setObj_spec h hvalid ho hhead
    obtain rfl := Option.some.inj (hexec.symm.trans hs)
    exact hkept

/-! ## Runs -/

/-- Where a tail pointer that is set is right, it is enough that it is set. -/
theorem Kept.tails_iff {items : List Item} (h : Kept items) : Tails items ↔ Headed items := by
  constructor
  · intro htails i it hit hchild
    obtain ⟨row, t, -, hhead⟩ := htails i it hit hchild
    simp [hhead]
  · intro hheaded i it hit hchild
    obtain ⟨t, ht⟩ := Option.ne_none_iff_exists'.1 (hheaded i it hit hchild)
    obtain ⟨row, hrow⟩ := h.tail i t it hit hchild ht
    exact ⟨row, t, hrow, ht⟩

/-- After parsing, the tail pointers are set exactly if no container that was parsed has members. -/
theorem parse_headed {items items' : List Item} (h : Kept items) (hheaded : Headed items)
    {es : List Event} (hs : exec items (.parse es) = some items') :
    Kept items' ∧ (Headed items' ↔ Memberless false es) := by
  obtain ⟨hkept, hsame, hmade, hflat⟩ := parse_spec h hs
  refine ⟨hkept, ?_⟩
  rw [← hflat]
  constructor
  · intro hheaded' k it hk hit
    by_contra hchild
    exact hheaded' k it hit hchild (hmade k it hk hit)
  · intro hflat k it hit hchild
    rcases Nat.lt_or_ge k items.length with hk | hk
    · rw [hsame k hk] at hit
      exact hheaded k it hit hchild
    · exact absurd (hflat k it hk hit) hchild

/-- **One call** returns and does what is asked, and the heads are right unless it parses members. -/
theorem call_spec {items : List Item} (h : Kept items) (hheaded : Headed items) {call : Call}
    (hvalid : call.Valid items) :
    ∃ items', exec items call = some items' ∧ Kept items' ∧ call.Done items items' ∧
      (Headed items' ↔ ∀ es, call = .parse es → Memberless false es) := by
  cases call with
  | parse es =>
    obtain ⟨s, hs⟩ := hvalid
    have hexec : exec items (.parse es) = some s.items := by
      rw [exec, hs]
      rfl
    obtain ⟨hkept, hiff⟩ := parse_headed h hheaded hexec
    exact ⟨s.items, hexec, hkept, trivial, by simpa using hiff⟩
  | copy cx =>
    obtain ⟨items', hexec, hkept, hheaded'⟩ := copy_spec h hvalid
    exact ⟨items', hexec, hkept, trivial, by simpa using hheaded' hheaded⟩
  | new kind =>
    refine ⟨_, rfl, h.append rfl rfl, trivial, ?_⟩
    refine iff_of_true ?_ (by simp)
    intro i it hit hchild
    rcases Nat.lt_or_ge i items.length with hi | hi
    · refine hheaded i it ?_ hchild
      rw [← hit]
      exact (List.getElem?_append_left hi).symm
    · have hmem : it ∈ [({ childType := kind.childType } : Item)] := by
        apply List.mem_of_getElem?
        exact (List.getElem?_append_right hi).symm.trans hit
      obtain rfl := List.mem_singleton.1 hmem
      exact absurd rfl hchild
  | set obj key value =>
    have ho := List.getElem?_eq_getElem (show obj < items.length from hvalid)
    obtain ⟨items', hexec, hkept, hheaded', hdone⟩ := set_spec h ho (hheaded obj _ ho) key value
    exact ⟨items', hexec, hkept, hdone, by simpa using hheaded' hheaded⟩
  | setObj obj key value =>
    have ho := List.getElem?_eq_getElem hvalid.1
    obtain ⟨items', hexec, hkept, hheaded', hdone⟩ := setObj_spec h hvalid ho (hheaded obj _ ho)
    exact ⟨items', hexec, hkept, hdone, by simpa using hheaded' hheaded⟩

/-- A run from a memory with tail pointers. -/
theorem extends_from {items : List Item} (h : Kept items) (hheaded : Headed items)
    {calls : List Call} (hcontract : Contract items calls) :
    Extends items calls ↔ ∀ es, .parse es ∈ calls → Memberless false es := by
  induction calls generalizing items with
  | nil => exact iff_of_true (h.tails_iff.2 hheaded) (by simp)
  | cons call calls ih =>
    obtain ⟨hvalid, hrest⟩ := hcontract
    obtain ⟨items', hexec, hkept', hdone, hiff⟩ := call_spec h hheaded hvalid
    constructor
    · rintro ⟨-, items'', hexec', -, hextends⟩ es hes
      obtain rfl := Option.some.inj (hexec.symm.trans hexec')
      have htails : Tails items' := by
        cases calls with
        | nil => exact hextends
        | cons call' calls => exact hextends.1
      have hheaded' := hkept'.tails_iff.1 htails
      rcases List.mem_cons.1 hes with heq | hes
      · exact hiff.1 hheaded' es heq.symm
      · exact (ih hkept' hheaded' (hrest items' hexec)).1 hextends es hes
    · intro hall
      have hheaded' := hiff.2 fun es hes => hall es (hes ▸ List.mem_cons_self ..)
      refine ⟨h.tails_iff.2 hheaded, items', hexec, hdone, ?_⟩
      exact (ih hkept' hheaded' (hrest items' hexec)).2 fun es hes =>
        hall es (List.mem_cons_of_mem _ hes)

/-- **Trees can be extended** exactly as long as no container with members is parsed: the callback
sets no tail pointer, and the setters that append to such a container follow it. -/
theorem extends_iff {calls : List Call} (hcontract : Contract [] calls) :
    Extends [] calls ↔ ∀ es, .parse es ∈ calls → Memberless false es := by
  refine extends_from kept_nil ?_ hcontract
  intro i it hit
  exact absurd hit (by simp)

/-- The memory of a run of valid calls that all went through. -/
def Reached (items : List Item) : Prop :=
  ∃ calls, Contract [] calls ∧ calls.foldlM exec [] = some items

/-- **Whatever a run has built**, with parsed containers or without, is linked as trees. -/
theorem Reached.kept {items : List Item} (h : Reached items) : Kept items := by
  obtain ⟨calls, hcontract, hrun⟩ := h
  have hall : ∀ start : List Item, Kept start → Contract start calls →
      calls.foldlM exec start = some items → Kept items := by
    clear hcontract hrun
    induction calls with
    | nil =>
      intro start hstart _ hrun
      obtain rfl := Option.some.inj hrun
      exact hstart
    | cons call calls ih =>
      intro start hstart hcontract hrun
      rw [List.foldlM_cons] at hrun
      obtain ⟨next, hexec, hrest⟩ := Option.bind_eq_some_iff.1 hrun
      exact ih next (hstart.call hcontract.1 hexec) (hcontract.2 next hexec) hrest
  exact hall [] kept_nil hcontract hrun

/-- `[]`, which is put into a new object and gets a member there; then the object is copied. -/
def nestedCalls : List Call :=
  [.parse [.containerBegin .array, .containerEnd .array], .new .object, .setObj 1 (some [107]) 0,
    .set 0 none .null, .copy (some 1)]

/-- The run with a nested document extends as it should exactly if what it parses is memberless. -/
theorem extends_nested :
    Extends [] nestedCalls ↔ ∀ es, .parse es ∈ nestedCalls → Memberless false es := by
  apply extends_iff
  have hlink : ∀ i j, ¬ Link [{ childType := .arr }, { childType := .obj }] i j := by
    rintro i j ⟨it, hit, hj⟩
    rcases i with _ | _ | i
    · obtain rfl := Option.some.inj hit
      exact absurd hj (by simp)
    · obtain rfl := Option.some.inj hit
      exact absurd hj (by simp)
    · exact absurd hit (by simp)
  refine ⟨⟨_, rfl⟩, ?_⟩
  rintro _ ⟨⟩
  refine ⟨trivial, ?_⟩
  rintro _ ⟨⟩
  refine ⟨⟨Nat.lt_add_one 1, ⟨⟨_, rfl, rfl, rfl⟩, fun i => hlink i 0⟩, ?_⟩, ?_⟩
  · intro hreach
    exact absurd (hreach.eq_of_leaf rfl rfl rfl) (by decide)
  rintro _ ⟨⟩
  refine ⟨Nat.succ_pos 1, ?_⟩
  rintro _ ⟨⟩
  refine ⟨?_, fun _ _ => trivial⟩
  rintro _ ⟨⟩
  exact Nat.lt_add_of_pos_right (Nat.succ_pos 1)

/-- `[1]`, and one more element for it. -/
def parsedCalls : List Call :=
  [.parse [.containerBegin .array, .value (.integer 1), .containerEnd .array], .set 0 none .null]

/-- `json_set_element_null` follows the null pointer that the parsed array has as its tail. -/
theorem parsed_not_extends : Contract [] parsedCalls ∧ ¬ Extends [] parsedCalls := by
  have hparse : exec [] (.parse [.containerBegin .array, .value (.integer 1), .containerEnd .array]) =
      some [{ child := some 1, childType := .arr },
        { father := some 0, integer := 1, type := some .integer }] := by decide
  constructor
  · refine ⟨⟨_, rfl⟩, ?_⟩
    intro items' hitems'
    obtain rfl := Option.some.inj (hparse.symm.trans hitems')
    exact ⟨Nat.succ_pos 1, fun _ _ => trivial⟩
  · rintro ⟨-, items', hitems', -, -, items'', hset, -⟩
    obtain rfl := Option.some.inj (hparse.symm.trans hitems')
    have hnull : exec [{ child := some 1, childType := .arr },
        { father := some 0, integer := 1, type := some .integer }] (.set 0 none .null) = none := by
      decide
    exact absurd (hnull.symm.trans hset) (by simp)

end Ape.Json
