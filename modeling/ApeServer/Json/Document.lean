import ApeServer.Json.Item

/-!
# Documents and the trees they become

A document is a container: a list of members, each a scalar or a container again.  Reading it gives
events; the callback makes of them a tree whose items lie in memory in the order of the text.

* `Members` — the members of an object or of an array, in order;
* `Members.events` — what the parser tells the callback of them;
* `Members.Mirrored` — a list of items spells out these members;
* `Members.layout` — the items, as the callback lays them out;
* `run_members` — **the callback lays the members out**;
* `build_document` — **the tree of a document mirrors it, and no prefix of its events loses an
  item**.
-/

namespace Ape.Json

/-! ## Documents -/

/-- What stands in front of a member: a key in an object, nothing in an array. -/
def Kind.Label : Kind → Type
  | .object => List UInt8
  | .array => Unit

/-- The members of a container, in order. -/
inductive Members : Kind → Type
  | nil {kind : Kind} : Members kind
  | scalar {kind : Kind} (label : kind.Label) (value : Scalar) (rest : Members kind) : Members kind
  | nest {kind : Kind} (label : kind.Label) (inner : Kind) (members : Members inner)
      (rest : Members kind) : Members kind

/-- The key of a member. -/
def Kind.key : (kind : Kind) → kind.Label → Option (List UInt8)
  | .object, key => some key
  | .array, _ => none

/-- The event in front of a member. -/
def Kind.labelEvents (kind : Kind) (label : kind.Label) : List Event :=
  ((kind.key label).map Event.key).toList

/-- The item of a scalar. -/
def scalarItem (father : Nat) (key : Option (List UInt8)) (value : Scalar) (next : Option Nat) :
    Item :=
  Item.setValue value { father := some father, next, key }

theorem scalarItem_next (father : Nat) (key : Option (List UInt8)) (value : Scalar)
    (next next' : Option Nat) :
    { scalarItem father key value next with next := next' } = scalarItem father key value next' := by
  cases value <;> rfl

/-- The item of a container. -/
def containerItem (father : Option Nat) (key : Option (List UInt8)) (kind : Kind)
    (child next : Option Nat) : Item :=
  { father, child, childType := kind.childType, next, key }

namespace Members

/-- The events of the members of a container. -/
def events : {kind : Kind} → Members kind → List Event
  | _, nil => []
  | kind, scalar label value rest => kind.labelEvents label ++ .value value :: rest.events
  | kind, nest label inner members rest =>
    kind.labelEvents label ++ .containerBegin inner ::
      (members.events ++ .containerEnd inner :: rest.events)

/-- The number of members, those of inner containers too. -/
def size : {kind : Kind} → Members kind → Nat
  | _, nil => 0
  | _, scalar _ _ rest => 1 + rest.size
  | _, nest _ _ members rest => 1 + members.size + rest.size

/-- The items at `p`, one behind the other, spell out the members of the container at `father`. -/
def Mirrored (items : List Item) (father : Nat) :
    {kind : Kind} → Members kind → Option Nat → Prop
  | _, nil, p => p = none
  | kind, scalar label value rest, p => ∃ i next, p = some i ∧
      items[i]? = some (scalarItem father (kind.key label) value next) ∧
      rest.Mirrored items father next
  | kind, nest label inner members rest, p => ∃ i child next, p = some i ∧
      items[i]? = some (containerItem (some father) (kind.key label) inner child next) ∧
      members.Mirrored items i child ∧ rest.Mirrored items father next

/-! ## Where the items lie -/

/-- The pointer to the first of these members, if they lie from `i` on. -/
def first : {kind : Kind} → Members kind → Nat → Option Nat
  | _, nil, _ => none
  | _, scalar .., i => some i
  | _, nest .., i => some i

/-- The items of the members of the container at `father`, from item `i` on. -/
def layout (father : Nat) : {kind : Kind} → Members kind → Nat → List Item
  | _, nil, _ => []
  | kind, scalar label value rest, i =>
    scalarItem father (kind.key label) value (rest.first (i + 1)) :: rest.layout father (i + 1)
  | kind, nest label inner members rest, i =>
    containerItem (some father) (kind.key label) inner (members.first (i + 1))
        (rest.first (i + 1 + members.size)) ::
      (members.layout i (i + 1) ++ rest.layout father (i + 1 + members.size))

theorem length_layout {kind : Kind} (m : Members kind) (father i : Nat) :
    (m.layout father i).length = m.size := by
  induction m generalizing father i with
  | nil => rfl
  | scalar label value rest ih =>
    simp only [layout, size, List.length_cons, ih]
    omega
  | nest label inner members rest ihm ihr =>
    simp only [layout, size, List.length_cons, List.length_append, ihm, ihr]
    omega

/-- A list of items that holds the layout of some members spells them out. -/
theorem mirrored_layout {kind : Kind} (m : Members kind) (father : Nat) (pre post : List Item) :
    m.Mirrored (pre ++ (m.layout father pre.length ++ post)) father (m.first pre.length) := by
  have hat : ∀ (it : Item) (pre tail : List Item), (pre ++ it :: tail)[pre.length]? = some it := by
    intro it pre tail
    simp
  induction m generalizing father pre post with
  | nil => rfl
  | @scalar kind label value rest ih =>
    refine ⟨pre.length, _, rfl, hat _ _ _, ?_⟩
    have hrest := ih father (pre ++ [scalarItem father (kind.key label) value
      (rest.first (pre.length + 1))]) post
    simpa [layout] using hrest
  | @nest kind label inner members rest ihm ihr =>
    let it := containerItem (some father) (kind.key label) inner (members.first (pre.length + 1))
      (rest.first (pre.length + 1 + members.size))
    refine ⟨pre.length, _, _, rfl, hat _ _ _, ?_, ?_⟩
    · have hm := ihm pre.length (pre ++ [it])
        (rest.layout father (pre.length + 1 + members.size) ++ post)
      simpa [layout] using hm
    · have hr := ihr father (pre ++ it :: members.layout pre.length (pre.length + 1)) post
      simpa [layout, length_layout, Nat.add_assoc, Nat.add_comm 1, it] using hr

theorem first_of_ne_nil {kind : Kind} {m : Members kind} (hm : m ≠ nil) (i : Nat) :
    m.first i = some i := by
  cases m with
  | nil => exact absurd rfl hm
  | scalar label value rest => rfl
  | nest label inner members rest => rfl

/-! ## The callback lays the members out -/

/-- The next item will be the last in `items`, below `father`. -/
def Hangs (s : Context) (pre : List Item) (father : Nat) : Prop :=
  s.keyUnder = false ∧ s.head = some 0 ∧
    s.hang = some { s with
      items := pre ++ [{ father := some father }], currentCx := some pre.length }

/-- The context with the last item at hand. -/
def between (pre : List Item) (it : Item) (tail : List Item) : Context :=
  ⟨pre ++ it :: tail, false, false, some 0, some pre.length⟩

theorem modify_length_append (pre : List Item) (it : Item) (tail : List Item) (f : Item → Item) :
    (pre ++ it :: tail).modify pre.length f = pre ++ f it :: tail := by
  induction pre with
  | nil => rfl
  | cons x pre ih => simpa using ih

theorem getElem?_length_append (pre : List Item) (it : Item) (tail : List Item) :
    (pre ++ it :: tail)[pre.length]? = some it := by
  simp

/-- A member and the row behind it hang in the same container. -/
theorem hangs_between (pre : List Item) (it : Item) (tail : List Item) (father : Nat)
    (hfather : it.father = some father) :
    Hangs (between pre it tail)
      (pre ++ { it with next := some (pre.length + 1 + tail.length) } :: tail) father := by
  refine ⟨rfl, rfl, ?_⟩
  unfold Context.hang between
  simp only [bind, Option.bind_some, getElem?_length_append, modify_length_append, hfather]
  simp [Nat.add_assoc, Nat.add_comm 1]

/-- In a container that has just been opened. -/
theorem hangs_opened (pre : List Item) (it : Item) :
    Hangs ⟨pre ++ [it], false, true, some 0, some pre.length⟩
      (pre ++ [{ it with child := some (pre.length + 1) }]) pre.length := by
  refine ⟨rfl, rfl, ?_⟩
  unfold Context.hang
  simp only [bind, Option.bind_some, getElem?_length_append, modify_length_append]
  simp

/-- The context in which the value of a member is read, when its item has been allocated for its
key. -/
def labelled (pre : List Item) (father : Nat) (key : Option (List UInt8)) : Context :=
  ⟨pre ++ [{ father := some father, key }], true, false, some 0, some pre.length⟩

theorem jsonCallback_key {s : Context} {pre : List Item} {father : Nat} (h : Hangs s pre father)
    (key : List UInt8) :
    jsonCallback s (.key key) = some (labelled pre father (some key)) := by
  obtain ⟨-, hhead, hhang⟩ := h
  simp [jsonCallback, onKey, hhang, Context.setCurrent, hhead, labelled, modify_length_append]

/-- Without a key the value allocates the item itself. -/
theorem jsonCallback_unlabelled {s : Context} {pre : List Item} {father : Nat}
    (h : Hangs s pre father) {e : Event} (he : (∃ v, e = .value v) ∨ ∃ k, e = .containerBegin k) :
    jsonCallback s e = jsonCallback (labelled pre father none) e := by
  obtain ⟨hkey, hhead, hhang⟩ := h
  have hcurrent : s.currentCx ≠ none := by
    intro hnone
    simp [Context.hang, hnone] at hhang
  rcases he with ⟨v, rfl⟩ | ⟨k, rfl⟩
  · simp [jsonCallback, onValue, hkey, hhang, hhead, labelled]
  · simp [jsonCallback, onBegin, hkey, hhang, hhead, hcurrent, labelled, Context.setCurrent]

theorem jsonCallback_value (pre : List Item) (father : Nat) (key : Option (List UInt8))
    (value : Scalar) : jsonCallback (labelled pre father key) (.value value) =
      some (between pre (scalarItem father key value none) []) := by
  simp [jsonCallback, onValue, labelled, Context.setCurrent, modify_length_append, scalarItem,
    between]

theorem jsonCallback_begin (pre : List Item) (father : Nat) (key : Option (List UInt8))
    (inner : Kind) : jsonCallback (labelled pre father key) (.containerBegin inner) =
      some ⟨pre ++ [containerItem (some father) key inner none none], false, true, some 0,
        some pre.length⟩ := by
  simp [jsonCallback, onBegin, labelled, Context.setCurrent, modify_length_append, containerItem]

/-- The label of a member and what follows it. -/
theorem run_label {s : Context} {pre : List Item} {father : Nat} (h : Hangs s pre father)
    {kind : Kind} (label : kind.Label) {e : Event} {s' : Context}
    (he : (∃ v, e = .value v) ∨ ∃ k, e = .containerBegin k)
    (hs : jsonCallback (labelled pre father (kind.key label)) e = some s') (es : List Event) :
    (kind.labelEvents label ++ e :: es).foldlM jsonCallback s = es.foldlM jsonCallback s' := by
  cases kind with
  | object =>
    have hkey := jsonCallback_key h label
    have hlabel : Kind.object.labelEvents label = [.key label] := rfl
    rw [hlabel, List.singleton_append, List.foldlM_cons, hkey]
    change (List.foldlM jsonCallback (labelled pre father (Kind.object.key label)) (e :: es)) = _
    rw [List.foldlM_cons, hs]
    rfl
  | array =>
    have hlabel : Kind.array.labelEvents label = [] := rfl
    rw [hlabel, List.nil_append, List.foldlM_cons, jsonCallback_unlabelled h he]
    change (jsonCallback (labelled pre father (Kind.array.key label)) e).bind _ = _
    rw [hs]
    rfl

/-- The events of these members, where the next item is hung below `father`, lay them out. -/
def Runs {kind : Kind} (m : Members kind) : Prop :=
  ∀ (s : Context) (pre : List Item) (father : Nat), Hangs s pre father → m ≠ nil →
    ∃ c it, m.events.foldlM jsonCallback s =
        some ⟨pre ++ m.layout father pre.length, false, false, some 0, some c⟩ ∧
      (pre ++ m.layout father pre.length)[c]? = some it ∧ it.father = some father

/-- The members behind one that has been read. -/
theorem Runs.behind {kind : Kind} {rest : Members kind} (h : rest.Runs) (pre : List Item)
    (it : Item) (tail : List Item) {father : Nat} (hfather : it.father = some father)
    (hnext : it.next = none) :
    ∃ c it', rest.events.foldlM jsonCallback (between pre it tail) =
        some ⟨pre ++ { it with next := rest.first (pre.length + 1 + tail.length) } ::
          (tail ++ rest.layout father (pre.length + 1 + tail.length)), false, false, some 0,
          some c⟩ ∧
      (pre ++ { it with next := rest.first (pre.length + 1 + tail.length) } ::
        (tail ++ rest.layout father (pre.length + 1 + tail.length)))[c]? = some it' ∧
      it'.father = some father := by
  by_cases hrest : rest = nil
  · subst hrest
    refine ⟨pre.length, it, ?_, ?_, hfather⟩
    · simp [events, first, layout, between, ← hnext]
    · simp [first, layout, ← hnext]
  · have hrun := h _ _ _ (hangs_between pre it tail father hfather) hrest
    rw [first_of_ne_nil hrest]
    simpa [Nat.add_assoc, Nat.add_comm 1] using hrun

/-- The members of a container that has just been opened, and its end. -/
theorem Runs.inside {inner : Kind} {m : Members inner} (h : m.Runs) (pre : List Item) (it : Item)
    (hchild : it.child = none) (es : List Event) :
    (m.events ++ .containerEnd inner :: es).foldlM jsonCallback
        ⟨pre ++ [it], false, true, some 0, some pre.length⟩ =
      es.foldlM jsonCallback (between pre { it with child := m.first (pre.length + 1) }
        (m.layout pre.length (pre.length + 1))) := by
  rw [List.foldlM_append]
  by_cases hm : m = nil
  · subst hm
    simp [events, first, layout, jsonCallback, onEnd, between, ← hchild]
  · obtain ⟨c, it', hrun, hc, hfather⟩ := h _ _ _ (hangs_opened pre it) hm
    rw [hrun, first_of_ne_nil hm]
    simp only [bind, Option.bind_some, List.foldlM_cons, jsonCallback, onEnd, hc, hfather]
    simp [between]

/-- **The callback lays the members out.** -/
theorem run_members {kind : Kind} (m : Members kind) : m.Runs := by
  induction m with
  | nil =>
    intro s pre father _ hnil
    exact absurd rfl hnil
  | @scalar kind label value rest ih =>
    intro s pre father hhang _
    have hlabel := run_label hhang label (.inl ⟨value, rfl⟩)
      (jsonCallback_value pre father (kind.key label) value) rest.events
    have hlinks := setValue_links value { father := some father, key := kind.key label }
    obtain ⟨c, it, hrun, hc, hfather⟩ := ih.behind pre (scalarItem father (kind.key label) value none)
      [] hlinks.2.2 hlinks.2.1
    rw [scalarItem_next] at hrun hc
    exact ⟨c, it, hlabel.trans hrun, hc, hfather⟩
  | @nest kind label inner members rest ihm ihr =>
    intro s pre father hhang _
    have hlabel := run_label hhang label (.inr ⟨inner, rfl⟩)
      (jsonCallback_begin pre father (kind.key label) inner)
      (members.events ++ .containerEnd inner :: rest.events)
    have hinside := ihm.inside pre (containerItem (some father) (kind.key label) inner none none) rfl
      rest.events
    obtain ⟨c, it, hrun, hc, hfather⟩ := ihr.behind pre
      (containerItem (some father) (kind.key label) inner (members.first (pre.length + 1)) none)
      (members.layout pre.length (pre.length + 1)) rfl rfl
    rw [length_layout] at hrun hc
    exact ⟨c, it, (hlabel.trans hinside).trans hrun, hc, hfather⟩

end Members

/-! ## The tree of a document -/

/-- The events of a whole document. -/
def documentEvents {kind : Kind} (m : Members kind) : List Event :=
  .containerBegin kind :: (m.events ++ [.containerEnd kind])

/-- The items of a whole document. -/
def documentItems {kind : Kind} (m : Members kind) : List Item :=
  containerItem none none kind (m.first 1) none :: m.layout 0 1

/-- The tree at the head spells out the document: its first item is a container without father,
sibling or key. -/
def Mirrors (s : Context) {kind : Kind} (m : Members kind) : Prop :=
  ∃ i child, s.head = some i ∧ s.items[i]? = some (containerItem none none kind child none) ∧
    m.Mirrored s.items i child

/-- The callback's work for a document. -/
theorem build_documentEvents {kind : Kind} (m : Members kind) :
    build (documentEvents m) = some ⟨documentItems m, false, false, some 0, some 0⟩ := by
  have hroot : jsonCallback {} (.containerBegin kind) =
      some ⟨[] ++ [containerItem none none kind none none], false, true, some 0, some 0⟩ := rfl
  have hinside := m.run_members.inside [] (containerItem none none kind none none) rfl []
  unfold build documentEvents
  rw [List.foldlM_cons, hroot]
  exact hinside

theorem mirrors_documentItems {kind : Kind} (m : Members kind) (keyUnder startDepth : Bool)
    (current : Option Nat) :
    Mirrors ⟨documentItems m, keyUnder, startDepth, some 0, current⟩ m := by
  have hmirrored := m.mirrored_layout 0 [containerItem none none kind (m.first 1) none] []
  rw [List.append_nil] at hmirrored
  exact ⟨0, m.first 1, rfl, rfl, hmirrored⟩

/-- **The callback builds the document**: from an empty context, the events of a document leave a
tree at the head that mirrors it, with one item for the document and one for each member, all of
them found from the head; and after any beginning of the events every item is found. -/
theorem build_document {kind : Kind} (m : Members kind) :
    ∃ s, build (documentEvents m) = some s ∧ Mirrors s m ∧ s.items.length = 1 + m.size ∧
      (∀ j < s.items.length, ∃ i, s.head = some i ∧ Reach s.items i j) ∧
      ∀ es, es <+: documentEvents m → ∃ s', build es = some s' ∧
        ∀ j < s'.items.length, ∃ i, s'.head = some i ∧ Reach s'.items i j := by
  have hbuild := build_documentEvents m
  refine ⟨_, hbuild, mirrors_documentItems m _ _ _, ?_, build_reach hbuild, ?_⟩
  · simp [documentItems, Members.length_layout, Nat.add_comm 1]
  · rintro es ⟨rest, hrest⟩
    rw [← hrest, build, List.foldlM_append] at hbuild
    obtain ⟨s', hs', -⟩ := Option.bind_eq_some_iff.1 hbuild
    exact ⟨s', hs', build_reach hs'⟩

end Ape.Json
