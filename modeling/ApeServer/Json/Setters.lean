import ApeServer.Json.Heap
import ApeServer.Json.Property

/-!
# Trees built by hand

`json_new_object` and `json_new_array` make a container, and the setters append to one: a new item
with a value, or the root of another tree.  Each of them ends with the same lines, that go by the
tail pointer `jchild.head` to the last child.

* `linkLast` — the lines that append;
* `jsonSetPropertyStrN`, … — the setters of `ape_json.c`;
* `Appended` — one item has been appended to the children of another;
* `linkLast_spec` — **an item is appended** where the tail pointer is right.
-/

namespace Ape.Json

/-! ## The functions -/

/-- `json_new_object` and `json_new_array` where there are other items: the items, and the new
one. -/
def jsonNewContainer (kind : Kind) (items : List Item) : List Item × Nat :=
  (items ++ [{ childType := kind.childType }], items.length)

theorem jsonNewContainer_nil : jsonNewContainer .object [] = (jsonNewObject, 0) := rfl

/-- The end of every setter: the item `v` becomes the only child, or the next one behind the item the
tail pointer points to, and then the tail pointer points to it. -/
def linkLast (obj v : Nat) (items : List Item) : Option (List Item) := do
  let o ← items[obj]?
  match o.child with
  | none =>
    some ((items.modify obj fun it => { it with child := some v }).modify obj
      fun it => { it with childHead := some v })
  | some _ =>
    let t ← o.childHead
    let _ ← items[t]?
    some ((items.modify t fun it => { it with next := some v }).modify obj
      fun it => { it with childHead := some v })

/-- The setters that make an item: it is allocated with its key, its value and its father. -/
def setNew (obj : Nat) (new : Item) (items : List Item) : Option (List Item) :=
  linkLast obj items.length (items ++ [{ new with father := some obj }])

/-- A C string ends with its first zero. -/
def cString (s : List UInt8) : List UInt8 := s.takeWhile (· ≠ 0)

/-- `json_set_property_strN` is such a setter, if no pointer dangles. -/
theorem jsonSetPropertyStrN_eq_setNew {items : List Item} {obj : Nat} {o : Item}
    (ho : items[obj]? = some o)
    (hhead : o.child ≠ none → ∀ t, o.childHead = some t → t < items.length) (key : Option (List UInt8)) (value : List UInt8) :
    jsonSetPropertyStrN obj key value items =
      setNew obj { key, str := some value, type := some .string } items := by
  have hlt := (List.getElem?_eq_some_iff.1 ho).1
  unfold jsonSetPropertyStrN setNew linkLast
  rw [List.getElem?_append_left hlt, ho]
  simp only [bind, Option.bind_some]
  cases hchild : o.child with
  | none =>
    simp only [if_true]
    rw [modify_append_left hlt, modify_append_left (by simpa using hlt)]
  | some c =>
    simp only [reduceCtorEq, if_false]
    cases ht : o.childHead with
    | none => rfl
    | some t =>
      have htlt := hhead (by simp [hchild]) t ht
      simp only [Option.map_some, Option.bind_some]
      rw [List.getElem?_append_left htlt, List.getElem?_eq_getElem htlt, modify_append_left htlt,
        Option.bind_some, modify_append_left (by simpa using hlt)]

/-- `json_set_property_strZ`. -/
def jsonSetPropertyStrZ (obj : Nat) (key : Option (List UInt8)) (value : List UInt8) :=
  jsonSetPropertyStrN obj (key.map cString) (cString value)

/-- `json_set_property_intN`. -/
def jsonSetPropertyIntN (obj : Nat) (key : Option (List UInt8)) (value : Int64) :=
  setNew obj { key, integer := value, type := some .integer }

/-- `json_set_property_intZ`. -/
def jsonSetPropertyIntZ (obj : Nat) (key : Option (List UInt8)) (value : Int64) :=
  jsonSetPropertyIntN obj (key.map cString) value

/-- `json_set_property_floatN`. -/
def jsonSetPropertyFloatN (obj : Nat) (key : Option (List UInt8)) (value : UInt64) :=
  setNew obj { key, float := value, type := some .float }

/-- `json_set_property_boolean`. -/
def jsonSetPropertyBoolean (obj : Nat) (key : Option (List UInt8)) (value : Int32) :=
  setNew obj { key, type := some (if value ≠ 0 then .true else .false) }

/-- `json_set_property_null`. -/
def jsonSetPropertyNull (obj : Nat) (key : Option (List UInt8)) :=
  setNew obj { key, type := some .null }

/-- `json_set_property_objN`: the root of another tree gets the key, if there is one, and the
father. -/
def jsonSetPropertyObjN (obj : Nat) (key : Option (List UInt8)) (value : Nat) (items : List Item) :
    Option (List Item) :=
  linkLast obj value (items.modify value fun it => { it with key := key.or it.key, father := some obj })

/-- `json_set_property_objZ`. -/
def jsonSetPropertyObjZ (obj : Nat) (key : List UInt8) (value : Nat) :=
  jsonSetPropertyObjN obj (some (cString key)) value

/-- `json_set_element_strN`. -/
def jsonSetElementStrN (obj : Nat) (value : List UInt8) := jsonSetPropertyStrN obj none value

/-- `json_set_element_strZ`. -/
def jsonSetElementStrZ (obj : Nat) (value : List UInt8) := jsonSetPropertyStrZ obj none value

/-- `json_set_element_obj`. -/
def jsonSetElementObj (obj value : Nat) := jsonSetPropertyObjN obj none value

/-- `json_set_element_int`. -/
def jsonSetElementInt (obj : Nat) (value : Int64) := jsonSetPropertyIntN obj none value

/-- `json_set_element_float`. -/
def jsonSetElementFloat (obj : Nat) (value : UInt64) := jsonSetPropertyFloatN obj none value

/-- `json_set_element_boolean`. -/
def jsonSetElementBoolean (obj : Nat) (value : Int32) := jsonSetPropertyBoolean obj none value

/-- `json_set_element_null`. -/
def jsonSetElementNull (obj : Nat) := jsonSetPropertyNull obj none

/-! ## What they do -/

/-- The item `v` has been put behind the children of `obj`: `obj` points to the same first child, if
it had one, and to `v` as the last one, and every other item is what it was, except that the child
that was the last one is linked to `v`. -/
def Linked (items items' : List Item) (obj v : Nat) : Prop :=
  ∃ (row : List Nat) (o : Item), items[obj]? = some o ∧ Row items o.child row ∧
    items'[obj]? = some { o with child := some (o.child.getD v), childHead := some v } ∧
    Row items' (some (o.child.getD v)) (row ++ [v]) ∧
    ∀ (k : Nat) (it : Item), items[k]? = some it → k ≠ obj →
      ∃ next, items'[k]? = some { it with next } ∧ (row.getLast? ≠ some k → next = it.next)

/-- A setter has appended the item `v` to the children of `obj`, and it is now `vt`; as before, the
other items are what they were. -/
def Appended (items items' : List Item) (obj v : Nat) (vt : Item) : Prop :=
  ∃ (row : List Nat) (o : Item), items[obj]? = some o ∧ Row items o.child row ∧
    items'[obj]? = some { o with child := some (o.child.getD v), childHead := some v } ∧
    Row items' (some (o.child.getD v)) (row ++ [v]) ∧ items'[v]? = some vt ∧
    ∀ (k : Nat) (it : Item), items[k]? = some it → k ≠ obj → k ≠ v →
      ∃ next, items'[k]? = some { it with next } ∧ (row.getLast? ≠ some k → next = it.next)

/-- The tail pointer is no link. -/
theorem reach_clear {items : List Item} {x i j : Nat}
    (h : Reach (items.modify x fun it => { it with childHead := none }) i j) : Reach items i j := by
  refine Relation.ReflTransGen.mono ?_ _ _ h
  rintro a b ⟨it', hit', hb⟩
  obtain ⟨it, hit, rfl⟩ := getElem?_store x _ hit'
  refine ⟨it, hit, ?_⟩
  split at hb <;> exact hb

/-- An item without links finds nothing but itself. -/
theorem Reach.eq_of_leaf {items : List Item} {v x : Nat} {vt : Item} (hreach : Reach items v x)
    (hv : items[v]? = some vt) (hchild : vt.child = none) (hnext : vt.next = none) : x = v := by
  rcases Relation.ReflTransGen.cases_head hreach with rfl | ⟨b, ⟨it, hit, hb⟩, -⟩
  · rfl
  · obtain rfl := Option.some.inj (hv.symm.trans hit)
    rw [hchild, hnext] at hb
    exact absurd hb (by simp)

section

variable {items : List Item} (h : Kept items) {obj v : Nat} {o vt : Item}
  (ho : items[obj]? = some o) (hv : items[v]? = some vt) (hfather : vt.father = some obj)
  (hnext : vt.next = none)

include h ho hv hfather hnext

/-- **The only child** of an item without children is linked at its head. -/
theorem linkLast_first (hchild : o.child = none) (hfar : ¬ Reach items v obj) :
    ∃ items', linkLast obj v items = some items' ∧ Kept items' ∧ Linked items items' obj v := by
  have hne : obj ≠ v := by
    rintro rfl
    exact hfar .refl
  have hclear : Kept (items.modify obj fun it => { it with childHead := none }) :=
    h.relabel (fun it => ⟨rfl, rfl, .inr rfl⟩) (.inl fun it => rfl)
  have hv₀ : (items.modify obj fun it => { it with childHead := none })[v]? = some vt := by
    rw [getElem?_stored _ hv, if_neg hne]
  have ho₀ : (items.modify obj fun it => { it with childHead := none })[obj]? =
      some { o with childHead := none } := by
    rw [getElem?_stored _ ho, if_pos rfl]
  have hlinked := hclear.linkChild ho₀ rfl hv₀ hfather fun hreach => hfar (reach_clear hreach)
  have hcompose : ((items.modify obj fun it => { it with childHead := none }).modify obj
      fun it => { it with child := some v }).modify obj (fun it => { it with childHead := some v }) =
      (items.modify obj fun it => { it with child := some v }).modify obj
        fun it => { it with childHead := some v } := by
    simp only [List.modify_modify_eq]
    rfl
  have hkept : Kept ((items.modify obj fun it => { it with child := some v }).modify obj
      fun it => { it with childHead := some v }) := by
    rw [← hcompose]
    apply hlinked.setHead
    intro it hit
    obtain ⟨it, hit, rfl⟩ := getElem?_store _ _ hit
    refine ⟨[], ?_⟩
    rw [if_pos rfl]
    refine ⟨rfl, vt, ?_, hnext⟩
    change (List.modify _ _ _)[v]? = _
    rw [getElem?_stored _ hv₀, if_neg hne]
  refine ⟨_, ?_, hkept, [], o, ho, hchild, ?_, ?_, ?_⟩
  · rw [linkLast, ho]
    simp only [bind, Option.bind_some, hchild]
  · rw [getElem?_stored _ (getElem?_stored _ ho), if_pos rfl, if_pos rfl, hchild]
    rfl
  · rw [hchild]
    refine ⟨rfl, vt, ?_, hnext⟩
    change (List.modify _ _ _)[v]? = _
    rw [getElem?_stored _ (getElem?_stored _ hv), if_neg hne, if_neg hne]
  · intro k it hit hk
    refine ⟨it.next, ?_, fun _ => rfl⟩
    rw [getElem?_stored _ (getElem?_stored _ hit), if_neg hk.symm, if_neg hk.symm]

/-- **The next child** is linked behind the last one of the row. -/
theorem linkLast_next {row : List Nat} {t : Nat} (hrow : Row items o.child (row ++ [t]))
    (hhead : o.childHead = some t) (hfar : ∀ x, x = obj ∨ x ∈ row ++ [t] → ¬ Reach items v x) :
    ∃ items', linkLast obj v items = some items' ∧ Kept items' ∧ Linked items items' obj v := by
  have hne : obj ≠ v := by
    rintro rfl
    exact hfar obj (.inl rfl) .refl
  have htmem : t ∈ row ++ [t] := List.mem_append_right _ (List.mem_singleton_self t)
  have htv : t ≠ v := by
    rintro rfl
    exact hfar t (.inr htmem) .refl
  obtain ⟨tt, htt, htfather⟩ := h.children_father ho hrow htmem
  obtain ⟨j, hj⟩ : ∃ j, o.child = some j := by
    cases hchild : o.child with
    | some j => exact ⟨j, rfl⟩
    | none =>
      rw [hchild] at hrow
      cases row with
      | nil => exact absurd hrow.1 (by simp)
      | cons k row => exact absurd hrow.1 (by simp)
  have hot : obj ≠ t := by
    rintro rfl
    refine (h.grounded obj).not_cycle (Relation.TransGen.head'_iff.2 ⟨j, ⟨o, ho, .inl hj⟩, ?_⟩)
    exact Row.reach hrow hj htmem
  have hclear : Kept (items.modify obj fun it => { it with childHead := none }) :=
    h.relabel (fun it => ⟨rfl, rfl, .inr rfl⟩) (.inl fun it => rfl)
  have hv₀ : (items.modify obj fun it => { it with childHead := none })[v]? = some vt := by
    rw [getElem?_stored _ hv, if_neg hne]
  have ht₀ : (items.modify obj fun it => { it with childHead := none })[t]? = some tt := by
    rw [getElem?_stored _ htt, if_neg hot]
  have hlinked := hclear.linkNext ht₀ (by
      intro i it hi hit
      obtain rfl := Option.some.inj (htfather.symm.trans hi)
      rw [getElem?_stored _ ho, if_pos rfl] at hit
      rw [← Option.some.inj hit]) hv₀ (hfather.trans htfather.symm)
    fun hreach => hfar t (.inr htmem) (reach_clear hreach)
  have hcompose : ((items.modify obj fun it => { it with childHead := none }).modify t
      fun it => { it with next := some v }).modify obj (fun it => { it with childHead := some v }) =
      (items.modify t fun it => { it with next := some v }).modify obj
        fun it => { it with childHead := some v } := by
    rw [List.modify_modify_ne _ _ _ hot, List.modify_modify_eq]
    rfl
  -- the row in the memory where the last child is linked to the new one
  have hlonger : Row (items.modify t fun it => { it with next := some v }) o.child
      ((row ++ [t]) ++ [v]) := by
    have hnodup := h.row_nodup hrow
    have hsnoc : Row (items.modify t fun it => { it with next := some v })
        (if row ++ [t] = [] then some v else o.child) (row ++ [t] ++ [v]) := by
      refine Links.Seg.snoc hrow (n := vt) ?_ hnext ?_ ?_
      · simp only [getElem?_stored _ hv, if_neg htv]
      · intro c hc
        rw [List.getLast?_concat] at hc
        obtain rfl := Option.some.inj hc
        exact ⟨{ tt with next := some v }, by simp only [getElem?_stored _ htt, if_true], rfl⟩
      · intro c hc it hit
        rw [List.dropLast_concat] at hc
        have hct : t ≠ c := by
          rintro rfl
          exact (List.nodup_append.1 hnodup).2.2 t hc t (List.mem_singleton_self t) rfl
        exact ⟨it, by simp only [getElem?_stored _ hit, if_neg hct], rfl⟩
    rw [if_neg (by simp)] at hsnoc
    exact hsnoc
  have hkept : Kept ((items.modify t fun it => { it with next := some v }).modify obj
      fun it => { it with childHead := some v }) := by
    rw [← hcompose]
    apply hlinked.setHead
    intro it hit
    obtain ⟨it₁, hit₁, rfl⟩ := getElem?_store _ _ hit
    rw [if_neg (Ne.symm hot)]
    obtain ⟨it₂, hit₂, rfl⟩ := getElem?_store _ _ hit₁
    obtain rfl := Option.some.inj (ho.symm.trans hit₂)
    rw [if_pos rfl, List.modify_modify_ne _ _ _ hot]
    exact ⟨row ++ [t], Row.store hlonger fun _ _ _ => rfl⟩
  refine ⟨_, ?_, hkept, row ++ [t], o, ho, hrow, ?_, ?_, ?_⟩
  · rw [linkLast, ho]
    simp only [bind, Option.bind_some, hj, hhead, htt]
  · rw [getElem?_stored _ (getElem?_stored _ ho), if_pos rfl, if_neg (Ne.symm hot), hj]
    rfl
  · rw [hj] at hlonger ⊢
    exact Row.store hlonger fun _ _ _ => rfl
  · intro k it hit hk
    refine ⟨if t = k then some v else it.next, ?_, ?_⟩
    · rw [getElem?_stored _ (getElem?_stored _ hit), if_neg hk.symm]
      split <;> rfl
    · intro hlast
      rw [if_neg]
      rintro rfl
      exact hlast (by rw [List.getLast?_concat])

end

/-! ## The setters -/

/-- Every item with children has a tail pointer. -/
def Headed (items : List Item) : Prop :=
  ∀ (i : Nat) (it : Item), items[i]? = some it → it.child ≠ none → it.childHead ≠ none

/-- What is linked keeps the tail pointers. -/
theorem Linked.headed {items items' : List Item} {obj v : Nat} (h : Linked items items' obj v)
    (hlength : items'.length = items.length) (hheaded : Headed items) : Headed items' := by
  obtain ⟨row, o, ho, -, ho', -, hsame⟩ := h
  intro i it hit hchild
  by_cases hi : i = obj
  · subst hi
    obtain rfl := Option.some.inj (ho'.symm.trans hit)
    simp
  · have hlt : i < items.length := hlength ▸ (List.getElem?_eq_some_iff.1 hit).1
    obtain ⟨next, hnext, -⟩ := hsame i _ (List.getElem?_eq_getElem hlt) hi
    obtain rfl := Option.some.inj (hnext.symm.trans hit)
    exact hheaded i items[i] (List.getElem?_eq_getElem hlt) hchild

theorem length_linkLast {items items' : List Item} {obj v : Nat}
    (h : linkLast obj v items = some items') : items'.length = items.length := by
  obtain ⟨o, -, h⟩ := Option.bind_eq_some_iff.1 h
  split at h
  case h_1 =>
    obtain rfl := Option.some.inj h
    simp
  case h_2 =>
    obtain ⟨t, -, h⟩ := Option.bind_eq_some_iff.1 h
    obtain ⟨_, -, h⟩ := Option.bind_eq_some_iff.1 h
    obtain rfl := Option.some.inj h
    simp

/-- What `linkLast` does in a memory where only `v` is another item than before. -/
theorem Linked.appended {items items₁ items' : List Item} {obj v : Nat} {o vt : Item}
    (h : Linked items₁ items' obj v) (hne : obj ≠ v)
    (hsame : ∀ (k : Nat) (it : Item), items[k]? = some it → k ≠ v → items₁[k]? = some it)
    (ho : items[obj]? = some o) {row : List Nat} (hrow : Row items o.child row) (hv : v ∉ row)
    (hvt : items₁[v]? = some vt) : Appended items items' obj v vt := by
  obtain ⟨row₁, o₁, ho₁, hrow₁, ho', hrow', hrest⟩ := h
  obtain rfl : o = o₁ := Option.some.inj ((hsame obj o ho hne).symm.trans ho₁)
  have hframe : Row items₁ o.child row := by
    refine Links.Seg.frame hrow ?_
    intro k hk it hit
    refine ⟨it, hsame k it hit ?_, rfl⟩
    rintro rfl
    exact hv hk
  obtain rfl : row = row₁ := Links.Seg.unique hframe hrow₁
  refine ⟨row, o, ho, hrow, ho', hrow', ?_, ?_⟩
  · obtain ⟨next, hnext, hkeep⟩ := hrest v vt hvt (Ne.symm hne)
    rw [hnext, hkeep]
    intro hlast
    exact hv (List.mem_of_mem_getLast? hlast)
  · intro k it hit hk hkv
    exact hrest k it (hsame k it hit hkv) hk

/-- `linkLast` in a memory where the tail pointers are set. -/
theorem linkLast_spec {items : List Item} (h : Kept items) {obj v : Nat} {o vt : Item}
    (ho : items[obj]? = some o) (hv : items[v]? = some vt) (hfather : vt.father = some obj)
    (hnext : vt.next = none) (hhead : o.child ≠ none → o.childHead ≠ none)
    (hfar : ∀ x, (x = obj ∨ ∃ row, Row items o.child row ∧ x ∈ row) → ¬ Reach items v x) :
    ∃ items', linkLast obj v items = some items' ∧ Kept items' ∧ Linked items items' obj v := by
  by_cases hchild : o.child = none
  · exact linkLast_first h ho hv hfather hnext hchild (hfar obj (.inl rfl))
  · obtain ⟨t, ht⟩ := Option.ne_none_iff_exists'.1 (hhead hchild)
    obtain ⟨row, hrow⟩ := h.tail obj t o ho hchild ht
    refine linkLast_next h ho hv hfather hnext hrow ht ?_
    rintro x (hx | hx)
    · exact hfar x (.inl hx)
    · exact hfar x (.inr ⟨_, hrow, hx⟩)

/-- The children of an item, where the tail pointers are set. -/
theorem Kept.exists_row {items : List Item} (h : Kept items) {i : Nat} {it : Item}
    (hit : items[i]? = some it) (hhead : it.child ≠ none → it.childHead ≠ none) :
    ∃ row, Row items it.child row := by
  by_cases hchild : it.child = none
  · exact ⟨[], hchild⟩
  · obtain ⟨t, ht⟩ := Option.ne_none_iff_exists'.1 (hhead hchild)
    obtain ⟨row, hrow⟩ := h.tail i t it hit hchild ht
    exact ⟨row ++ [t], hrow⟩

/-- **A setter that makes an item** appends it. -/
theorem setNew_spec {items : List Item} (h : Kept items) {obj : Nat} {o : Item}
    (ho : items[obj]? = some o) (hhead : o.child ≠ none → o.childHead ≠ none) {new : Item}
    (hchild : new.child = none) (hnext : new.next = none) :
    ∃ items', setNew obj new items = some items' ∧ Kept items' ∧
      items'.length = items.length + 1 ∧ (Headed items → Headed items') ∧
      Appended items items' obj items.length { new with father := some obj } := by
  have hlt := (List.getElem?_eq_some_iff.1 ho).1
  have hkept : Kept (items ++ [{ new with father := some obj }]) := h.append hchild hnext
  have hold : ∀ (k : Nat) (it : Item), items[k]? = some it →
      (items ++ [{ new with father := some obj }])[k]? = some it := by
    intro k it hk
    rw [List.getElem?_append_left (List.getElem?_eq_some_iff.1 hk).1]
    exact hk
  have hv : (items ++ [{ new with father := some obj }])[items.length]? =
      some { new with father := some obj } := List.getElem?_concat_length
  have hfar : ∀ x, x < items.length →
      ¬ Reach (items ++ [{ new with father := some obj }]) items.length x := by
    intro x hx hreach
    exact absurd (hreach.eq_of_leaf hv hchild hnext) (Nat.ne_of_lt hx)
  obtain ⟨row, hrow⟩ := h.exists_row ho hhead
  have hframe : Row (items ++ [{ new with father := some obj }]) o.child row :=
    Links.Seg.frame hrow fun k _ it hit => ⟨it, hold k it hit, rfl⟩
  have hinside : ∀ x ∈ row, x < items.length := by
    intro x hx
    obtain ⟨it, hit, -⟩ := h.children_father ho hrow hx
    exact (List.getElem?_eq_some_iff.1 hit).1
  obtain ⟨items', hset, hkept', hlinked⟩ := linkLast_spec hkept (hold obj o ho) hv rfl hnext hhead (by
    rintro x (rfl | ⟨row', hrow', hx⟩)
    · exact hfar x hlt
    · obtain rfl : row = row' := Links.Seg.unique hframe hrow'
      exact hfar x (hinside x hx))
  have hlength := length_linkLast hset
  refine ⟨items', hset, hkept', by simpa using hlength, ?_, ?_⟩
  · intro hheaded
    refine hlinked.headed hlength ?_
    intro i it hit hne
    rcases Nat.lt_or_ge i items.length with hi | hi
    · rw [List.getElem?_append_left hi] at hit
      exact hheaded i it hit hne
    · rw [List.getElem?_append_right hi] at hit
      obtain rfl := List.mem_singleton.1 (List.mem_of_getElem? hit)
      exact absurd hchild hne
  · refine hlinked.appended (Nat.ne_of_lt hlt) (fun k it hk _ => hold k it hk) ho hrow ?_ hv
    intro hmem
    exact absurd (hinside _ hmem) (lt_irrefl _)

/-- A detached root: an item without a father and without a brother behind it that nothing is
linked to. -/
structure Detached (items : List Item) (v : Nat) : Prop where
  item : ∃ vt, items[v]? = some vt ∧ vt.father = none ∧ vt.next = none
  free : ∀ i, ¬ Link items i v

/-- **The setter for other trees** appends the root it is given, if the container is not in its
tree. -/
theorem jsonSetPropertyObjN_spec {items : List Item} (h : Kept items) {obj v : Nat} {o vt : Item}
    (ho : items[obj]? = some o) (hhead : o.child ≠ none → o.childHead ≠ none)
    (hv : Detached items v) (hvt : items[v]? = some vt) (hfar : ¬ Reach items v obj)
    (key : Option (List UInt8)) :
    ∃ items', jsonSetPropertyObjN obj key v items = some items' ∧ Kept items' ∧
      items'.length = items.length ∧ (Headed items → Headed items') ∧
      Appended items items' obj v { vt with key := key.or vt.key, father := some obj } := by
  obtain ⟨⟨vt', hvt', hfather, hnext⟩, hfree⟩ := hv
  obtain rfl : vt = vt' := Option.some.inj (hvt.symm.trans hvt')
  have hne : obj ≠ v := by
    rintro rfl
    exact hfar .refl
  have hkept : Kept (items.modify v fun it => { it with key := key.or it.key, father := some obj }) := by
    refine h.relabel (fun it => ⟨rfl, rfl, .inl rfl⟩) (.inr ⟨hfree, ?_⟩)
    intro it hit
    obtain rfl := Option.some.inj (hvt.symm.trans hit)
    exact hnext
  have hother : ∀ (k : Nat) (it : Item), items[k]? = some it → k ≠ v →
      (items.modify v fun it => { it with key := key.or it.key, father := some obj })[k]? =
        some it := by
    intro k it hk hkv
    rw [getElem?_stored _ hk, if_neg (Ne.symm hkv)]
  have hv' : (items.modify v fun it => { it with key := key.or it.key, father := some obj })[v]? =
      some { vt with key := key.or vt.key, father := some obj } := by
    rw [getElem?_stored _ hvt, if_pos rfl]
  have hreach : ∀ x, Reach (items.modify v fun it =>
      { it with key := key.or it.key, father := some obj }) v x → Reach items v x := by
    intro x hx
    refine Relation.ReflTransGen.mono ?_ _ _ hx
    rintro a b ⟨it', hit', hb⟩
    obtain ⟨it, hit, rfl⟩ := getElem?_store v _ hit'
    refine ⟨it, hit, ?_⟩
    split at hb <;> exact hb
  obtain ⟨row, hrow⟩ := h.exists_row ho hhead
  have hvrow : v ∉ row := by
    intro hmem
    obtain ⟨vt', hvt', hvfather⟩ := h.children_father ho hrow hmem
    obtain rfl := Option.some.inj (hvt.symm.trans hvt')
    exact absurd (hfather.symm.trans hvfather) (by simp)
  have hframe : Row (items.modify v fun it => { it with key := key.or it.key, father := some obj })
      o.child row := hrow.store fun _ _ _ => rfl
  obtain ⟨items', hset, hkept', hlinked⟩ := linkLast_spec hkept (hother obj o ho hne) hv' rfl hnext
    hhead (by
      rintro x (rfl | ⟨row', hrow', hx⟩) hvx
      · exact hfar (hreach _ hvx)
      · obtain rfl : row = row' := Links.Seg.unique hframe hrow'
        refine hfar (h.reach_father (hreach x hvx) (h.children_father ho hrow hx) ?_)
        intro vt' hvt' hvfather
        obtain rfl := Option.some.inj (hvt.symm.trans hvt')
        exact absurd (hfather.symm.trans hvfather) (by simp))
  have hlength := length_linkLast hset
  refine ⟨items', hset, hkept', by simpa using hlength, ?_, ?_⟩
  · intro hheaded
    refine hlinked.headed hlength ?_
    intro i it' hit' hchild
    obtain ⟨it, hit, rfl⟩ := getElem?_store v _ hit'
    have hsame : ∀ other : Item, other.child = it.child → other.childHead = it.childHead →
        other.child ≠ none → other.childHead ≠ none := by
      intro other hc hh hne'
      rw [hh]
      exact hheaded i it hit (hc ▸ hne')
    refine hsame _ ?_ ?_ hchild <;> split <;> rfl
  · exact hlinked.appended hne hother ho hrow hvrow hv'

end Ape.Json
