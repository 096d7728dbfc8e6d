import ApeServer.Json.Read

/-!
# Objects made of strings

`json_new_object` makes an object, and `json_set_property_strN` hangs a string behind its members.
What `json_to_string` prints for it escapes the values, and copies the keys.

* `jsonNewObject`, `jsonSetPropertyStrN`, `setProperties` — the functions of the source;
* `setProperties_eq` — the tree is the one of a document of strings;
* `jsonToString_setProperties` — **its text**.
-/

namespace Ape.Json

/-! ## The functions -/

/-- `json_new_object`. -/
def jsonNewObject : List Item := [{ childType := .obj }]

/-- `json_set_property_strN` of the item at `obj`: the new item is the child of an item that has
none, else it is behind the child that was hung last. -/
def jsonSetPropertyStrN (obj : Nat) (key : Option (List UInt8)) (value : List UInt8)
    (items : List Item) : Option (List Item) := do
  let it ← items[obj]?
  let newItem := items.length
  let hung ← if it.child = none then
      some (items.modify obj fun it => { it with child := some newItem })
    else it.childHead.map fun head => items.modify head fun it => { it with next := some newItem }
  some ((hung.modify obj fun it => { it with childHead := some newItem }) ++
    [{ father := some obj, key, str := some value, type := some .string }])

/-- A key and a value, of characters of ASCII other than null. -/
structure Property where
  key : List UInt8
  value : List UInt8
  ascii : Ascii key ∧ Ascii value

/-- A new object with some properties. -/
def setProperties (ps : List Property) : Option (List Item) :=
  ps.foldlM (fun items p => jsonSetPropertyStrN 0 (some p.key) p.value items) jsonNewObject

/-! ## The tree -/

/-- The document of some properties. -/
def properties : List Property → Members .object
  | [] => .nil
  | p :: ps => .scalar p.key (.string p.value) (properties ps)

/-- The object itself, with so many properties. -/
def objectItem (n : Nat) : Item :=
  { child := if n = 0 then none else some 1, childHead := if n = 0 then none else some n
    childType := .obj }

theorem length_properties (ps : List Property) (i : Nat) :
    ((properties ps).layout 0 i).length = ps.length := by
  induction ps generalizing i with
  | nil => rfl
  | cons p ps ih => exact congrArg (· + 1) (ih (i + 1))

/-- One more property: the last item is linked to it. -/
theorem layout_concat (ps : List Property) (p : Property) (i : Nat) :
    (properties (ps ++ [p])).layout 0 i =
      (((properties ps).layout 0 i).modify (ps.length - 1)
        fun it => { it with next := some (i + ps.length) }) ++
          [scalarItem 0 (some p.key) (.string p.value) none] := by
  induction ps generalizing i with
  | nil => rfl
  | cons q ps ih =>
    have hlayout : ∀ rest : List Property, (properties (q :: rest)).layout 0 i =
        scalarItem 0 (some q.key) (.string q.value) ((properties rest).first (i + 1)) ::
          (properties rest).layout 0 (i + 1) := fun _ => rfl
    rw [List.cons_append, hlayout, hlayout, ih]
    cases ps with
    | nil => rfl
    | cons r ps =>
      simp only [List.length_cons, Nat.add_sub_cancel, List.modify_succ_cons, List.cons_append]
      rw [Nat.add_right_comm i 1, Nat.add_assoc i]
      rfl

/-- A property is hung behind the others. -/
theorem jsonSetPropertyStrN_eq (ps : List Property) (p : Property) :
    jsonSetPropertyStrN 0 (some p.key) p.value
        (objectItem ps.length :: (properties ps).layout 0 1) =
      some (objectItem (ps ++ [p]).length :: (properties (ps ++ [p])).layout 0 1) := by
  rw [layout_concat]
  cases ps with
  | nil => rfl
  | cons q ps =>
    have hlen : (objectItem (q :: ps).length :: (properties (q :: ps)).layout 0 1).length =
        1 + (q :: ps).length := by
      rw [List.length_cons, length_properties, Nat.add_comm]
    unfold jsonSetPropertyStrN
    rw [hlen, List.getElem?_cons_zero]
    generalize (properties (q :: ps)).layout 0 1 = items
    have hlink : (objectItem (q :: ps).length).childHead = some (q :: ps).length := rfl
    have hchild : (objectItem (q :: ps).length).child = some 1 := rfl
    have hlast : (q :: ps).length - 1 = ps.length := rfl
    simp only [bind, Option.bind_some, hlink, hchild, hlast, Option.map_some, List.length_append,
      reduceCtorEq, if_false]
    rw [List.length_cons, List.modify_succ_cons, Nat.add_comm 1]
    rfl

/-- **The tree is the one of a document.** -/
theorem setProperties_eq (ps : List Property) :
    setProperties ps = some (objectItem ps.length :: (properties ps).layout 0 1) := by
  induction ps using List.reverseRecOn with
  | nil => rfl
  | append_singleton ps p ih =>
    unfold setProperties at ih ⊢
    rw [List.foldlM_append, ih]
    simpa using jsonSetPropertyStrN_eq ps p

/-! ## The text -/

/-- What is printed for the properties of an object, with the bracket behind the last. -/
def propertiesText : List Property → List UInt8
  | [] => []
  | p :: ps =>
    34 :: (p.key ++ [34, 58]) ++ (34 :: (escapeJsonString p.value ++ [34])) ++
      (properties ps).separator ++ propertiesText ps

theorem printed_properties (libm : Libm) (ps : List Property) :
    (properties ps).printed libm = some (propertiesText ps) := by
  induction ps with
  | nil => rfl
  | cons p ps ih =>
    show ((Scalar.string p.value).printed libm).bind (fun value =>
      ((properties ps).printed libm).bind fun after => some (keyText (some p.key) ++ value ++
        (properties ps).separator ++ after)) = _
    rw [ih]
    rfl

/-- **The text of an object** that has properties. -/
theorem jsonToString_setProperties (libm : Libm) (p : Property) (ps : List Property) :
    (setProperties (p :: ps)).bind (fun items => jsonToString libm items (some 0)) =
      some (123 :: propertiesText (p :: ps)) := by
  have hmirrored := (properties (p :: ps)).mirrored_layout 0 [objectItem (p :: ps).length] []
  rw [List.append_nil] at hmirrored
  have hsize : ∀ ps, (properties ps).size = ps.length := by
    intro ps
    induction ps with
    | nil => rfl
    | cons p ps ih =>
      show 1 + (properties ps).size = ps.length + 1
      rw [ih, Nat.add_comm]
  rw [setProperties_eq, Option.bind_some]
  generalize hitems : objectItem (p :: ps).length :: (properties (p :: ps)).layout 0 1 = items
  have hroot : items[0]? = some (objectItem (p :: ps).length) := by rw [← hitems]; rfl
  have hlen : items.length = (p :: ps).length + 1 := by
    rw [← hitems, List.length_cons, length_properties]
  have hmembers : (properties (p :: ps)).Mirrored items 0 (some 1) := by
    rw [← hitems]
    exact hmirrored
  have hinside : printFrom libm items (p :: ps).length (some 1) =
      (properties (p :: ps)).printed libm :=
    Members.printFrom_mirrored libm _ hroot rfl hmembers (hsize (p :: ps)).le
  have hvalue : valueText libm (objectItem (p :: ps).length) = some [] := rfl
  have hbehind : behind items (objectItem (p :: ps).length) = some [] := rfl
  unfold jsonToString
  rw [hlen, printFrom, hroot]
  simp only [bind, Option.bind_some, hvalue, hbehind]
  show (printFrom libm items (p :: ps).length (some 1)).bind _ = _
  rw [hinside, printed_properties, Option.bind_some]
  show (printFrom libm items (p :: ps).length none).bind _ = _
  have hnext : printFrom libm items (p :: ps).length none = some [] := rfl
  rw [hnext, Option.bind_some]
  simp only [List.append_nil]
  rfl

end Ape.Json
