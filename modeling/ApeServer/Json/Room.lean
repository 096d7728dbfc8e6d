import ApeServer.Json.Extend
import ApeServer.Json.Integer
import ApeServer.Lib.CInt

/-!
# The block for a text

`json_to_string` allocates the text at once, twice as large as `json_evaluate_string_size` says, and
then stores without looking.  The estimate has two bytes for every level of the tree, which pay for
brackets and commas, and three for every key and string, which pay for the quotes.

* `jsonEvaluateStringSize` — the function of the source, in `int`s;
* `Jsontring`, `writeString` — `jsontring`, and `json_to_string` with every store into it;
* `writeFrom_text` — what is stored is the text;
* `estimate` — the estimate of a forest;
* `writeFrom_room` — **the stores of a forest**, with what its level has to spare;
* `writeString_room` — **the block is large enough**.
-/

namespace Ape.Json

/-! ## The functions -/

/-- What is added to `evalsize` for the key of an item. -/
def evaluateKey (it : Item) (evalsize : Int32) : Int32 :=
  match it.key with
  | some key => evalsize + Int32.ofNat (key.length + 3)
  | none => evalsize

/-- What is added to `evalsize` for the value of an item. -/
def evaluateValue (it : Item) (evalsize : Int32) : Int32 :=
  match it.str with
  | some s => evalsize + Int32.ofNat (s.length + 3)
  | none => if it.child = none then evalsize + Int32.ofNat 16 else evalsize

/-- The loop of `json_evaluate_string_size`, with the calls for the children; each turn takes one of
`fuel`. -/
def evaluateFrom (items : List Item) : Nat → Int32 → Option Nat → Option Int32
  | _, evalsize, none => some evalsize
  | 0, _, some _ => none
  | fuel + 1, evalsize, some i => do
    let it ← items[i]?
    let evalsize := evaluateValue it (evaluateKey it evalsize)
    let below : Option Int32 :=
      if it.child = none then some evalsize
      else (evaluateFrom items fuel 2 it.child).map fun size => evalsize + size
    evaluateFrom items fuel (← below) it.next

/-- **`json_evaluate_string_size`**. -/
def jsonEvaluateStringSize (items : List Item) (head : Option Nat) : Option Int32 :=
  evaluateFrom items items.length 2 head

/-- `jsontring`: the bytes below `len`, and `jsize`.  The block has one byte more. -/
structure Jsontring where
  jstring : List UInt8
  jsize : Nat
  deriving DecidableEq, Repr

/-- `len`. -/
def Jsontring.len (s : Jsontring) : Nat := s.jstring.length

/-- Bytes stored from index `len` on; none of them may lie beyond index `jsize`. -/
def Jsontring.put (bytes : List UInt8) (s : Jsontring) : Option Jsontring :=
  if s.len + bytes.length ≤ s.jsize + 1 then some { s with jstring := s.jstring ++ bytes } else none

/-- The final null, stored at index `len`. -/
def Jsontring.terminate (s : Jsontring) : Option Jsontring :=
  if s.len ≤ s.jsize then some s else none

/-- `snprintf` of at most 16 bytes, and a null behind them. -/
def Jsontring.print (text : List UInt8) (s : Jsontring) : Option Jsontring :=
  (s.put (text.take 16)).bind Jsontring.terminate

/-- The stores of a key. -/
def writeKey (key : Option (List UInt8)) (s : Jsontring) : Option Jsontring :=
  match key with
  | none => some s
  | some key => do
    let s ← s.put [34]
    let s ← s.put key
    let s ← s.put [34]
    s.put [58]

/-- The stores of a value, with the text of an integer as `integer` makes it. -/
def writeValue (integer : Int64 → Option (List UInt8)) (libm : Libm) (it : Item) (s : Jsontring) :
    Option Jsontring :=
  match it.str with
  | some str => do
    let s ← s.put [34]
    let s ← s.put (escapeJsonString str)
    s.put [34]
  | none =>
    if it.integer ≠ 0 then (integer it.integer).bind fun text => s.put text
    else if it.float ≠ 0 ∧ it.float ≠ 0x8000000000000000 then s.print (libm.formatFloat it.float)
    else if it.type = some .true then s.put trueText
    else if it.type = some .false then s.put falseText
    else if it.type = some .null then s.put nullText
    else if it.child = none then s.put [48]
    else some s

/-- The `while` of `json_to_string` with its stores, and the calls for the children; each turn takes
one of `fuel`. -/
def writeFrom (integer : Int64 → Option (List UInt8)) (libm : Libm) (items : List Item) :
    Nat → Jsontring → Option Nat → Option Jsontring
  | _, s, none => s.terminate
  | 0, _, some _ => none
  | fuel + 1, s, some i => do
    let it ← items[i]?
    let s ← writeKey it.key s
    let s ← writeValue integer libm it s
    let below : Option Jsontring :=
      if it.child = none then some s
      else (s.put (opener it.childType)).bind fun s => writeFrom integer libm items fuel s it.child
    let s ← (← below).put (← behind items it)
    writeFrom integer libm items fuel s it.next

/-- **`json_to_string(head, NULL, 0)`**: `jsize` is an `int` that becomes a `size_t`. -/
def writeString (integer : Int64 → Option (List UInt8)) (libm : Libm) (items : List Item)
    (head : Option Nat) : Option Jsontring := do
  let size ← jsonEvaluateStringSize items head
  writeFrom integer libm items items.length
    { jstring := [], jsize := ((size * 2).toInt % 2 ^ 64).toNat } head

/-! ## What is stored is the text -/

theorem Jsontring.put_text {s s' : Jsontring} {bytes : List UInt8} (h : s.put bytes = some s') :
    s'.jstring = s.jstring ++ bytes := by
  unfold put at h
  split at h
  case isTrue => exact congrArg Jsontring.jstring (Option.some.inj h).symm
  case isFalse => exact absurd h (by simp)

theorem Jsontring.terminate_text {s s' : Jsontring} (h : s.terminate = some s') : s' = s := by
  unfold terminate at h
  split at h
  case isTrue => exact (Option.some.inj h).symm
  case isFalse => exact absurd h (by simp)

/-- Stores behind one another are one store. -/
theorem Jsontring.put_bind (a b : List UInt8) (s : Jsontring) :
    ((s.put a).bind fun s => s.put b) = s.put (a ++ b) := by
  unfold put
  by_cases hfirst : s.len + a.length ≤ s.jsize + 1
  · rw [if_pos hfirst, Option.bind_some]
    simp only [len, List.length_append, List.append_assoc, Nat.add_assoc]
  · rw [if_neg hfirst, Option.bind_none, if_neg]
    rw [List.length_append]
    omega

theorem writeKey_some (key : List UInt8) (s : Jsontring) :
    writeKey (some key) s = s.put (keyText (some key)) := by
  have hstores : writeKey (some key) s = (s.put [34]).bind fun s => (s.put key).bind fun s =>
      (s.put [34]).bind fun s => s.put [58] := rfl
  simp only [hstores, Jsontring.put_bind]
  rfl

theorem writeKey_text {key : Option (List UInt8)} {s s' : Jsontring}
    (h : writeKey key s = some s') : s'.jstring = s.jstring ++ keyText key := by
  cases key with
  | none =>
    obtain rfl := Option.some.inj h
    exact (List.append_nil _).symm
  | some key =>
    rw [writeKey_some] at h
    exact Jsontring.put_text h

theorem writeValue_str (integer : Int64 → Option (List UInt8)) (libm : Libm) {it : Item}
    {str : List UInt8} (hstr : it.str = some str) (s : Jsontring) :
    writeValue integer libm it s = s.put (34 :: (escapeJsonString str ++ [34])) := by
  have hstores : writeValue integer libm it s = (s.put [34]).bind fun s =>
      (s.put (escapeJsonString str)).bind fun s => s.put [34] := by
    unfold writeValue
    rw [hstr]
    rfl
  simp only [hstores, Jsontring.put_bind]
  rfl

/-- The value that is stored is the one that is printed. -/
theorem writeValue_text {libm : Libm} {it : Item} {s s' : Jsontring}
    (h : writeValue (integerText libm) libm it s = some s') :
    ∃ text, valueText libm it = some text ∧ s'.jstring = s.jstring ++ text := by
  unfold valueText
  cases hstr : it.str with
  | some str =>
    rw [writeValue_str _ _ hstr] at h
    exact ⟨_, rfl, Jsontring.put_text h⟩
  | none =>
    unfold writeValue at h
    rw [hstr] at h
    simp only at h ⊢
    split_ifs at h ⊢
    · obtain ⟨text, htext, h⟩ := Option.bind_eq_some_iff.1 h
      exact ⟨text, htext, Jsontring.put_text h⟩
    · obtain ⟨s₁, h₁, h⟩ := Option.bind_eq_some_iff.1 h
      rw [Jsontring.terminate_text h]
      exact ⟨_, rfl, Jsontring.put_text h₁⟩
    · exact ⟨_, rfl, Jsontring.put_text h⟩
    · exact ⟨_, rfl, Jsontring.put_text h⟩
    · exact ⟨_, rfl, Jsontring.put_text h⟩
    · exact ⟨_, rfl, Jsontring.put_text h⟩
    · obtain rfl := Option.some.inj h
      exact ⟨[], rfl, (List.append_nil _).symm⟩

/-- **What is stored is the text** that is printed. -/
theorem writeFrom_text {libm : Libm} {items : List Item} {fuel : Nat} {s s' : Jsontring}
    {p : Option Nat} (h : writeFrom (integerText libm) libm items fuel s p = some s') :
    ∃ text, printFrom libm items fuel p = some text ∧ s'.jstring = s.jstring ++ text := by
  induction fuel generalizing s s' p with
  | zero =>
    cases p with
    | none =>
      rw [Jsontring.terminate_text h]
      exact ⟨[], rfl, (List.append_nil _).symm⟩
    | some i => exact absurd h (by simp [writeFrom])
  | succ fuel ih =>
    cases p with
    | none =>
      rw [Jsontring.terminate_text h]
      exact ⟨[], rfl, (List.append_nil _).symm⟩
    | some i =>
      obtain ⟨it, hit, h⟩ := Option.bind_eq_some_iff.1 h
      obtain ⟨s₁, hkey, h⟩ := Option.bind_eq_some_iff.1 h
      obtain ⟨s₂, hvalue, h⟩ := Option.bind_eq_some_iff.1 h
      obtain ⟨s₃, hbelow, h⟩ := Option.bind_eq_some_iff.1 h
      obtain ⟨after, hafter, h⟩ := Option.bind_eq_some_iff.1 h
      obtain ⟨s₄, hput, h⟩ := Option.bind_eq_some_iff.1 h
      obtain ⟨value, hvalueText, hvalue⟩ := writeValue_text hvalue
      obtain ⟨rest, hrestText, hrest⟩ := ih h
      obtain ⟨inner, hinnerText, hinner⟩ : ∃ inner, printFrom libm items fuel it.child = some inner ∧
          s₃.jstring = s₂.jstring ++ (openBracket it ++ inner) := by
        unfold openBracket
        split at hbelow
        case isTrue hchild =>
          obtain rfl := Option.some.inj hbelow
          rw [hchild]
          refine ⟨[], ?_, by simp⟩
          cases fuel <;> rfl
        case isFalse hchild =>
          obtain ⟨c, hc⟩ := Option.ne_none_iff_exists'.1 hchild
          obtain ⟨s₀, hopen, hbelow⟩ := Option.bind_eq_some_iff.1 hbelow
          obtain ⟨inner, hinnerText, hinner⟩ := ih hbelow
          refine ⟨inner, hinnerText, ?_⟩
          rw [hinner, Jsontring.put_text hopen, hc, List.append_assoc]
      refine ⟨keyText it.key ++ value ++ openBracket it ++ inner ++ after ++ rest, ?_, ?_⟩
      · rw [printFrom, hit]
        simp only [bind, Option.bind_some, hvalueText, hinnerText, hafter, hrestText]
      · rw [hrest, Jsontring.put_text hput, hinner, hvalue, writeKey_text hkey]
        simp only [List.append_assoc]

/-! ## The estimate of a forest -/

/-- What a key adds to the estimate. -/
def Item.keySize (it : Item) : Nat :=
  match it.key with
  | some key => key.length + 3
  | none => 0

/-- What a value adds to the estimate. -/
def Item.valueSize (it : Item) : Nat :=
  match it.str with
  | some s => s.length + 3
  | none => if it.child = none then 16 else 0

/-- The estimate of a forest, without the limits of an `int`. -/
def estimate : Forest (Nat × Item) → Nat
  | .nil => 2
  | .node a children rest =>
    a.2.keySize + a.2.valueSize + (if a.2.child = none then 0 else estimate children) + estimate rest

theorem two_le_estimate (F : Forest (Nat × Item)) : 2 ≤ estimate F := by
  induction F with
  | nil => exact le_rfl
  | node a children rest _ ih => exact ih.trans (Nat.le_add_left ..)

/-- A length that is added to an `int`. -/
theorem toInt_add_ofNat {e : Int32} {k n : Nat} (he : e.toInt = k) (hfit : k + n < 2 ^ 31) :
    (e + Int32.ofNat n).toInt = ((k + n : Nat) : Int) := by
  have hn : (Int32.ofNat n).toInt = n := Int32.toInt_ofNat_of_lt (by omega)
  rw [CInt.toInt_add (by omega) (by omega), he, hn]
  rfl

theorem evaluateKey_toInt (it : Item) {e : Int32} {k : Nat} (he : e.toInt = k)
    (hfit : k + it.keySize < 2 ^ 31) : (evaluateKey it e).toInt = ((k + it.keySize : Nat) : Int) := by
  unfold evaluateKey
  unfold Item.keySize at hfit ⊢
  cases hkey : it.key with
  | none => simpa [hkey] using he
  | some key =>
    rw [hkey] at hfit
    exact toInt_add_ofNat he hfit

theorem evaluateValue_toInt (it : Item) {e : Int32} {k : Nat} (he : e.toInt = k)
    (hfit : k + it.valueSize < 2 ^ 31) :
    (evaluateValue it e).toInt = ((k + it.valueSize : Nat) : Int) := by
  unfold evaluateValue
  unfold Item.valueSize at hfit ⊢
  cases hstr : it.str with
  | some str =>
    rw [hstr] at hfit
    exact toInt_add_ofNat he hfit
  | none =>
    rw [hstr] at hfit
    simp only at hfit ⊢
    split
    case isTrue hchild =>
      rw [if_pos hchild] at hfit
      exact toInt_add_ofNat he hfit
    case isFalse => exact he

/-- **The estimate** of the source is that of the forest, if that fits an `int`. -/
theorem evaluateFrom_holds {items : List Item} {F : Forest (Nat × Item)} {p : Option Nat}
    (h : Holds items F p) {fuel : Nat} (hfuel : F.height ≤ fuel) {e : Int32} {k : Nat}
    (he : e.toInt = k) (hfit : k + estimate F < 2 ^ 31 + 2) :
    ∃ e', evaluateFrom items fuel e p = some e' ∧ e'.toInt = ((k + estimate F - 2 : Nat) : Int) := by
  induction F generalizing p fuel e k with
  | nil =>
    obtain rfl : p = none := h
    refine ⟨e, by cases fuel <;> rfl, ?_⟩
    rw [he]
    simp [estimate]
  | node a children rest ihc ihr =>
    obtain ⟨rfl, hit, hchildren, hrest⟩ := h
    obtain ⟨fuel, rfl⟩ : ∃ k, fuel = k + 1 :=
      Nat.exists_eq_add_one.2 (lt_of_lt_of_le (Nat.succ_pos _) hfuel)
    simp only [Forest.height, Nat.add_le_add_iff_right, Nat.max_le] at hfuel
    have hit' : items[a.1]? = some a.2 := hit
    have htwo := two_le_estimate rest
    rw [estimate] at hfit ⊢
    have hkey := evaluateKey_toInt a.2 he (by omega)
    have hvalue := evaluateValue_toInt a.2 hkey (by omega)
    rw [evaluateFrom, hit']
    simp only [bind, Option.bind_some]
    by_cases hchild : a.2.child = none
    · rw [if_pos hchild] at hfit ⊢
      rw [if_pos hchild, Option.bind_some]
      obtain ⟨e', he', hsize⟩ := ihr hrest hfuel.2 hvalue (by omega)
      exact ⟨e', he', hsize.trans (congrArg _ (by omega))⟩
    · rw [if_neg hchild] at hfit ⊢
      obtain ⟨inner, hinner, hinnerSize⟩ := ihc hchildren hfuel.1 (e := 2) (k := 2) rfl (by omega)
      rw [if_neg hchild, hinner, Option.map_some, Option.bind_some]
      have hsum : (evaluateValue a.2 (evaluateKey a.2 e) + inner).toInt =
          ((k + a.2.keySize + a.2.valueSize + estimate children : Nat) : Int) := by
        rw [CInt.toInt_add (by omega) (by omega), hvalue, hinnerSize]
        omega
      obtain ⟨e', he', hsize⟩ := ihr hrest hfuel.2 hsum (by omega)
      exact ⟨e', he', hsize.trans (congrArg _ (by omega))⟩

/-! ## The stores of a forest -/

/-- An item with children carries no number and no literal. -/
def Item.Bare (it : Item) : Prop :=
  it.child ≠ none → it.integer = 0 ∧ (it.float = 0 ∨ it.float = 0x8000000000000000) ∧
    it.type ≠ some .true ∧ it.type ≠ some .false ∧ it.type ≠ some .null

instance (it : Item) : Decidable it.Bare := inferInstanceAs (Decidable (_ → _))

theorem length_escapeJsonString_le (s : List UInt8) : (escapeJsonString s).length ≤ 2 * s.length := by
  induction s with
  | nil => exact le_rfl
  | cons c s ih =>
    rw [escapeJsonString, List.length_append, List.length_cons]
    have hone : (if c = 34 then [92, 34] else if c = 39 then [92, 39] else if c = 92 then [92, 92]
        else if c = 10 then [92, 110] else if c = 8 then [92, 98] else if c = 9 then [92, 116]
        else if c = 12 then [92, 102] else if c = 13 then [92, 114] else [c]).length ≤ 2 := by
      split_ifs <;> simp
    omega

theorem Jsontring.put_room (s : Jsontring) (bytes : List UInt8)
    (hroom : s.len + bytes.length ≤ s.jsize + 1) :
    ∃ s', s.put bytes = some s' ∧ s'.len = s.len + bytes.length ∧ s'.jsize = s.jsize :=
  ⟨_, if_pos hroom, List.length_append, rfl⟩

/-- A key is stored where the estimate has room for it. -/
theorem writeKey_room (it : Item) {s : Jsontring} (hroom : s.len + it.keySize ≤ s.jsize + 1) :
    ∃ s', writeKey it.key s = some s' ∧ s'.len = s.len + it.keySize ∧ s'.jsize = s.jsize := by
  unfold Item.keySize at hroom ⊢
  cases hkey : it.key with
  | none => exact ⟨s, rfl, rfl, rfl⟩
  | some key =>
    rw [hkey] at hroom
    have hlength : (keyText (some key)).length = key.length + 3 := by simp [keyText]
    simp only at hroom ⊢
    rw [writeKey_some, ← hlength]
    exact s.put_room _ (by rw [hlength]; exact hroom)

/-- The stores of a value leave room for a comma, unless they are none. -/
theorem writeValue_room {integer : Int64 → Option (List UInt8)} (libm : Libm) {it : Item}
    (hbare : it.Bare)
    (hinteger : it.integer ≠ 0 → ∃ text, integer it.integer = some text ∧ text.length ≤ 20)
    {s : Jsontring} (hroom : s.len + 2 * it.valueSize ≤ s.jsize + 1) :
    ∃ s', writeValue integer libm it s = some s' ∧ s'.jsize = s.jsize ∧
      s'.len + (if it.child = none then 1 else 0) ≤ s.len + 2 * it.valueSize := by
  -- every case but the last is a store of `bytes`
  have hput : ∀ bytes : List UInt8,
      bytes.length + (if it.child = none then 1 else 0) ≤ 2 * it.valueSize →
      ∃ s', s.put bytes = some s' ∧ s'.jsize = s.jsize ∧
        s'.len + (if it.child = none then 1 else 0) ≤ s.len + 2 * it.valueSize := by
    intro bytes hbytes
    obtain ⟨s', hs', hlen, hsize⟩ := s.put_room bytes (by omega)
    exact ⟨s', hs', hsize, by omega⟩
  cases hstr : it.str with
  | some str =>
    have hvalue : it.valueSize = str.length + 3 := by rw [Item.valueSize, hstr]
    have hescape := length_escapeJsonString_le str
    rw [writeValue_str _ _ hstr]
    apply hput
    rw [hvalue, List.length_cons, List.length_append, List.length_singleton]
    split <;> omega
  | none =>
    unfold writeValue
    rw [hstr]
    simp only
    by_cases hchild : it.child = none
    · have hvalue : it.valueSize = 16 := by
        rw [Item.valueSize, hstr]
        exact if_pos hchild
      have hshort : ∀ bytes : List UInt8, bytes.length ≤ 20 → bytes.length + 1 ≤ 2 * it.valueSize := by
        intro bytes hbytes
        omega
      simp only [if_pos hchild] at hput ⊢
      split_ifs with hint hfloat
      · obtain ⟨text, htext, hlength⟩ := hinteger hint
        rw [htext, Option.bind_some]
        exact hput text (hshort text hlength)
      · have htake := List.length_take_le 16 (libm.formatFloat it.float)
        obtain ⟨s', hs', hsize, hlen⟩ := hput _ (hshort _ (htake.trans (by omega)))
        refine ⟨s', ?_, hsize, hlen⟩
        rw [Jsontring.print, hs', Option.bind_some, Jsontring.terminate, if_pos (by omega)]
      · exact hput trueText (hshort _ (by decide))
      · exact hput falseText (hshort _ (by decide))
      · exact hput nullText (hshort _ (by decide))
      · exact hput [48] (hshort _ (by decide))
    · obtain ⟨hzero, hfloat, htrue, hfalse, hnull⟩ := hbare hchild
      have hnone : ¬ (it.float ≠ 0 ∧ it.float ≠ 0x8000000000000000) := by
        rintro ⟨hnonzero, hsign⟩
        rcases hfloat with h | h
        · exact hnonzero h
        · exact hsign h
      rw [if_neg (not_not.2 hzero), if_neg hnone, if_neg htrue, if_neg hfalse, if_neg hnull,
        if_neg hchild, if_neg hchild]
      exact ⟨s, rfl, rfl, Nat.le_add_right ..⟩

theorem length_opener_le (type : ChildType) : (opener type).length ≤ 1 := by
  cases type <;> decide

theorem length_behindText_le (outer : Option ChildType) (rest : Forest (Nat × Item)) :
    (behindText outer rest).length ≤ 1 := by
  unfold behindText
  split
  case h_1 => exact Nat.zero_le 1
  case h_2 type => cases type <;> decide
  case h_3 => exact le_rfl

/-- **The stores of a forest** take four bytes less than twice its estimate: the two of its level,
doubled, are left for the brackets of the item it is below. -/
theorem writeFrom_room {integer : Int64 → Option (List UInt8)} (libm : Libm) {items : List Item}
    {F : Forest (Nat × Item)} {p father : Option Nat} {outer : Option ChildType}
    (h : Holds items F p) (hfather : Fathered F father) (houter : OuterType items father outer)
    (hbare : ∀ a ∈ F.nodes, a.2.Bare)
    (hinteger : ∀ a ∈ F.nodes, a.2.integer ≠ 0 →
      ∃ text, integer a.2.integer = some text ∧ text.length ≤ 20)
    {fuel : Nat} (hfuel : F.height ≤ fuel) {s : Jsontring}
    (hroom : s.len + 2 * estimate F ≤ s.jsize + 4) :
    ∃ s', writeFrom integer libm items fuel s p = some s' ∧ s'.jsize = s.jsize ∧
      s'.len + 4 ≤ s.len + 2 * estimate F := by
  induction F generalizing p father outer fuel s with
  | nil =>
    obtain rfl : p = none := h
    rw [estimate] at hroom ⊢
    refine ⟨s, ?_, rfl, le_rfl⟩
    have hdone : writeFrom integer libm items fuel s none = s.terminate := by cases fuel <;> rfl
    rw [hdone]
    exact if_pos (by omega)
  | node a children rest ihc ihr =>
    obtain ⟨rfl, hit, hchildren, hrest⟩ := h
    obtain ⟨fuel, rfl⟩ : ∃ k, fuel = k + 1 :=
      Nat.exists_eq_add_one.2 (lt_of_lt_of_le (Nat.succ_pos _) hfuel)
    simp only [Forest.height, Nat.add_le_add_iff_right, Nat.max_le] at hfuel
    have hit' : items[a.1]? = some a.2 := hit
    have htwo := two_le_estimate rest
    have hbelow : ∀ b ∈ children.nodes, b ∈ (Forest.node a children rest).nodes :=
      fun b hb => List.mem_cons_of_mem _ (List.mem_append_left _ hb)
    have hafter : ∀ b ∈ rest.nodes, b ∈ (Forest.node a children rest).nodes :=
      fun b hb => List.mem_cons_of_mem _ (List.mem_append_right _ hb)
    have hself : a ∈ (Forest.node a children rest).nodes := List.mem_cons_self ..
    rw [estimate] at hroom ⊢
    obtain ⟨s₁, hkey, hlen₁, hsize₁⟩ := writeKey_room a.2 (s := s) (by omega)
    obtain ⟨s₂, hvalue, hsize₂, hlen₂⟩ := writeValue_room libm (hbare a hself) (hinteger a hself)
      (s := s₁) (by omega)
    -- the children and the bracket in front of them
    obtain ⟨s₃, hinner, hsize₃, hlen₃⟩ : ∃ s₃, (if a.2.child = none then some s₂
        else (s₂.put (opener a.2.childType)).bind fun s =>
          writeFrom integer libm items fuel s a.2.child) = some s₃ ∧ s₃.jsize = s.jsize ∧
        s₃.len + 1 ≤ s.len + 2 * (a.2.keySize + a.2.valueSize +
          if a.2.child = none then 0 else estimate children) := by
      by_cases hchild : a.2.child = none
      · rw [if_pos hchild] at hlen₂ ⊢
        exact ⟨s₂, rfl, hsize₂.trans hsize₁, by rw [if_pos hchild]; omega⟩
      · rw [if_neg hchild] at hroom hlen₂ ⊢
        have hopener := length_opener_le a.2.childType
        have htwo' := two_le_estimate children
        obtain ⟨s₀, hopen, hlen₀, hsize₀⟩ := s₂.put_room (opener a.2.childType)
          (by omega)
        obtain ⟨s₃, hwrite, hsize₃, hlen₃⟩ := ihc hchildren hfather.2.1 ⟨a.2, hit', rfl⟩
          (fun b hb => hbare b (hbelow b hb)) (fun b hb => hinteger b (hbelow b hb)) hfuel.1
          (s := s₀) (by omega)
        refine ⟨s₃, ?_, by omega, by rw [if_neg hchild]; omega⟩
        rw [hopen, Option.bind_some, hwrite]
    -- the comma or the bracket behind it
    have hbehind : behind items a.2 = some (behindText outer rest) :=
      behind_holds hrest (hfather.1.symm ▸ houter)
    have hone := length_behindText_le outer rest
    obtain ⟨s₄, hput, hlen₄, hsize₄⟩ := s₃.put_room (behindText outer rest)
      (by omega)
    obtain ⟨s', hwrite, hsize', hlen'⟩ := ihr hrest hfather.2.2 houter
      (fun b hb => hbare b (hafter b hb)) (fun b hb => hinteger b (hafter b hb)) hfuel.2
      (s := s₄) (by omega)
    refine ⟨s', ?_, by omega, by omega⟩
    rw [writeFrom, hit']
    simp only [bind, Option.bind_some, hkey, hvalue, hinner, hbehind, hput, hwrite]

/-! ## The block -/

/-- **What is stored in the block is the text.** -/
theorem writeString_text {libm : Libm} {items : List Item} {head : Option Nat} {s : Jsontring}
    (h : writeString (integerText libm) libm items head = some s) :
    jsonToString libm items head = some s.jstring := by
  obtain ⟨size, -, h⟩ := Option.bind_eq_some_iff.1 h
  obtain ⟨text, htext, hs⟩ := writeFrom_text h
  rw [hs]
  exact htext

theorem length_decimalText_le (n : Int64) : (decimalText n).length ≤ 20 := by
  have hmin := n.le_toInt
  have hmax := n.toInt_lt
  have habs : (Decimal.text n.toInt.natAbs).length ≤ 19 := by
    rw [Decimal.length_text_le_iff]
    omega
  unfold decimalText
  split
  · rw [List.length_cons]
    omega
  · omega

/-- A forest whose estimate fits an `int` is stored in a block of that size. -/
theorem writeString_holds {integer : Int64 → Option (List UInt8)} (libm : Libm) {items : List Item}
    {F : Forest (Nat × Item)} {root : Option Nat} (h : Holds items F root)
    (hfather : Fathered F none) (hbare : ∀ a ∈ F.nodes, a.2.Bare)
    (hinteger : ∀ a ∈ F.nodes, a.2.integer ≠ 0 →
      ∃ text, integer a.2.integer = some text ∧ text.length ≤ 20)
    (hfit : 2 * estimate F < 2 ^ 31) :
    ∃ size s, jsonEvaluateStringSize items root = some size ∧ size.toInt = estimate F ∧
      writeString integer libm items root = some s ∧ s.jsize = 2 * estimate F := by
  obtain ⟨size, hsize, hvalue⟩ :=
    evaluateFrom_holds h h.height_le (e := 2) (k := 2) rfl (by omega)
  have hestimate : size.toInt = estimate F := hvalue.trans (congrArg _ (by omega))
  have hdouble : ((size * 2).toInt % 2 ^ 64).toNat = 2 * estimate F := by
    rw [Int32.toInt_mul, hestimate]
    have hexact : Int.bmod ((estimate F : Int) * (2 : Int32).toInt) (2 ^ 32) = 2 * estimate F := by
      have htwo : (2 : Int32).toInt = 2 := rfl
      rw [htwo, Int.bmod_eq_of_le_mul_two (by omega) (by omega)]
      omega
    rw [hexact]
    omega
  obtain ⟨s, hs, hjsize, -⟩ := writeFrom_room libm h hfather (show OuterType items none none from rfl)
    hbare hinteger h.height_le
    (s := { jstring := [], jsize := ((size * 2).toInt % 2 ^ 64).toNat })
    (by
      change 0 + 2 * estimate F ≤ ((size * 2).toInt % 2 ^ 64).toNat + 4
      rw [hdouble]
      omega)
  refine ⟨size, s, hsize, hestimate, ?_, hjsize.trans hdouble⟩
  have hdone : (some size).bind (fun size => writeFrom integer libm items items.length
      { jstring := [], jsize := ((size * 2).toInt % 2 ^ 64).toNat } root) = some s := hs
  rw [← hdone, ← hsize]
  rfl

/-- **The block is large enough**: for a tree that is built by parsing, copying, the functions for new
containers and the setters, with numbers in decimal, no store lies beyond index `jsize`, which is twice
the estimate. -/
theorem writeString_room (libm : Libm) {items : List Item} (hreached : Reached items)
    {root : Option Nat} (hroot : ∀ i, root = some i → ∃ it, items[i]? = some it ∧ it.father = none) :
    ∃ F : Forest (Nat × Item), Holds items F root ∧
      ((∀ a ∈ F.nodes, a.2.Bare) → 2 * estimate F < 2 ^ 31 →
        ∃ size s, jsonEvaluateStringSize items root = some size ∧ size.toInt = estimate F ∧
          writeString (fun n => some (decimalText n)) libm items root = some s ∧
          s.jsize = 2 * estimate F) := by
  have hkept := hreached.kept
  obtain ⟨F, hF⟩ : ∃ F, Holds items F root := by
    cases root with
    | none => exact ⟨.nil, rfl⟩
    | some i =>
      obtain ⟨it, hit, -⟩ := hroot i rfl
      obtain ⟨F, hF, -⟩ := hkept.exists_spells (List.getElem?_eq_some_iff.1 hit).1
      exact ⟨F, hF⟩
  refine ⟨F, hF, ?_⟩
  intro hbare hfit
  refine writeString_holds libm hF (hkept.fathered hF hroot) hbare ?_ hfit
  intro a _ _
  exact ⟨_, rfl, length_decimalText_le a.2.integer⟩

/-- An array of a quote and of the least number. -/
def quoteForest : Forest (Nat × Item) :=
  .node (0, { childType := .arr, child := some 1, childHead := some 2 })
    (.node (1, { father := some 0, str := some [34], type := some .string, next := some 2 }) .nil
      (.node (2, { father := some 0, integer := Int64.minValue, type := some .integer }) .nil .nil))
    .nil

/-- Its items. -/
def quoteItems : List Item := quoteForest.nodes.map Prod.snd

/-- The text of that array is stored in a block of 48 bytes and one. -/
theorem writeString_room_quote :
    ∃ size s, jsonEvaluateStringSize quoteItems (some 0) = some size ∧ size.toInt = 24 ∧
      writeString (fun n => some (decimalText n)) exactLibm quoteItems (some 0) = some s ∧
      s.jsize = 48 := by
  have hreached : Reached quoteItems := by
    refine ⟨[.new .array, .set 0 none (.str [34]), .set 0 none (.int Int64.minValue)], ?_, by decide⟩
    refine ⟨trivial, ?_⟩
    rintro _ ⟨⟩
    refine ⟨Nat.succ_pos 0, ?_⟩
    rintro _ ⟨⟩
    exact ⟨Nat.succ_pos 1, fun _ _ => trivial⟩
  obtain ⟨F, hF, hstored⟩ := writeString_room exactLibm hreached
    (show ∀ i, some 0 = some i → ∃ it, quoteItems[i]? = some it ∧ it.father = none by
      rintro i ⟨⟩
      exact ⟨_, rfl, rfl⟩)
  have hquote : Holds quoteItems quoteForest (some 0) :=
    ⟨rfl, rfl, ⟨rfl, rfl, rfl, rfl, rfl, rfl, rfl⟩, rfl⟩
  obtain rfl := Forest.Spells.unique hF hquote
  exact hstored (by decide) (by decide)

end Ape.Json
