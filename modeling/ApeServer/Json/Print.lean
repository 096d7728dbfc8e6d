import ApeServer.Json.Document
import ApeServer.Lib.Decimal

/-!
# Printing a tree

`json_to_string` walks the items and looks for what to print by which field is not zero: a string, an
integer, a float, and only then at the type.  A container prints its opening bracket, its last
member the closing one, and an item without children and without a value prints `0`.

* `integerText` — `LENGTH_N`, the buffer and `itos`;
* `jsonToString` — `json_to_string`;
* `integerText_eq` — **an integer is printed as the unsigned number of its bits, if that fits**;
* `Members.printed` — the text of members, by recursion over them;
* `jsonToString_document` — **the text of the tree of a document**.
-/

namespace Ape.Json

/-! ## Integers -/

/-- What the printer uses of the C library for floating point: `(long int)log10(fabs(num))` for a
number of this magnitude, which is never too small and at most one too large, and what `snprintf`
makes of a `double` with `%Lf`. -/
structure Libm where
  log10 : Nat → Nat
  formatFloat : UInt64 → List UInt8
  log10_enough : ∀ n, n < 10 ^ (log10 n + 1)
  log10_close : ∀ n, log10 n ≤ Nat.log 10 n + 1

/-- `LENGTH_N`. -/
def lengthN (libm : Libm) (num : Int64) : Nat :=
  if num.toInt < 10 ∧ 0 ≤ num.toInt then 1 else libm.log10 num.toInt.natAbs + 1

/-- A write to an array, which has to be inside it. -/
def store (output : List UInt8) (i : Int) (c : UInt8) : Option (List UInt8) :=
  if 0 ≤ i ∧ i < output.length then some (output.set i.toNat c) else none

/-- The loop of `itos`: the array and `i` at its end. -/
def itosLoop (len input i : Nat) (output : List UInt8) : Option (List UInt8 × Nat) :=
  if h : input = 0 then some (output, i)
  else do
    let output ← store output ((len : Int) - i) (UInt8.ofNat (48 + input % 10))
    itosLoop len (input / 10) (i + 1) output
termination_by input
decreasing_by omega

/-- `itos`: the sign is tested on an unsigned number and never found. -/
def itos (input : UInt64) (output : List UInt8) (len : UInt8) : Option (List UInt8 × Nat) := do
  let output ← store output ((len.toNat : Int) - 1) 0
  let (output, i) ← itosLoop len.toNat input.toNat 2 output
  some (output, (((len.toNat : Int) - ((i : Int) - 1)) % 2 ^ 32).toNat)

/-- The branch for integers: `itos` into an array of `LENGTH_N + 2`, and the copy from where it
began up to the final null. -/
def integerText (libm : Libm) (n : Int64) : Option (List UInt8) := do
  let l := lengthN libm n
  let (integerStr, offset) ← itos n.toUInt64 (List.replicate (l + 2) 0) (UInt8.ofNat (l + 2))
  some ((integerStr.drop offset).take (l + 1 - offset))

/-! ## Items -/

/-- `escape_json_string`. -/
def escapeJsonString : List UInt8 → List UInt8
  | [] => []
  | c :: s =>
    (if c = 34 then [92, 34]
    else if c = 39 then [92, 39]
    else if c = 92 then [92, 92]
    else if c = 10 then [92, 110]
    else if c = 8 then [92, 98]
    else if c = 9 then [92, 116]
    else if c = 12 then [92, 102]
    else if c = 13 then [92, 114]
    else [c]) ++ escapeJsonString s

/-- `true`. -/
def trueText : List UInt8 := [116, 114, 117, 101]

/-- `false`. -/
def falseText : List UInt8 := [102, 97, 108, 115, 101]

/-- `null`. -/
def nullText : List UInt8 := [110, 117, 108, 108]

/-- The key of an item. -/
def keyText : Option (List UInt8) → List UInt8
  | some key => 34 :: (key ++ [34, 58])
  | none => []

/-- The value of an item: the first field that is not zero, then the type. -/
def valueText (libm : Libm) (it : Item) : Option (List UInt8) :=
  match it.str with
  | some s => some (34 :: (escapeJsonString s ++ [34]))
  | none =>
    if it.integer ≠ 0 then integerText libm it.integer
    else if it.float ≠ 0 ∧ it.float ≠ 0x8000000000000000 then some ((libm.formatFloat it.float).take 16)
    else if it.type = some .true then some trueText
    else if it.type = some .false then some falseText
    else if it.type = some .null then some nullText
    else if it.child = none then some [48]
    else some []

/-- The bracket a container opens with. -/
def opener : ChildType → List UInt8
  | .obj => [123]
  | .arr => [91]
  | _ => []

/-- The bracket in front of the children of an item. -/
def openBracket (it : Item) : List UInt8 :=
  match it.child with
  | none => []
  | some _ => opener it.childType

/-- The bracket a container closes with. -/
def closer : ChildType → List UInt8
  | .obj => [125]
  | .arr => [93]
  | _ => []

/-- What stands behind an item: a comma, or behind the last one the bracket that closes its
father. -/
def behind (items : List Item) (it : Item) : Option (List UInt8) :=
  match it.father with
  | none => some []
  | some f =>
    if it.next ≠ none then some [44] else (items[f]?).map fun father => closer father.childType

/-- The `while` of `json_to_string`, with the calls for the children; each takes one of `fuel`. -/
def printFrom (libm : Libm) (items : List Item) : Nat → Option Nat → Option (List UInt8)
  | _, none => some []
  | 0, some _ => none
  | fuel + 1, some i => do
    let it ← items[i]?
    let value ← valueText libm it
    let inner ← printFrom libm items fuel it.child
    let after ← behind items it
    let rest ← printFrom libm items fuel it.next
    some (keyText it.key ++ value ++ openBracket it ++ inner ++ after ++ rest)

/-- **`json_to_string`** without freeing: a tree has at most as many items below or behind each
other as there are items. -/
def jsonToString (libm : Libm) (items : List Item) (head : Option Nat) : Option (List UInt8) :=
  printFrom libm items items.length head

/-! ## Integers are printed as unsigned numbers -/

/-- The loop writes the digits in front of what is there, if there is room. -/
theorem itosLoop_eq (len input : Nat) :
    ∀ (i : Nat) (pre suf : List UInt8), len + 1 = i + pre.length →
      itosLoop len input i (pre ++ suf) =
        if (Decimal.text input).length ≤ pre.length then
          some (pre.take (pre.length - (Decimal.text input).length) ++ (Decimal.text input ++ suf),
            i + (Decimal.text input).length)
        else none := by
  induction input using Nat.strong_induction_on with
  | _ input ih =>
    intro i pre suf hlen
    rw [itosLoop]
    by_cases h0 : input = 0
    · subst h0
      simp
    · have hpos : 0 < input := by omega
      have htext := Decimal.text_of_pos hpos
      rw [dif_neg h0]
      rcases List.eq_nil_or_concat pre with rfl | ⟨pre, x, rfl⟩
      · have hlen' : len + 1 = i := hlen
        have hfault : store ([] ++ suf) ((len : Int) - i) (UInt8.ofNat (48 + input % 10)) = none :=
          if_neg (by omega)
        rw [hfault, if_neg (by rw [htext]; simp)]
        rfl
      · rw [List.concat_eq_append, List.length_append, List.length_singleton] at hlen
        have hstore : store ((pre ++ [x]) ++ suf) ((len : Int) - i)
            (UInt8.ofNat (48 + input % 10)) =
              some (pre ++ (Decimal.digit (input % 10) :: suf)) := by
          have hat : ((len : Int) - i).toNat = pre.length := by omega
          rw [store, if_pos ⟨by omega, by simp; omega⟩, hat, List.append_assoc,
            List.set_append_right _ _ le_rfl]
          simp [Decimal.digit]
        rw [List.concat_eq_append, hstore]
        change itosLoop len (input / 10) (i + 1) (pre ++ (Decimal.digit (input % 10) :: suf)) = _
        rw [ih (input / 10) (by omega) (i + 1) pre _ (by omega), htext]
        simp only [List.length_append, List.length_singleton]
        by_cases hfit : (Decimal.text (input / 10)).length ≤ pre.length
        · rw [if_pos hfit, if_pos (by omega), Nat.add_sub_add_right,
            List.take_append_of_le_length (by omega)]
          simp [Nat.add_assoc, Nat.add_comm 1]
        · rw [if_neg hfit, if_neg (by omega)]

/-- `itos` in an array with room for `l + 1` digits. -/
theorem itos_eq (input : UInt64) (l : Nat) (hl : l + 2 < 256) :
    itos input (List.replicate (l + 2) 0) (UInt8.ofNat (l + 2)) =
      if (Decimal.text input.toNat).length ≤ l + 1 then
        some (List.replicate (l + 1 - (Decimal.text input.toNat).length) 0 ++
            (Decimal.text input.toNat ++ [0]),
          l + 1 - (Decimal.text input.toNat).length)
      else none := by
  have hlen : (UInt8.ofNat (l + 2)).toNat = l + 2 := by simp [Nat.mod_eq_of_lt hl]
  have hstore : store (List.replicate (l + 2) 0) (((l + 2 : Nat) : Int) - 1) 0 =
      some (List.replicate (l + 1) 0 ++ [0]) := by
    rw [store, if_pos ⟨by omega, by simp⟩, ← List.replicate_succ']
    congr 1
    exact List.set_replicate_self
  have hloop := itosLoop_eq (l + 2) input.toNat 2 (List.replicate (l + 1) 0) [0] (by simp; omega)
  rw [List.length_replicate, List.take_replicate] at hloop
  unfold itos
  simp only [hlen, hstore, bind, Option.bind_some, hloop]
  by_cases hfit : (Decimal.text input.toNat).length ≤ l + 1
  · have hoffset : ((((l + 2 : Nat) : Int) -
        (((2 + (Decimal.text input.toNat).length : Nat) : Int) - 1)) % 2 ^ 32).toNat =
          l + 1 - (Decimal.text input.toNat).length := by
      omega
    rw [if_pos hfit, if_pos hfit, Option.bind_some, hoffset, Nat.min_eq_left (Nat.sub_le ..)]
  · rw [if_neg hfit, if_neg hfit, Option.bind_none]

theorem lengthN_lt (libm : Libm) (n : Int64) : lengthN libm n + 2 < 256 := by
  unfold lengthN
  split
  · omega
  · have hclose := libm.log10_close n.toInt.natAbs
    have hlog : Nat.log 10 n.toInt.natAbs ≤ Nat.log 10 (2 ^ 63) := by
      have hmin := Int64.le_toInt n
      have hmax := Int64.toInt_lt n
      exact Nat.log_mono_right (by omega)
    have htop : Nat.log 10 (2 ^ 63) < 19 := Nat.log_lt_of_lt_pow (by norm_num) (by norm_num)
    omega

/-- **An integer is printed as the unsigned number of its bits**, if its digits fit in the array;
else they are written in front of it. -/
theorem integerText_eq (libm : Libm) (n : Int64) :
    integerText libm n =
      if (Decimal.text n.toUInt64.toNat).length ≤ lengthN libm n + 1 then
        some (Decimal.text n.toUInt64.toNat)
      else none := by
  unfold integerText
  simp only [itos_eq n.toUInt64 _ (lengthN_lt libm n), bind]
  split
  case isTrue hfit =>
    simp only [Option.bind_some, List.drop_append, List.length_replicate, Nat.sub_self, List.drop_zero,
      List.drop_replicate, List.replicate_zero, List.nil_append]
    rw [show ∀ k, k ≤ lengthN libm n + 1 → lengthN libm n + 1 - (lengthN libm n + 1 - k) = k by omega]
    · simp
    · exact hfit
  case isFalse => rfl

/-- A number is what its 64 bits say in two's complement. -/
theorem toInt_eq_bits (n : Int64) :
    n.toInt = if 2 * n.toUInt64.toNat < 2 ^ 64 then (n.toUInt64.toNat : Int)
      else (n.toUInt64.toNat : Int) - 2 ^ 64 :=
  BitVec.toInt_eq_toNat_cond n.toBitVec

/-- A positive number is printed in decimal. -/
theorem integerText_of_pos (libm : Libm) {n : Int64} (h : 0 < n.toInt) :
    integerText libm n = some (Decimal.text n.toInt.toNat) := by
  have hbits : n.toUInt64.toNat = n.toInt.toNat := by
    have hlt := n.toUInt64.toNat_lt
    have hbits := toInt_eq_bits n
    split at hbits <;> omega
  rw [integerText_eq, hbits, if_pos]
  rw [Decimal.length_text_le_iff]
  unfold lengthN
  split
  case isTrue hsmall => omega
  case isFalse =>
    have henough := libm.log10_enough n.toInt.natAbs
    have habs : n.toInt.natAbs = n.toInt.toNat := by omega
    rw [habs] at henough ⊢
    exact henough.trans_le (Nat.pow_le_pow_right (by norm_num) (Nat.le_succ _))

/-- What is printed for a negative number spells one that is out of range. -/
theorem integerText_of_neg {libm : Libm} {n : Int64} {text : List UInt8} (h : n.toInt < 0)
    (htext : integerText libm n = some text) : ∃ k, 2 ^ 63 ≤ k ∧ text = Decimal.text k := by
  rw [integerText_eq] at htext
  split at htext
  case isTrue =>
    refine ⟨n.toUInt64.toNat, ?_, (Option.some.inj htext).symm⟩
    have hbits := toInt_eq_bits n
    split at hbits <;> omega
  case isFalse => exact absurd htext (by simp)

/-! ## The text of a document -/

/-- What is printed for a scalar. -/
def Scalar.printed (libm : Libm) (value : Scalar) : Option (List UInt8) :=
  valueText libm (Item.setValue value {})

/-- Only the fields of the value and the children are looked at. -/
theorem valueText_scalarItem (libm : Libm) (father : Nat) (key : Option (List UInt8))
    (value : Scalar) (next : Option Nat) :
    valueText libm (scalarItem father key value next) = value.printed libm := by
  cases value <;> rfl

namespace Members

/-- What stands in front of these members when others do, or the bracket behind the last. -/
def separator : {kind : Kind} → Members kind → List UInt8
  | kind, nil => closer kind.childType
  | _, scalar .. => [44]
  | _, nest .. => [44]

/-- The text of a container whose members are printed as `text`: `0` without any. -/
def boxed {kind : Kind} (m : Members kind) (text : List UInt8) : List UInt8 :=
  match m with
  | nil => [48]
  | scalar .. => opener kind.childType ++ text
  | nest .. => opener kind.childType ++ text

/-- What is printed for the members of a container, with the bracket behind the last. -/
def printed (libm : Libm) : {kind : Kind} → Members kind → Option (List UInt8)
  | _, nil => some []
  | kind, scalar label value rest => do
    let value ← value.printed libm
    let after ← rest.printed libm
    some (keyText (kind.key label) ++ value ++ rest.separator ++ after)
  | kind, nest label _ members rest => do
    let inside ← members.printed libm
    let after ← rest.printed libm
    some (keyText (kind.key label) ++ members.boxed inside ++ rest.separator ++ after)

/-- The pointer to members that are spelled out is null exactly if there are none. -/
theorem Mirrored.eq_none_iff {items : List Item} {father : Nat} {kind : Kind} {m : Members kind}
    {p : Option Nat} (h : m.Mirrored items father p) : p = none ↔ m = nil := by
  cases m with
  | nil => exact iff_of_true h rfl
  | scalar label value rest =>
    obtain ⟨i, next, rfl, -⟩ := h
    exact iff_of_false (by simp) (by simp)
  | nest label inner members rest =>
    obtain ⟨i, child, next, rfl, -⟩ := h
    exact iff_of_false (by simp) (by simp)

/-- What stands behind an item in front of these members. -/
theorem behind_eq {items : List Item} {father : Nat} {kind : Kind} {rest : Members kind}
    {it fit : Item} (hrest : rest.Mirrored items father it.next) (hfather : it.father = some father)
    (hfit : items[father]? = some fit) (htype : fit.childType = kind.childType) :
    behind items it = some rest.separator := by
  unfold behind
  rw [hfather]
  cases rest with
  | nil =>
    have hnext : it.next = none := hrest
    simp [hnext, hfit, htype, separator]
  | scalar label value rest =>
    have hnext : it.next ≠ none := fun h => absurd (hrest.eq_none_iff.1 h) (by simp)
    simp [hnext, separator]
  | nest label inner members rest =>
    have hnext : it.next ≠ none := fun h => absurd (hrest.eq_none_iff.1 h) (by simp)
    simp [hnext, separator]

/-- The value and the bracket of a container. -/
theorem boxed_eq (libm : Libm) {items : List Item} {i : Nat} {inner : Kind} {m : Members inner}
    {father : Option Nat} {key : Option (List UInt8)} {child next : Option Nat}
    (hm : m.Mirrored items i child) :
    ∃ value, valueText libm (containerItem father key inner child next) = some value ∧
      ∀ text, m.printed libm = some text →
        value ++ openBracket (containerItem father key inner child next) ++ text =
          m.boxed text := by
  by_cases hchild : child = none
  · obtain rfl := hm.eq_none_iff.1 hchild
    subst hchild
    refine ⟨[48], rfl, ?_⟩
    rintro _ ⟨⟩
    rfl
  · obtain ⟨j, rfl⟩ := Option.ne_none_iff_exists'.1 hchild
    refine ⟨[], rfl, ?_⟩
    · intro text _
      cases m with
      | nil => exact absurd (hm.eq_none_iff.2 rfl) hchild
      | scalar label value rest => rfl
      | nest label inner members rest => rfl

/-- **The text of members**: the walk over their items prints them, with as much fuel as there are
members. -/
theorem printFrom_mirrored (libm : Libm) {items : List Item} {father : Nat} {kind : Kind}
    (m : Members kind) {fit : Item} (hfit : items[father]? = some fit)
    (htype : fit.childType = kind.childType) {p : Option Nat} (hm : m.Mirrored items father p)
    {fuel : Nat} (hfuel : m.size ≤ fuel) : printFrom libm items fuel p = m.printed libm := by
  induction m generalizing father fit p fuel with
  | nil =>
    obtain rfl : p = none := hm
    cases fuel <;> rfl
  | @scalar kind label value rest ih =>
    obtain ⟨i, next, rfl, hit, hrest⟩ := hm
    obtain ⟨fuel, rfl⟩ : ∃ k, fuel = k + 1 := Nat.exists_eq_add_one.2 (by simp [size] at hfuel; omega)
    have hlinks := setValue_links value { father := some father, next, key := kind.key label }
    have hnext : (scalarItem father (kind.key label) value next).next = next := hlinks.2.1
    have hchild : (scalarItem father (kind.key label) value next).child = none := hlinks.1
    have hkey : (scalarItem father (kind.key label) value next).key = kind.key label := by
      cases value <;> rfl
    have hbehind : behind items (scalarItem father (kind.key label) value next) =
        some rest.separator := behind_eq (hnext.symm ▸ hrest) hlinks.2.2 hfit htype
    have hafter : printFrom libm items fuel next = rest.printed libm :=
      ih hfit htype hrest (by simp [size] at hfuel; omega)
    have hinside : printFrom libm items fuel none = some [] := by cases fuel <;> rfl
    rw [printFrom, hit]
    have hbracket : openBracket (scalarItem father (kind.key label) value next) = [] := by
      rw [openBracket, hchild]
    simp only [bind, Option.bind_some, hnext, hchild, hkey, hbehind, hafter, hinside, hbracket,
      valueText_scalarItem]
    rw [printed]
    cases value.printed libm with
    | none => rfl
    | some text =>
      cases rest.printed libm with
      | none => rfl
      | some after => simp
  | @nest kind label inner members rest ihm ihr =>
    obtain ⟨i, child, next, rfl, hit, hmembers, hrest⟩ := hm
    obtain ⟨fuel, rfl⟩ : ∃ k, fuel = k + 1 := Nat.exists_eq_add_one.2 (by simp [size] at hfuel; omega)
    have hinside : printFrom libm items fuel child = members.printed libm :=
      ihm hit rfl hmembers (by simp [size] at hfuel; omega)
    have hafter : printFrom libm items fuel next = rest.printed libm :=
      ihr hfit htype hrest (by simp [size] at hfuel; omega)
    have hbehind : behind items (containerItem (some father) (kind.key label) inner child next) =
        some rest.separator := behind_eq hrest rfl hfit htype
    obtain ⟨value, hvalue, hboxed⟩ : ∃ value,
        valueText libm (containerItem (some father) (kind.key label) inner child next) = some value ∧
          ∀ text, members.printed libm = some text →
            value ++ openBracket (containerItem (some father) (kind.key label) inner child next) ++
              text = members.boxed text := boxed_eq libm hmembers
    rw [printFrom, hit, printed]
    simp only [bind, Option.bind_some, hvalue]
    change (printFrom libm items fuel child).bind _ = _
    rw [hinside]
    cases htext : members.printed libm with
    | none => rfl
    | some text =>
      rw [Option.bind_some, hbehind, Option.bind_some]
      change (printFrom libm items fuel next).bind _ = _
      rw [hafter]
      cases rest.printed libm with
      | none => rfl
      | some after =>
        rw [Option.bind_some, Option.bind_some, Option.bind_some, ← hboxed text htext]
        simp [containerItem]

end Members

/-- **The text of the tree of a document.** -/
theorem jsonToString_document (libm : Libm) {kind : Kind} (m : Members kind) :
    jsonToString libm (documentItems m) (some 0) = (m.printed libm).map m.boxed := by
  have hmirrored : m.Mirrored (documentItems m) 0 (m.first 1) := by
    have h := m.mirrored_layout 0 [containerItem none none kind (m.first 1) none] []
    rwa [List.append_nil] at h
  have hroot : (documentItems m)[0]? = some (containerItem none none kind (m.first 1) none) := rfl
  have hlen : (documentItems m).length = m.size + 1 := by
    simp [documentItems, Members.length_layout]
  obtain ⟨value, hvalue, hboxed⟩ : ∃ value,
      valueText libm (containerItem none none kind (m.first 1) none) = some value ∧
        ∀ text, m.printed libm = some text →
          value ++ openBracket (containerItem none none kind (m.first 1) none) ++ text =
            m.boxed text :=
    Members.boxed_eq libm hmirrored
  have hinside : printFrom libm (documentItems m) m.size (m.first 1) = m.printed libm :=
    Members.printFrom_mirrored libm m hroot rfl hmirrored le_rfl
  have hnext : printFrom libm (documentItems m) m.size none = some [] := by
    cases m.size <;> rfl
  rw [jsonToString, hlen, printFrom, hroot]
  simp only [bind, Option.bind_some, hvalue]
  change (printFrom libm (documentItems m) m.size (m.first 1)).bind _ = _
  rw [hinside]
  cases htext : m.printed libm with
  | none => rfl
  | some text =>
    change (printFrom libm (documentItems m) m.size none).bind _ = _
    rw [hnext]
    rw [Option.map_some, ← hboxed text htext]
    simp [containerItem, keyText]

end Ape.Json
