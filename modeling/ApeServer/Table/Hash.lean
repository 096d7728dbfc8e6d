import ApeServer.Lib.CString
import ApeServer.Lib.Links

/-!
# The hash tables of `ape_hash.c`

An item of a table is a node of two lists: the chain of its bucket, linked by `next`, and the list
of all items, linked by `lnext` and `lprev`.  The memory gives the item at an address; an access to
an address without one is an access to freed memory, which ends the run.

* `murmurHash2`, `KeyOps` — how a table of either type finds the bucket and compares keys;
* `append`, `erase`, `seek` — what the functions for the two types have in common;
* `hashtblAppend`, `hashtblAppend64` and so on — the functions of the source;
* `Op`, `run` — sequences of calls.
-/

namespace Ape.Table

open CString Links

/-! ## Keys -/

/-- `MurmurHash2`, behind the first line: the bytes four at a time, and the rest. -/
def murmurMix : List UInt8 → UInt32 → UInt32
  | a :: b :: c :: d :: data, h =>
    let k := a.toUInt32 ||| b.toUInt32 <<< 8 ||| c.toUInt32 <<< 16 ||| d.toUInt32 <<< 24
    let k := k * 0x5bd1e995
    let k := k ^^^ (k >>> 24)
    let k := k * 0x5bd1e995
    murmurMix data (h * 0x5bd1e995 ^^^ k)
  | [a, b, c], h => (h ^^^ c.toUInt32 <<< 16 ^^^ b.toUInt32 <<< 8 ^^^ a.toUInt32) * 0x5bd1e995
  | [a, b], h => (h ^^^ b.toUInt32 <<< 8 ^^^ a.toUInt32) * 0x5bd1e995
  | [a], h => (h ^^^ a.toUInt32) * 0x5bd1e995
  | [], h => h

/-- `MurmurHash2`. -/
def murmurHash2 (key : List UInt8) (seed : UInt32) : UInt32 :=
  let h := murmurMix key (seed ^^^ UInt32.ofNat key.length)
  let h := h ^^^ (h >>> 13)
  let h := h * 0x5bd1e995
  h ^^^ (h >>> 15)

/-- `HACH_TABLE_MAX`. -/
def hachTableMax : Nat := 8192

/-- `ape_hash_str`. -/
def apeHashStr (seed : UInt32) (key : List UInt8) : Nat := (murmurHash2 key seed).toNat % hachTableMax

/-- A key string, without the zero behind it.  Its length is passed as an `int`. -/
structure StrKey where
  bytes : List UInt8
  noNul : 0 ∉ bytes
  short : bytes.length < 2 ^ 31

/-- `ape_hash_type`. -/
inductive ApeHashType where
  | str
  | int
  deriving DecidableEq, Repr

/-- The key of an item, the member of the union that the type of the table stands for. -/
def Key : ApeHashType → Type
  | .str => StrKey
  | .int => UInt64

/-- The bucket of a key, and whether two keys are the same. -/
structure KeyOps (κ : Type) where
  bucket : κ → Nat
  same : κ → κ → Bool
  equivalence : Equivalence fun k k' => same k k' = true

/-- Strings are hashed byte for byte and compared ignoring case. -/
def strKeys (seed : UInt32) : KeyOps StrKey where
  bucket k := apeHashStr seed k.bytes
  same k k' := strcasecmp k.bytes k'.bytes
  equivalence := by
    simp only [strcasecmp_iff]
    exact ⟨fun _ => rfl, fun h => h.symm, fun h h' => h.trans h'⟩

/-- Integers. -/
def intKeys : KeyOps UInt64 where
  bucket k := k.toNat % hachTableMax
  same k k' := k == k'
  equivalence := by
    simp only [beq_iff_eq]
    exact ⟨fun _ => rfl, fun h => h.symm, fun h h' => h.trans h'⟩

/-- How a table of a type handles its keys. -/
def keyOps (seed : UInt32) : (type : ApeHashType) → KeyOps (Key type)
  | .str => strKeys seed
  | .int => intKeys

/-! ## Tables -/

/-- `ape_htable_item_t`. -/
structure HtableItem (κ α : Type) where
  key : κ
  addrs : Option α
  next : Option Nat
  lnext : Option Nat
  lprev : Option Nat

/-- `ape_htable_t` and the memory of its items, all of which are below `brk`. -/
structure Htable (κ α : Type) where
  mem : Nat → Option (HtableItem κ α)
  brk : Nat
  first : Option Nat
  table : Nat → Option Nat

section Operations

variable {κ α : Type}

namespace Htable

/-- `hashtbl_init`. -/
def init : Htable κ α := ⟨fun _ => none, 0, none, fun _ => none⟩

/-- A store to an item. -/
def store (a : Nat) (f : HtableItem κ α → HtableItem κ α) (h : Htable κ α) : Option (Htable κ α) :=
  (h.mem a).map fun it => { h with mem := Function.update h.mem a (some (f it)) }

/-- A store through a pointer that may be `NULL`, which is tested first. -/
def storeIf (p : Option Nat) (f : HtableItem κ α → HtableItem κ α) (h : Htable κ α) :
    Option (Htable κ α) :=
  p.elim (some h) fun a => h.store a f

/-- The address that `malloc` returns: `at` when it is free, else one that was never in use. -/
def mallocAddr (at' : Nat) (h : Htable κ α) : Nat := if (h.mem at').isNone then at' else h.brk

/-- `malloc` of an item. -/
def malloc (a : Nat) (it : HtableItem κ α) (h : Htable κ α) : Htable κ α :=
  { h with mem := Function.update h.mem a (some it), brk := max h.brk (a + 1) }

/-- `free`. -/
def free (a : Nat) (h : Htable κ α) : Htable κ α :=
  { h with mem := Function.update h.mem a none }

/-- `htbl->table[i] = p`. -/
def setBucket (i : Nat) (p : Option Nat) (h : Htable κ α) : Htable κ α :=
  { h with table := Function.update h.table i p }

end Htable

open Htable

/-- The loop of all functions over the chain of a bucket: the item with a key, if there is one, and
the item before it. -/
def findKey (K : KeyOps κ) (h : Htable κ α) (key : κ) : Option (Option (Nat × Option Nat)) :=
  search h.mem HtableItem.next (fun it => K.same it.key key) h.brk (h.table (K.bucket key)) none

/-- `hashtbl_append`, `hashtbl_append64`: the new item is linked to the list of all items before the
chain of its bucket is searched for the key. -/
def append (K : KeyOps κ) (at' : Nat) (key : κ) (structaddr : Option α) (h : Htable κ α) :
    Option (Htable κ α) := do
  let hTmp := h.mallocAddr at'
  let first := h.first
  let h := h.malloc hTmp ⟨key, structaddr, none, first, none⟩
  let h ← h.storeIf first fun it => { it with lprev := some hTmp }
  match ← findKey K h key with
  | some (hDbl, _) => (h.free hTmp).store hDbl fun it => { it with addrs := structaddr }
  | none =>
    let h ← h.store hTmp fun it => { it with next := h.table (K.bucket key) }
    return { h with first := some hTmp }.setBucket (K.bucket key) (some hTmp)

/-- `hashtbl_erase`, `hashtbl_erase64`.  No store before `free` is to the item that goes. -/
def erase (K : KeyOps κ) (key : κ) (h : Htable κ α) : Option (Htable κ α) := do
  match ← findKey K h key with
  | none => return h
  | some (hTmp, hPrev) =>
    let it ← h.mem hTmp
    let h ← hPrev.elim (some (h.setBucket (K.bucket key) it.next)) fun a =>
      h.store a fun it' => { it' with next := it.next }
    let h ← it.lprev.elim (some { h with first := it.lnext }) fun a =>
      h.store a fun it' => { it' with lnext := it.lnext }
    let h ← h.storeIf it.lnext fun it' => { it' with lprev := it.lprev }
    return h.free hTmp

/-- `hashtbl_seek`, `hashtbl_seek64`: `none` inside is `NULL`. -/
def seek (K : KeyOps κ) (key : κ) (h : Htable κ α) : Option (Option α) := do
  match ← findKey K h key with
  | none => return none
  | some (hTmp, _) =>
    let it ← h.mem hTmp
    return it.addrs

end Operations

section Functions

variable {α : Type} (seed : UInt32)

/-- `hashtbl_append`; a key that is `NULL` is left out. -/
def hashtblAppend (at' : Nat) (key : Option StrKey) (structaddr : Option α)
    (h : Htable StrKey α) : Option (Htable StrKey α) :=
  key.elim (some h) fun key => append (strKeys seed) at' key structaddr h

/-- `hashtbl_append64`. -/
def hashtblAppend64 (at' : Nat) (key : UInt64) (structaddr : Option α) (h : Htable UInt64 α) :
    Option (Htable UInt64 α) :=
  append intKeys at' key structaddr h

/-- `hashtbl_erase`. -/
def hashtblErase (key : Option StrKey) (h : Htable StrKey α) : Option (Htable StrKey α) :=
  key.elim (some h) fun key => erase (strKeys seed) key h

/-- `hashtbl_erase64`. -/
def hashtblErase64 (key : UInt64) (h : Htable UInt64 α) : Option (Htable UInt64 α) :=
  erase intKeys key h

/-- `hashtbl_seek`. -/
def hashtblSeek (key : Option StrKey) (h : Htable StrKey α) : Option (Option α) :=
  key.elim (some none) fun key => seek (strKeys seed) key h

/-- `hashtbl_seek64`. -/
def hashtblSeek64 (key : UInt64) (h : Htable UInt64 α) : Option (Option α) :=
  seek intKeys key h

end Functions

/-! ## Sequences of calls -/

/-- The key that a function for a type takes. -/
def Arg : ApeHashType → Type
  | .str => Option StrKey
  | .int => UInt64

/-- The key of an argument, unless it is `NULL`. -/
def Arg.key : {type : ApeHashType} → Arg type → Option (Key type)
  | .str, key => key
  | .int, key => some key

/-- A call that changes a table; `at'` is where `malloc` would put an item. -/
inductive Call (type : ApeHashType) (α : Type) where
  | append (at' : Nat) (key : Arg type) (structaddr : Option α)
  | erase (key : Arg type)

section Calls

variable {α : Type} (seed : UInt32)

/-- A call to the function for the type of the table. -/
def Call.apply : {type : ApeHashType} → Call type α → Htable (Key type) α →
    Option (Htable (Key type) α)
  | .str, .append at' key structaddr => hashtblAppend seed at' key structaddr
  | .str, .erase key => hashtblErase seed key
  | .int, .append at' key structaddr => hashtblAppend64 at' key structaddr
  | .int, .erase key => hashtblErase64 key

/-- A sequence of calls on a new table. -/
def run {type : ApeHashType} (calls : List (Call type α)) : Option (Htable (Key type) α) :=
  calls.foldlM (fun h call => call.apply seed h) .init

variable {type : ApeHashType}

theorem apply_append (at' : Nat) (key : Arg type) (structaddr : Option α)
    (h : Htable (Key type) α) :
    (Call.append at' key structaddr).apply seed h =
      key.key.elim (some h) fun key => append (keyOps seed type) at' key structaddr h := by
  cases type <;> rfl

theorem apply_erase (key : Arg type) (h : Htable (Key type) α) :
    (Call.erase key).apply seed h =
      key.key.elim (some h) fun key => erase (keyOps seed type) key h := by
  cases type <;> rfl

end Calls

end Ape.Table
