import Mathlib.Data.List.Basic

/-!
# A buffer

`buffer` of `ape_buffer.h` and the functions through which a socket reads into one.

* `Buffer` — the bytes in use, in memory of a given size;
* `prepare`, `store`, `clear` — make room, store into the room there is, and start again.
-/

namespace Ape

/-- `buffer`: the first `used` bytes of `data`, in memory of `size` bytes. -/
structure Buffer where
  data : List UInt8
  size : Nat
  fits : data.length ≤ size
  deriving DecidableEq

namespace Buffer

/-- `b->used`. -/
def used (b : Buffer) : Nat := b.data.length

/-- `b->size - b->used`. -/
def free (b : Buffer) : Nat := b.size - b.used

/-- An empty buffer; `buffer_init` makes one of size 0. -/
def empty (size : Nat) : Buffer := ⟨[], size, Nat.zero_le size⟩

/-- `buffer_prepare`. -/
def prepare (n : Nat) (b : Buffer) : Buffer :=
  if b.size = 0 then empty n
  else if b.size < b.used + n then ⟨b.data, b.size + n, Nat.le_add_right_of_le b.fits⟩
  else b

/-- Bytes that are stored behind those in use; no more than there is room for. -/
def store (bytes : List UInt8) (b : Buffer) : Buffer :=
  ⟨b.data ++ bytes.take b.free, b.size, by
    have hfits := b.fits
    simp only [List.length_append, List.length_take, free, used]
    omega⟩

/-- `b->used = 0`. -/
def clear (b : Buffer) : Buffer := empty b.size

variable {b : Buffer}

@[simp] theorem data_empty (size : Nat) : (empty size).data = [] := rfl

@[simp] theorem used_empty (size : Nat) : (empty size).used = 0 := rfl

@[simp] theorem used_clear : b.clear.used = 0 := rfl

@[simp] theorem data_store (bytes : List UInt8) :
    (b.store bytes).data = b.data ++ bytes.take b.free := rfl

theorem used_add_free : b.used + b.free = b.size := Nat.add_sub_of_le b.fits

theorem used_eq_zero : b.used = 0 ↔ b.data = [] := List.length_eq_zero_iff

/-- Room is made without touching the bytes in use. -/
@[simp] theorem data_prepare (n : Nat) : (b.prepare n).data = b.data := by
  unfold prepare
  split_ifs with hzero
  · have hfits := b.fits
    rw [hzero, Nat.le_zero, List.length_eq_zero_iff] at hfits
    exact hfits.symm
  · rfl
  · rfl

/-- **Behind `buffer_prepare` there is room** for what it was asked for. -/
theorem le_free_prepare (n : Nat) : n ≤ (b.prepare n).free := by
  have hfits := b.fits
  unfold prepare
  split_ifs with hzero hfull
  · exact Nat.le_refl n
  · simp only [free, used] at hfull ⊢
    omega
  · simp only [free, used] at hfull ⊢
    omega

end Buffer

end Ape
