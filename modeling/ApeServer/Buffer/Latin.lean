import ApeServer.Buffer.Basic
import ApeServer.Lib.CString
import Mathlib.Data.List.Flatten
import Mathlib.Tactic.NormNum

/-!
# Latin-1 and UTF-8

Two functions copy a buffer into a new one and convert it: one takes every byte for a code point and
writes it in UTF-8, the other reads UTF-8 and writes a question mark for what is no byte.  Both count
the bytes that are left in an `int`.

* `bufferToBufferUtf8`, `bufferUtf8ToBuffer` — the functions of `ape_buffer.c`; a read at or behind
  `used` and a write at or behind the size are `none`;
* `bufferUtf8ToBuffer_bounded` — the second ends, on any bytes, and reads and writes in bounds;
* `bufferUtf8ToBuffer_chars` — what it makes of well-formed UTF-8;
* `convertsLatin_iff` — **both convert as they should exactly below 2 GiB of UTF-8**.
-/

namespace Ape

/-! ## The functions -/

/-- `newb->data[newb->used++] = c`, which has to be inside the block. -/
def Buffer.put (b : Buffer) (c : UInt8) : Option Buffer :=
  if h : b.used < b.size then some ⟨b.data ++ [c], b.size, by rwa [List.length_append]⟩ else none

/-- The final NUL, and the block cut to what is in use. -/
def Buffer.finish (b : Buffer) : Option Buffer :=
  if b.used < b.size then some ⟨b.data, b.used + 1, Nat.le_succ _⟩ else none

/-- `int pos = b->used`. -/
def intOf (n : Nat) : Int := (n : Int).bmod (2 ^ 32)

/-- The bytes a code point is written as. -/
def utf8Bytes (c : Nat) : List UInt8 :=
  if c < 0x80 then [.ofNat c]
  else if c < 0x800 then [.ofNat (0xc0 ||| (c >>> 6)), .ofNat (0x80 ||| (c &&& 0x3f))]
  else if c < 0x10000 then
    [.ofNat (0xe0 ||| (c >>> 12)), .ofNat (0xc0 ||| ((c >>> 6) &&& 0x3f)),
      .ofNat (0x80 ||| (c &&& 0x3f))]
  else if c < 0x200000 then
    [.ofNat (0xf0 ||| (c >>> 18)), .ofNat (0xe0 ||| ((c >>> 12) &&& 0x3f)),
      .ofNat (0xc0 ||| ((c >>> 6) &&& 0x3f)), .ofNat (0x80 ||| (c &&& 0x3f))]
  else []

/-- The loop of `buffer_to_buffer_utf8`. -/
def toUtf8Loop (data : List UInt8) (pos : Int) (s : Nat) (newb : Buffer) : Option Buffer :=
  if 0 < pos then do
    let c ← data[s]?
    let newb ← (utf8Bytes c.toNat).foldlM Buffer.put newb
    toUtf8Loop data (pos - 1) (s + 1) newb
  else some newb
termination_by pos.toNat
decreasing_by omega

/-- **`buffer_to_buffer_utf8`**. -/
def bufferToBufferUtf8 (b : Buffer) : Option Buffer := do
  let newb ← toUtf8Loop b.data (intOf b.used) 0 (.empty (b.used * 4 + 1))
  newb.finish

/-- How many bytes a character takes, by its first. -/
def leadWidth (c : UInt8) : Nat :=
  if 0xf0 ≤ c then 4 else if 0xe0 ≤ c then 3 else if 0xc0 ≤ c then 2 else 1

/-- The code point at `s`, of which `c` is the first byte; a question mark if it is cut off. -/
def codeAt (data : List UInt8) (pos : Int) (s : Nat) (c : UInt8) : Option Nat :=
  if 0xf0 ≤ c then
    if 0 ≤ pos - 4 then do
      let c₁ ← data[s + 1]?
      let c₂ ← data[s + 2]?
      let c₃ ← data[s + 3]?
      some (((c.toNat &&& 7) <<< 18) ||| ((c₁.toNat &&& 63) <<< 12) ||| ((c₂.toNat &&& 63) <<< 6) |||
        (c₃.toNat &&& 63))
    else some 63
  else if 0xe0 ≤ c then
    if 0 ≤ pos - 3 then do
      let c₁ ← data[s + 1]?
      let c₂ ← data[s + 2]?
      some (((c.toNat &&& 63) <<< 12) ||| ((c₁.toNat &&& 63) <<< 6) ||| (c₂.toNat &&& 63))
    else some 63
  else if 0xc0 ≤ c then
    if 0 ≤ pos - 2 then do
      let c₁ ← data[s + 1]?
      some (((c.toNat &&& 63) <<< 6) ||| (c₁.toNat &&& 63))
    else some 63
  else some c.toNat

/-- The byte of a code point, or a question mark. -/
def latinByte (c : Nat) : UInt8 := if 0xff < c then 63 else .ofNat c

theorem leadWidth_pos (c : UInt8) : 0 < leadWidth c := by
  unfold leadWidth
  split_ifs <;> omega

/-- The loop of `buffer_utf8_to_buffer`. -/
def fromUtf8Loop (data : List UInt8) (pos : Int) (s : Nat) (newb : Buffer) : Option Buffer :=
  if 0 < pos then do
    let c ← data[s]?
    let code ← codeAt data pos s c
    let newb ← newb.put (latinByte code)
    fromUtf8Loop data (pos - leadWidth c) (s + leadWidth c) newb
  else some newb
termination_by pos.toNat
decreasing_by
  have := leadWidth_pos c
  omega

/-- **`buffer_utf8_to_buffer`**. -/
def bufferUtf8ToBuffer (b : Buffer) : Option Buffer := do
  let newb ← fromUtf8Loop b.data (intOf b.used) 0 (.empty (b.used + 1))
  newb.finish

/-! ## What is counted -/

/-- The number of bytes is never counted as more than it is. -/
theorem intOf_le (n : Nat) : intOf n ≤ n := by
  unfold intOf
  rw [Int.bmod_def]
  split <;> omega

/-- Below 2 GiB it is counted right. -/
theorem intOf_eq {n : Nat} (h : n < 2 ^ 31) : intOf n = n := by
  unfold intOf
  rw [Int.bmod_def]
  split <;> omega

/-- From 2 GiB on an `int` counts fewer bytes than there are. -/
theorem intOf_lt {n : Nat} (h : 2 ^ 31 ≤ n) : intOf n < n := by
  unfold intOf
  rw [Int.bmod_def]
  split <;> omega

/-- From there on, below 4 GiB, as a negative number. -/
theorem intOf_neg {n : Nat} (h : 2 ^ 31 ≤ n) (htop : n < 2 ^ 32) : intOf n < 0 := by
  unfold intOf
  rw [Int.bmod_def]
  split <;> omega

theorem intOf_lt_top (n : Nat) : intOf n < 2 ^ 31 := by
  unfold intOf
  rw [Int.bmod_def]
  split <;> omega

/-! ## Writing -/

/-- One byte for which there is room. -/
theorem put_room {b : Buffer} (c : UInt8) (hroom : b.used < b.size) :
    ∃ b', b.put c = some b' ∧ b'.data = b.data ++ [c] ∧ b'.size = b.size :=
  ⟨⟨b.data ++ [c], b.size, by rwa [List.length_append]⟩, dif_pos hroom, rfl, rfl⟩

/-- Bytes for which there is room. -/
theorem foldlM_put (bytes : List UInt8) {b : Buffer} (hroom : b.used + bytes.length ≤ b.size) :
    ∃ b', bytes.foldlM Buffer.put b = some b' ∧ b'.data = b.data ++ bytes ∧ b'.size = b.size := by
  induction bytes generalizing b with
  | nil => exact ⟨b, rfl, (List.append_nil _).symm, rfl⟩
  | cons c bytes ih =>
    rw [List.length_cons] at hroom
    have hlt : b.used < b.size := by omega
    obtain ⟨b₁, hput, hdata₁, hsize₁⟩ := put_room c hlt
    have hused₁ : b₁.used = b.used + 1 := by rw [Buffer.used, hdata₁, List.length_append]; rfl
    obtain ⟨b', hfold, hdata, hsize⟩ := ih (b := b₁) (by omega)
    refine ⟨b', ?_, ?_, hsize.trans hsize₁⟩
    · rw [List.foldlM_cons, hput]
      exact hfold
    · rw [hdata, hdata₁, List.append_assoc, List.singleton_append]

/-- The zero at the end is stored if there is room, and the bytes in use stay as they are. -/
theorem finish_room {b : Buffer} (hroom : b.used < b.size) :
    ∃ b', b.finish = some b' ∧ b'.data = b.data :=
  ⟨⟨b.data, b.used + 1, Nat.le_succ _⟩, if_pos hroom, rfl⟩

/-! ## The first function -/

/-- A byte below `0x80` takes one byte of UTF-8, and any other one takes two. -/
theorem length_utf8Bytes (c : UInt8) :
    (utf8Bytes c.toNat).length = if 0x80 ≤ c then 2 else 1 := by
  revert c
  apply CString.forall_byte <;> decide

theorem length_flatMap_utf8Bytes (data : List UInt8) :
    (data.flatMap fun c => utf8Bytes c.toNat).length =
      data.length + data.countP (0x80 ≤ ·) := by
  induction data with
  | nil => rfl
  | cons c data ih =>
    rw [List.flatMap_cons, List.length_append, ih, length_utf8Bytes, List.length_cons,
      List.countP_cons]
    simp only [decide_eq_true_eq]
    split <;> omega

/-- **The loop of `buffer_to_buffer_utf8`** writes the bytes of the `k` code points from `s` on. -/
theorem toUtf8Loop_eq (data : List UInt8) (k : Nat) {pos : Int} (hpos : pos.toNat = k) {s : Nat}
    (hs : s + k ≤ data.length) {newb : Buffer} (hroom : newb.used + 2 * k ≤ newb.size) :
    ∃ newb', toUtf8Loop data pos s newb = some newb' ∧
      newb'.data = newb.data ++ ((data.drop s).take k).flatMap (fun c => utf8Bytes c.toNat) ∧
      newb'.size = newb.size := by
  induction k generalizing pos s newb with
  | zero =>
    refine ⟨newb, ?_, by simp, rfl⟩
    rw [toUtf8Loop, if_neg (by omega)]
  | succ k ih =>
    have hlt : s < data.length := by omega
    have hlength := length_utf8Bytes data[s]
    have htwo : (utf8Bytes data[s].toNat).length ≤ 2 := by
      rw [hlength]
      split <;> omega
    obtain ⟨newb₁, hput, hdata₁, hsize₁⟩ := foldlM_put (utf8Bytes data[s].toNat)
      (show newb.used + _ ≤ newb.size by omega)
    have hused₁ : newb₁.used = newb.used + (utf8Bytes data[s].toNat).length := by
      rw [Buffer.used, hdata₁, List.length_append]
      rfl
    obtain ⟨newb', hloop, hdata, hsize⟩ := ih (show (pos - 1).toNat = k by omega) (s := s + 1)
      (by omega) (show newb₁.used + 2 * k ≤ newb₁.size by omega)
    refine ⟨newb', ?_, ?_, hsize.trans hsize₁⟩
    · rw [toUtf8Loop, if_pos (by omega), List.getElem?_eq_getElem hlt]
      simp only [bind, Option.bind_some, hput]
      exact hloop
    · rw [hdata, hdata₁, List.drop_eq_getElem_cons hlt, List.take_succ_cons, List.flatMap_cons,
        List.append_assoc]

/-- What is written is the UTF-8 of as many bytes as are counted. -/
theorem bufferToBufferUtf8_eq (b : Buffer) :
    ∃ u, bufferToBufferUtf8 b = some u ∧
      u.data = (b.data.take (intOf b.used).toNat).flatMap fun c => utf8Bytes c.toNat := by
  have hle := intOf_le b.used
  obtain ⟨newb, hloop, hdata, hsize⟩ := toUtf8Loop_eq b.data (intOf b.used).toNat rfl (s := 0)
    (show 0 + _ ≤ b.used by omega)
    (show (Buffer.empty (b.used * 4 + 1)).used + _ ≤ b.used * 4 + 1 by
      rw [Buffer.used_empty]
      omega)
  have hused : newb.used ≤ 2 * b.used := by
    rw [Buffer.used, hdata, List.length_append, length_flatMap_utf8Bytes]
    have hcount := List.countP_le_length (p := fun c : UInt8 => decide (0x80 ≤ c))
      (l := (b.data.drop 0).take (intOf b.used).toNat)
    have htake := List.length_take_le (intOf b.used).toNat (b.data.drop 0)
    simp only [Buffer.data_empty, List.length_nil]
    omega
  have hsize' : newb.size = b.used * 4 + 1 := hsize
  obtain ⟨u, hfinish, hu⟩ := finish_room (show newb.used < newb.size by omega)
  refine ⟨u, ?_, by rw [hu, hdata, Buffer.data_empty, List.nil_append, List.drop_zero]⟩
  unfold bufferToBufferUtf8
  rw [hloop]
  exact hfinish

/-! ## The second function -/

/-- A character that is not cut off is read inside the bytes that are left. -/
theorem codeAt_some {data : List UInt8} {pos : Int} {s : Nat} (hpos : s + pos ≤ data.length)
    (c : UInt8) : ∃ code, codeAt data pos s c = some code := by
  have hread : ∀ k : Nat, (k : Int) < pos → ∃ d, data[s + k]? = some d :=
    fun k hk => ⟨_, List.getElem?_eq_getElem (by omega)⟩
  unfold codeAt
  split_ifs with hfour hfit hthree hfit htwo hfit
  · obtain ⟨c₁, h₁⟩ := hread 1 (by omega)
    obtain ⟨c₂, h₂⟩ := hread 2 (by omega)
    obtain ⟨c₃, h₃⟩ := hread 3 (by omega)
    rw [h₁, h₂, h₃]
    exact ⟨_, rfl⟩
  · exact ⟨_, rfl⟩
  · obtain ⟨c₁, h₁⟩ := hread 1 (by omega)
    obtain ⟨c₂, h₂⟩ := hread 2 (by omega)
    rw [h₁, h₂]
    exact ⟨_, rfl⟩
  · exact ⟨_, rfl⟩
  · obtain ⟨c₁, h₁⟩ := hread 1 (by omega)
    rw [h₁]
    exact ⟨_, rfl⟩
  · exact ⟨_, rfl⟩
  · exact ⟨_, rfl⟩

/-- **The loop of `buffer_utf8_to_buffer`** on any bytes: it reads those that are left and writes no
more than there are. -/
theorem fromUtf8Loop_bounded (data : List UInt8) (k : Nat) {pos : Int} (hk : pos.toNat ≤ k) {s : Nat}
    (hpos : s + pos ≤ data.length) {newb : Buffer} (hroom : newb.used + pos.toNat ≤ newb.size) :
    ∃ newb', fromUtf8Loop data pos s newb = some newb' ∧
      newb'.used ≤ newb.used + pos.toNat ∧ newb'.size = newb.size := by
  induction k generalizing pos s newb with
  | zero =>
    refine ⟨newb, ?_, by omega, rfl⟩
    rw [fromUtf8Loop, if_neg (by omega)]
  | succ k ih =>
    by_cases hleft : 0 < pos
    · have hlt : s < data.length := by omega
      have hwidth := leadWidth_pos data[s]
      obtain ⟨code, hcode⟩ := codeAt_some hpos data[s]
      obtain ⟨newb₁, hput, hdata₁, hsize₁⟩ := put_room (latinByte code)
        (show newb.used < newb.size by omega)
      have hused₁ : newb₁.used = newb.used + 1 := by
        rw [Buffer.used, hdata₁, List.length_append]
        rfl
      obtain ⟨newb', hloop, hused, hsize⟩ := ih (show (pos - leadWidth data[s]).toNat ≤ k by omega)
        (s := s + leadWidth data[s]) (by omega)
        (show newb₁.used + (pos - leadWidth data[s]).toNat ≤ newb₁.size by omega)
      refine ⟨newb', ?_, by omega, hsize.trans hsize₁⟩
      rw [fromUtf8Loop, if_pos hleft, List.getElem?_eq_getElem hlt]
      simp only [bind, Option.bind_some, hcode, hput]
      exact hloop
    · refine ⟨newb, ?_, by omega, rfl⟩
      rw [fromUtf8Loop, if_neg hleft]

/-- **`buffer_utf8_to_buffer` on any bytes**: it ends, reads below `used`, and writes `used` bytes at
most. -/
theorem bufferUtf8ToBuffer_bounded (b : Buffer) :
    ∃ v, bufferUtf8ToBuffer b = some v ∧ (v.used : Int) ≤ max 0 (intOf b.used) ∧ v.used ≤ b.used := by
  have hle := intOf_le b.used
  obtain ⟨newb, hloop, hused, hsize⟩ := fromUtf8Loop_bounded b.data (intOf b.used).toNat le_rfl
    (s := 0) (show ((0 : Nat) : Int) + _ ≤ b.used by omega)
    (show (Buffer.empty (b.used + 1)).used + _ ≤ b.used + 1 by
      rw [Buffer.used_empty]
      omega)
  have hzero : newb.used ≤ (intOf b.used).toNat := by
    rw [Buffer.used_empty] at hused
    omega
  have hsize' : newb.size = b.used + 1 := hsize
  obtain ⟨v, hfinish, hv⟩ := finish_room (show newb.used < newb.size by omega)
  have hsame : v.used = newb.used := by rw [Buffer.used, hv]; rfl
  refine ⟨v, ?_, by omega, by omega⟩
  unfold bufferUtf8ToBuffer
  rw [hloop]
  exact hfinish

/-! ## Well-formed UTF-8 -/

/-- A code point as one byte, or a question mark if it is above `0xFF`. -/
def latin1 (c : Char) : UInt8 := if c.toNat ≤ 0xff then .ofNat c.toNat else 63

theorem ofNat_le_iff {k n : Nat} (hk : k < 256) (hn : n < 256) :
    UInt8.ofNat k ≤ UInt8.ofNat n ↔ k ≤ n := by
  rw [UInt8.le_iff_toNat_le, UInt8.toNat_ofNat_of_lt' hk, UInt8.toNat_ofNat_of_lt' hn]

/-- Comparing a first byte with the three marks is comparing the number it stands for. -/
theorem mark_le_iff {n : Nat} (hn : n < 256) :
    ((0xf0 : UInt8) ≤ .ofNat n ↔ 0xf0 ≤ n) ∧ ((0xe0 : UInt8) ≤ .ofNat n ↔ 0xe0 ≤ n) ∧
      ((0xc0 : UInt8) ≤ .ofNat n ↔ 0xc0 ≤ n) :=
  ⟨ofNat_le_iff (by norm_num) hn, ofNat_le_iff (by norm_num) hn, ofNat_le_iff (by norm_num) hn⟩

theorem leadWidth_ofNat {n : Nat} (hn : n < 256) :
    leadWidth (.ofNat n) = if 0xf0 ≤ n then 4 else if 0xe0 ≤ n then 3 else if 0xc0 ≤ n then 2 else 1 := by
  obtain ⟨hfour, hthree, htwo⟩ := mark_le_iff hn
  simp only [leadWidth, hfour, hthree, htwo]

theorem and_sixtyThree {n : Nat} (hn : n < 256) : (UInt8.ofNat n).toNat &&& 63 = n % 64 := by
  rw [UInt8.toNat_ofNat_of_lt' hn]
  exact Nat.and_two_pow_sub_one_eq_mod n 6

/-- A code point below `0x80` is read from one byte. -/
theorem codeAt_one {data : List UInt8} {pos : Int} {s v : Nat} (hv : v < 0x80) :
    codeAt data pos s (.ofNat v) = some v := by
  obtain ⟨hfour, hthree, htwo⟩ := mark_le_iff (show v < 256 by omega)
  rw [codeAt, if_neg (mt hfour.1 (by omega)), if_neg (mt hthree.1 (by omega)),
    if_neg (mt htwo.1 (by omega)), UInt8.toNat_ofNat_of_lt' (show v < 256 by omega)]

/-- A code point below `0x800` is read from two bytes, if the second of them is there. -/
theorem codeAt_two {data : List UInt8} {pos : Int} {s v : Nat} (hv : v < 0x800) (hpos : 2 ≤ pos)
    (hnext : data[s + 1]? = some (.ofNat (v % 64 + 0x80))) :
    codeAt data pos s (.ofNat (v / 64 % 32 + 0xc0)) = some v := by
  obtain ⟨hfour, hthree, htwo⟩ := mark_le_iff (show v / 64 % 32 + 0xc0 < 256 by omega)
  rw [codeAt, if_neg (mt hfour.1 (by omega)), if_neg (mt hthree.1 (by omega)),
    if_pos (htwo.2 (by omega)), if_pos (by omega), hnext]
  change some _ = _
  rw [and_sixtyThree (by omega), and_sixtyThree (by omega),
    ← Nat.shiftLeft_add_eq_or_of_lt (by omega), Nat.shiftLeft_eq]
  congr 1
  omega

/-- Three bytes, of which the mask leaves a bit of the mark in the first. -/
theorem codeAt_three {data : List UInt8} {s : Nat} (v : Nat) {c₁ c₂ : UInt8}
    (h₁ : data[s + 1]? = some c₁) (h₂ : data[s + 2]? = some c₂) :
    ∃ code, 0xff < code ∧ ∀ pos : Int, 3 ≤ pos →
      codeAt data pos s (.ofNat (v / 4096 % 16 + 0xe0)) = some code := by
  have hlead : v / 4096 % 16 + 0xe0 < 256 := by omega
  obtain ⟨hfour, hthree, -⟩ := mark_le_iff hlead
  refine ⟨((UInt8.ofNat (v / 4096 % 16 + 0xe0)).toNat &&& 63) <<< 12 |||
    (c₁.toNat &&& 63) <<< 6 ||| (c₂.toNat &&& 63), ?_, ?_⟩
  · have hhigh : 0xff < ((v / 4096 % 16 + 0xe0) % 64) <<< 12 := by
      rw [Nat.shiftLeft_eq]
      omega
    rw [and_sixtyThree hlead]
    exact hhigh.trans_le (Nat.left_le_or.trans Nat.left_le_or)
  · intro pos hpos
    rw [codeAt, if_neg (mt hfour.1 (by omega)), if_pos (hthree.2 (by omega)), if_pos (by omega),
      h₁, h₂]
    rfl

/-- Four bytes: above `0xFFFF` the first or the second has a bit. -/
theorem codeAt_four {data : List UInt8} {s v : Nat} (hv : 0xffff < v) (htop : v < 0x200000)
    {c₂ c₃ : UInt8} (h₁ : data[s + 1]? = some (.ofNat (v / 4096 % 64 + 0x80)))
    (h₂ : data[s + 2]? = some c₂) (h₃ : data[s + 3]? = some c₃) :
    ∃ code, 0xff < code ∧ ∀ pos : Int, 4 ≤ pos →
      codeAt data pos s (.ofNat (v / 262144 % 8 + 0xf0)) = some code := by
  have hlead : v / 262144 % 8 + 0xf0 < 256 := by omega
  have hnext : v / 4096 % 64 + 0x80 < 256 := by omega
  obtain ⟨hfour, -, -⟩ := mark_le_iff hlead
  refine ⟨((UInt8.ofNat (v / 262144 % 8 + 0xf0)).toNat &&& 7) <<< 18 |||
    ((UInt8.ofNat (v / 4096 % 64 + 0x80)).toNat &&& 63) <<< 12 ||| (c₂.toNat &&& 63) <<< 6 |||
    (c₃.toNat &&& 63), ?_, ?_⟩
  · have hseven : (UInt8.ofNat (v / 262144 % 8 + 0xf0)).toNat &&& 7 = v / 262144 % 8 := by
      have hmask := Nat.and_two_pow_sub_one_eq_mod (v / 262144 % 8 + 0xf0) 3
      rw [show 2 ^ 3 - 1 = 7 from rfl] at hmask
      rw [UInt8.toNat_ofNat_of_lt' hlead]
      omega
    rw [and_sixtyThree hnext, hseven]
    by_cases hhigh : v / 262144 % 8 = 0
    · have hsecond : 0xff < ((v / 4096 % 64 + 0x80) % 64) <<< 12 := by
        rw [Nat.shiftLeft_eq]
        omega
      exact hsecond.trans_le (Nat.right_le_or.trans (Nat.left_le_or.trans Nat.left_le_or))
    · have hfirst : 0xff < (v / 262144 % 8) <<< 18 := by
        rw [Nat.shiftLeft_eq]
        omega
      exact hfirst.trans_le (Nat.left_le_or.trans (Nat.left_le_or.trans Nat.left_le_or))
  · intro pos hpos
    rw [codeAt, if_pos (hfour.2 (by omega)), if_pos (by omega), h₁, h₂, h₃]
    rfl

/-- A code point that is no byte. -/
theorem latinByte_of_lt {code : Nat} (h : 0xff < code) {c : Char} (hc : 0xff < c.toNat) :
    latinByte code = latin1 c := by
  rw [latinByte, if_pos h, latin1, if_neg (by omega)]

/-- **One character** of well-formed UTF-8. -/
theorem codeAt_char {data : List UInt8} {s : Nat} (c : Char) {rest : List UInt8}
    (hdata : data.drop s = String.utf8EncodeChar c ++ rest) :
    ∃ lead code, data[s]? = some lead ∧ leadWidth lead = (String.utf8EncodeChar c).length ∧
      (∀ pos : Int, (String.utf8EncodeChar c).length ≤ pos → codeAt data pos s lead = some code) ∧
      latinByte code = latin1 c := by
  have hget : ∀ k : Nat, data[s + k]? = (String.utf8EncodeChar c ++ rest)[k]? := by
    intro k
    rw [← hdata, List.getElem?_drop]
  have htop : c.toNat < 0x110000 := by
    rcases c.valid with h | h
    · exact h.trans (by norm_num)
    · exact h.2
  obtain ⟨v, hv⟩ : ∃ v, c.toNat = v := ⟨_, rfl⟩
  unfold String.utf8EncodeChar at hget ⊢
  simp only [show c.val.toNat = v from hv] at hget ⊢
  rw [hv] at htop
  split_ifs at hget ⊢ with hone htwo hthree
  · refine ⟨.ofNat v, v, hget 0, ?_, fun pos _ => codeAt_one (by omega), ?_⟩
    · rw [leadWidth_ofNat (by omega), if_neg (by omega), if_neg (by omega), if_neg (by omega)]
      rfl
    · rw [latinByte, if_neg (by omega), latin1, if_pos (by omega), hv]
  · refine ⟨_, v, hget 0, ?_, fun pos hpos => codeAt_two (by omega) hpos (hget 1), ?_⟩
    · rw [leadWidth_ofNat (by omega), if_neg (by omega), if_neg (by omega), if_pos (by omega)]
      rfl
    · by_cases hbyte : v ≤ 0xff
      · rw [latinByte, if_neg (by omega), latin1, if_pos (by omega), hv]
      · exact latinByte_of_lt (by omega) (by omega)
  · obtain ⟨code, hlarge, hcode⟩ := codeAt_three v (hget 1) (hget 2)
    refine ⟨_, code, hget 0, ?_, hcode, latinByte_of_lt hlarge (by omega)⟩
    rw [leadWidth_ofNat (by omega), if_neg (by omega), if_pos (by omega)]
    rfl
  · obtain ⟨code, hlarge, hcode⟩ := codeAt_four (by omega) (by omega) (hget 1) (hget 2) (hget 3)
    refine ⟨_, code, hget 0, ?_, hcode, latinByte_of_lt hlarge (by omega)⟩
    rw [leadWidth_ofNat (by omega), if_pos (by omega)]
    rfl

/-- **The loop on well-formed UTF-8** writes one byte for every character. -/
theorem fromUtf8Loop_chars (data : List UInt8) (text : List Char) {s : Nat}
    (hdata : data.drop s = text.flatMap String.utf8EncodeChar) {newb : Buffer}
    (hroom : newb.used + text.length ≤ newb.size) :
    ∃ newb', fromUtf8Loop data (text.flatMap String.utf8EncodeChar).length s newb = some newb' ∧
      newb'.data = newb.data ++ text.map latin1 ∧ newb'.size = newb.size := by
  induction text generalizing s newb with
  | nil =>
    refine ⟨newb, ?_, by simp, rfl⟩
    rw [fromUtf8Loop, if_neg (by simp)]
  | cons c text ih =>
    rw [List.flatMap_cons] at hdata ⊢
    rw [List.length_cons] at hroom
    obtain ⟨lead, code, hlead, hwidth, hcode, hbyte⟩ := codeAt_char c hdata
    obtain ⟨newb₁, hput, hdata₁, hsize₁⟩ := put_room (latinByte code)
      (show newb.used < newb.size by omega)
    have hused₁ : newb₁.used = newb.used + 1 := by
      rw [Buffer.used, hdata₁, List.length_append]
      rfl
    have hrest : data.drop (s + leadWidth lead) = text.flatMap String.utf8EncodeChar := by
      rw [← List.drop_drop, hdata, hwidth, List.drop_left]
    obtain ⟨newb', hloop, hdata', hsize⟩ := ih hrest
      (show newb₁.used + text.length ≤ newb₁.size by omega)
    have hpos := leadWidth_pos lead
    have hlength : ((String.utf8EncodeChar c ++ text.flatMap String.utf8EncodeChar).length : Int) =
        leadWidth lead + (text.flatMap String.utf8EncodeChar).length := by
      rw [List.length_append, hwidth]
      rfl
    refine ⟨newb', ?_, ?_, hsize.trans hsize₁⟩
    · have hread := hcode (leadWidth lead + (text.flatMap String.utf8EncodeChar).length) (by omega)
      rw [hlength, fromUtf8Loop, if_pos (by omega), hlead]
      simp only [bind, Option.bind_some, hread, hput]
      rw [show (leadWidth lead : Int) + (text.flatMap String.utf8EncodeChar).length - leadWidth lead =
        (text.flatMap String.utf8EncodeChar).length by omega]
      exact hloop
    · rw [hdata', hdata₁, hbyte, List.append_assoc, List.map_cons, List.singleton_append]

/-- What the second function makes of well-formed UTF-8. -/
theorem bufferUtf8ToBuffer_chars {b : Buffer} (hsize : b.used < 2 ^ 31) {text : List Char}
    (hdata : b.data = text.flatMap String.utf8EncodeChar) :
    ∃ v, bufferUtf8ToBuffer b = some v ∧ v.data = text.map latin1 := by
  have hlength : (text.flatMap String.utf8EncodeChar).length = b.used := by rw [← hdata]; rfl
  have hle : text.length ≤ b.used := by
    rw [← hlength]
    clear hlength hdata
    induction text with
    | nil => exact Nat.zero_le _
    | cons c text ih =>
      have hpos := c.utf8Size_pos
      rw [List.flatMap_cons, List.length_append, String.length_utf8EncodeChar, List.length_cons]
      omega
  obtain ⟨newb, hloop, hwritten, hblock⟩ := fromUtf8Loop_chars b.data text (s := 0) hdata
    (show (Buffer.empty (b.used + 1)).used + _ ≤ b.used + 1 by
      rw [Buffer.used_empty]
      omega)
  have hused : newb.used = text.length := by
    rw [Buffer.used, hwritten, List.length_append, List.length_map]
    exact Nat.zero_add _
  have hblock' : newb.size = b.used + 1 := hblock
  obtain ⟨v, hfinish, hv⟩ := finish_room (show newb.used < newb.size by omega)
  refine ⟨v, ?_, by rw [hv, hwritten, Buffer.data_empty, List.nil_append]⟩
  rw [hlength, ← intOf_eq hsize] at hloop
  unfold bufferUtf8ToBuffer
  rw [hloop]
  exact hfinish

/-! ## Both -/

/-- A byte taken for a code point. -/
def byteChar (c : UInt8) : Char := Char.ofNat c.toNat

theorem utf8Bytes_byteChar (c : UInt8) : utf8Bytes c.toNat = String.utf8EncodeChar (byteChar c) := by
  revert c
  apply CString.forall_byte <;> decide

theorem latin1_byteChar (c : UInt8) : latin1 (byteChar c) = c := by
  revert c
  apply CString.forall_byte <;> decide

/-- The size of a buffer in UTF-8: two bytes for those that are not ASCII. -/
def utf8Size (b : Buffer) : Nat := b.used + b.data.countP (0x80 ≤ ·)

/-- What the conversions are to do with a buffer: converted to UTF-8 and back it is what it was; if
it is well-formed UTF-8, its characters become a byte each; and on any bytes the second function
ends, without a read at or behind `used`, and writes no more than `used` bytes. -/
structure ConvertsLatin (b : Buffer) : Prop where
  roundTrip : ∃ u v, bufferToBufferUtf8 b = some u ∧ bufferUtf8ToBuffer u = some v ∧
    v.data = b.data
  chars : ∀ text : List Char, b.data = text.flatMap String.utf8EncodeChar →
    ∃ v, bufferUtf8ToBuffer b = some v ∧ v.data = text.map latin1
  bounded : ∃ v, bufferUtf8ToBuffer b = some v ∧ v.used ≤ b.used

/-- What the first function writes is well-formed. -/
theorem flatMap_utf8Bytes (data : List UInt8) :
    (data.flatMap fun c => utf8Bytes c.toNat) =
      (data.map byteChar).flatMap String.utf8EncodeChar := by
  rw [List.flatMap_map]
  exact List.flatMap_congr fun c _ => utf8Bytes_byteChar c

/-- Below 2 GiB the first function writes the whole buffer. -/
theorem bufferToBufferUtf8_small {b : Buffer} (h : b.used < 2 ^ 31) :
    ∃ u, bufferToBufferUtf8 b = some u ∧ u.used = utf8Size b ∧
      u.data = (b.data.map byteChar).flatMap String.utf8EncodeChar := by
  obtain ⟨u, hu, hdata⟩ := bufferToBufferUtf8_eq b
  have hall : b.data.take (intOf b.used).toNat = b.data := by
    rw [intOf_eq h, Int.toNat_natCast]
    exact List.take_length
  rw [hall] at hdata
  refine ⟨u, hu, ?_, hdata.trans (flatMap_utf8Bytes b.data)⟩
  rw [Buffer.used, hdata, length_flatMap_utf8Bytes]
  rfl

/-- **Too much UTF-8 is lost**: fewer bytes are counted than were given. -/
theorem not_convertsLatin {b : Buffer} (h : 2 ^ 31 ≤ utf8Size b) : ¬ ConvertsLatin b := by
  rintro ⟨⟨u, v, hu, hv, hback⟩, -, -⟩
  have hused : v.used = b.used := by rw [Buffer.used, hback]; rfl
  obtain ⟨v', hv', hcount, -⟩ := bufferUtf8ToBuffer_bounded u
  obtain rfl : v = v' := Option.some.inj (hv.symm.trans hv')
  by_cases hsmall : b.used < 2 ^ 31
  · -- there are up to twice as many bytes of UTF-8, and they are counted as a negative number
    obtain ⟨u', hu', hsize, -⟩ := bufferToBufferUtf8_small hsmall
    obtain rfl : u = u' := Option.some.inj (hu.symm.trans hu')
    have hcopied : b.data.countP (0x80 ≤ ·) ≤ b.used := List.countP_le_length
    unfold utf8Size at h hsize
    have hneg := intOf_neg (n := u.used) (by omega) (by omega)
    omega
  · -- the first function has already left out some of the buffer
    obtain ⟨u', hu', hdata⟩ := bufferToBufferUtf8_eq b
    obtain rfl : u = u' := Option.some.inj (hu.symm.trans hu')
    rw [flatMap_utf8Bytes] at hdata
    have hcut := intOf_lt (n := b.used) (by omega)
    by_cases hfits : u.used < 2 ^ 31
    · obtain ⟨v', hv', hchars⟩ := bufferUtf8ToBuffer_chars hfits hdata
      obtain rfl : v = v' := Option.some.inj (hv.symm.trans hv')
      have hlength : v.used ≤ (intOf b.used).toNat := by
        rw [Buffer.used, hchars, List.length_map, List.length_map]
        exact List.length_take_le _ _
      omega
    · have htop := intOf_lt_top u.used
      omega

/-- **The two conversions are right exactly for a buffer below 2 GiB of UTF-8.** -/
theorem convertsLatin_iff (b : Buffer) : ConvertsLatin b ↔ utf8Size b < 2 ^ 31 := by
  constructor
  · intro h
    by_contra hlarge
    exact not_convertsLatin (by omega) h
  · intro h
    have hsmall : b.used < 2 ^ 31 := (Nat.le_add_right _ _).trans_lt h
    obtain ⟨u, hu, hsize, hdata⟩ := bufferToBufferUtf8_small hsmall
    obtain ⟨v, hv, hback⟩ := bufferUtf8ToBuffer_chars (hsize.trans_lt h) hdata
    obtain ⟨w, hw, -, hle⟩ := bufferUtf8ToBuffer_bounded b
    refine ⟨⟨u, v, hu, hv, ?_⟩, fun text htext => bufferUtf8ToBuffer_chars hsmall htext, w, hw, hle⟩
    have hid : latin1 ∘ byteChar = id := funext latin1_byteChar
    rw [hback, List.map_map, hid, List.map_id]

/-- A buffer with `n` times the same byte. -/
def fullOf (c : UInt8) (n : Nat) : Buffer := ⟨List.replicate n c, n, by rw [List.length_replicate]⟩

theorem le_utf8Size_fullOf (c : UInt8) (n : Nat) : n ≤ utf8Size (fullOf c n) := by
  have hused : (fullOf c n).used = n := List.length_replicate
  exact hused.ge.trans (Nat.le_add_right _ _)

/-- A buffer of 2 GiB of `A` is lost. -/
theorem not_convertsLatin_gibibytes : ¬ ConvertsLatin (fullOf 65 (2 ^ 31)) :=
  not_convertsLatin (le_utf8Size_fullOf 65 (2 ^ 31))

end Ape
