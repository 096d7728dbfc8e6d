import ApeServer.Lib.Blocks
import Mathlib.Data.UInt

/-!
# The Secure Hash Standard, FIPS 180-1

SHA-1 is a function of five words of 32 bits and a block of 64 bytes, taken over the blocks of the
padded message.

* `schedule` — the eighty words of a block, by their recurrence;
* `step`, `compress` — one round, and the eighty rounds of a block;
* `pad` — the message, a bit, zeros, and its length in bits;
* `sha1` — **the digest of a message**;
* `hmac` — RFC 2104 over a hash of messages.
-/

namespace Ape.Fips180

/-- The five words. -/
structure Words where
  a : UInt32
  b : UInt32
  c : UInt32
  d : UInt32
  e : UInt32
deriving DecidableEq

/-- A rotation to the left. -/
def rotl (x n : UInt32) : UInt32 := (x <<< n) ||| (x >>> (32 - n))

/-- Four bytes, the most significant one first. -/
def word (b : List UInt8) (i : Nat) : UInt32 :=
  ((b.getD i 0).toUInt32 <<< 24) ||| ((b.getD (i + 1) 0).toUInt32 <<< 16) |||
    ((b.getD (i + 2) 0).toUInt32 <<< 8) ||| (b.getD (i + 3) 0).toUInt32

/-- The four bytes of a word. -/
def bytes (x : UInt32) : List UInt8 :=
  [(x >>> 24).toUInt8, (x >>> 16).toUInt8, (x >>> 8).toUInt8, x.toUInt8]

/-- `W(t)`, from the words of a block. -/
def schedule (M : Nat → UInt32) (t : Nat) : UInt32 :=
  if t < 16 then M t
  else rotl (schedule M (t - 3) ^^^ schedule M (t - 8) ^^^ schedule M (t - 14) ^^^
    schedule M (t - 16)) 1

/-- `f(t; B, C, D)`. -/
def f (t : Nat) (b c d : UInt32) : UInt32 :=
  if t < 20 then (b &&& c) ||| (~~~b &&& d)
  else if t < 40 then b ^^^ c ^^^ d
  else if t < 60 then (b &&& c) ||| (b &&& d) ||| (c &&& d)
  else b ^^^ c ^^^ d

/-- `K(t)`. -/
def K (t : Nat) : UInt32 :=
  if t < 20 then 0x5A827999 else if t < 40 then 0x6ED9EBA1
  else if t < 60 then 0x8F1BBCDC else 0xCA62C1D6

/-- A round. -/
def step (W : Nat → UInt32) (x : Words) (t : Nat) : Words :=
  { a := rotl x.a 5 + f t x.b x.c x.d + x.e + W t + K t, b := x.a, c := rotl x.b 30,
    d := x.c, e := x.d }

/-- What a block makes of the words. -/
def compress (h : Words) (block : List UInt8) : Words :=
  let W := schedule fun t => word block (4 * t)
  let x := (List.range 80).foldl (step W) h
  { a := h.a + x.a, b := h.b + x.b, c := h.c + x.c, d := h.d + x.d, e := h.e + x.e }

/-- The words at the beginning. -/
def init : Words :=
  { a := 0x67452301, b := 0xEFCDAB89, c := 0x98BADCFE, d := 0x10325476, e := 0xC3D2E1F0 }

/-- The length of `n` bytes in bits, in two words. -/
def bits (n : Nat) : List UInt8 :=
  bytes (UInt32.ofNat (8 * n / 2 ^ 32)) ++ bytes (UInt32.ofNat (8 * n))

/-- What goes behind a message of `n` bytes: a bit, as few zeros as there can be, the length. -/
def padding (n : Nat) : List UInt8 :=
  0x80 :: List.replicate ((119 - n % 64) % 64) 0 ++ bits n

/-- The padded message. -/
def pad (m : List UInt8) : List UInt8 := m ++ padding m.length

/-- The bytes of five words. -/
def Words.bytes (h : Words) : List UInt8 :=
  Fips180.bytes h.a ++ Fips180.bytes h.b ++ Fips180.bytes h.c ++ Fips180.bytes h.d ++
    Fips180.bytes h.e

/-- **The digest of a message.** -/
def sha1 (m : List UInt8) : List UInt8 := (Blocks.absorb 64 compress init (pad m)).1.bytes

/-- A digest has 20 bytes. -/
@[simp] theorem length_sha1 (m : List UInt8) : (sha1 m).length = 20 := rfl

/-- A padded message is made of whole blocks. -/
theorem length_pad (m : List UInt8) : (pad m).length % 64 = 0 := by
  simp only [pad, padding, bits, bytes, List.length_append, List.length_cons, List.length_nil,
    List.length_replicate]
  omega

/-! ## A hash with a key -/

/-- A key is brought to the length of a block. -/
def blockKey (H : List UInt8 → List UInt8) (n : Nat) (key : List UInt8) : List UInt8 :=
  let k := if n < key.length then H key else key
  k ++ List.replicate (n - k.length) 0

/-- `HMAC`, over a hash `H` of blocks of `n` bytes. -/
def hmac (H : List UInt8 → List UInt8) (n : Nat) (key text : List UInt8) : List UInt8 :=
  let k := blockKey H n key
  H (k.map (· ^^^ 0x5C) ++ H (k.map (· ^^^ 0x36) ++ text))

end Ape.Fips180
