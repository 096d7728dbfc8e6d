import ApeServer.Sha1.Stream
import Mathlib.Data.List.GetD

/-!
# Digests of one text

`sha1_hmac` takes the first 64 bytes of a key where the standard takes the digest of a longer one.
`sha1` of the scripts writes the digits of a digest with `sprintf`, which ends them with a zero.

* `sha1Csum_eq`, `sha1File_eq` — the digests of a buffer and of a file;
* `sha1Hmac_eq` — **the code of RFC 2104 for the first 64 bytes of the key**;
* `apeNativeSha1Str_eq` — the 40 digits a script gets, and what is written behind them.
-/

namespace Ape.Sha1

open Fips180 (blockKey hmac)

/-! ## A buffer and a file -/

/-- The buffer of a context on the stack, whatever it holds. -/
abbrev Buffer := { b : List UInt8 // b.length = 64 }

/-- `sha1_csum`. -/
def sha1Csum (stack : Buffer) (buf : List UInt8) : List UInt8 :=
  sha1Finish (sha1Update (sha1Starts stack) buf)

/-- `sha1_file`, with what `fread` gives until it gives nothing; `none` is a file that cannot be
opened. -/
def sha1File (stack : Buffer) (reads : Option (List (List UInt8))) : Option (List UInt8) :=
  reads.map fun reads => sha1Finish (reads.foldl sha1Update (sha1Starts stack))

/-- `sha1_csum` gives the digest of its buffer, whatever the context held before. -/
theorem sha1Csum_eq (stack : Buffer) {buf : List UInt8} (h : buf.length < 2 ^ 32) :
    sha1Csum stack buf = Fips180.sha1 buf :=
  ((holds_starts stack.2).update h).finish

/-- `sha1_file` gives the digest of all that is read, wherever the reads of up to 1024 bytes cut the
file. -/
theorem sha1File_eq (stack : Buffer) {reads : List (List UInt8)}
    (h : ∀ r ∈ reads, r.length ≤ 1024) :
    sha1File stack (some reads) = some (Fips180.sha1 reads.flatten) := by
  have hreads : ∀ r ∈ reads, r.length < 2 ^ 32 := fun r hr => (h r hr).trans_lt (by decide)
  rw [sha1File, Option.map_some, ((holds_starts stack.2).updates hreads).finish, List.nil_append]

example : sha1Csum ⟨List.replicate 64 0, rfl⟩ [0x61, 0x62, 0x63] =
    [0xa9, 0x99, 0x3e, 0x36, 0x47, 0x06, 0x81, 0x6a, 0xba, 0x3e, 0x25, 0x71, 0x78, 0x50, 0xc2, 0x6c,
      0x9c, 0xd0, 0xd8, 0x9d] := by
  decide +kernel

/-! ## A code with a key -/

/-- `for( i = 0; i < keylen; i++ )`, for one of the two pads. -/
def xorKey : List UInt8 → Nat → List UInt8 → List UInt8
  | [], _, pad => pad
  | k :: key, i, pad => if 64 ≤ i then pad else xorKey key (i + 1) (pad.set i (pad.getD i 0 ^^^ k))

/-- `sha1_hmac`, whose `keylen` is a `uint`; its context is used twice. -/
def sha1Hmac (stack : Buffer) (key buf : List UInt8) : List UInt8 :=
  let key := key.take (key.length % 2 ^ 32)
  let kIpad := xorKey key 0 (List.replicate 64 0x36)
  let kOpad := xorKey key 0 (List.replicate 64 0x5C)
  let ctx := sha1Update (sha1Update (sha1Starts stack) kIpad) buf
  let tmpbuf := sha1Finish ctx
  sha1Finish (sha1Update (sha1Update (sha1Starts (finished ctx).buffer) kOpad) tmpbuf)

theorem length_xorKey (key : List UInt8) (i : Nat) (pad : List UInt8) :
    (xorKey key i pad).length = pad.length := by
  induction key generalizing i pad with
  | nil => rfl
  | cons k key ih =>
    rw [xorKey]
    split_ifs
    · rfl
    · rw [ih, List.length_set]

/-- The loop goes over the bytes of a pad that are left. -/
theorem xorKey_append {key front : List UInt8} {n : Nat} (b : UInt8) (h : front.length + n = 64) :
    xorKey key front.length (front ++ List.replicate n b) =
      front ++ (key.take n ++ List.replicate (n - key.length) 0).map (· ^^^ b) := by
  induction key generalizing front n with
  | nil => simp [xorKey]
  | cons k key ih =>
    rw [xorKey]
    split_ifs with hend
    · have hn : n = 0 := by omega
      subst hn
      simp
    · obtain ⟨n, rfl⟩ : ∃ n', n = n' + 1 := ⟨n - 1, by omega⟩
      have hset : (front ++ List.replicate (n + 1) b).set front.length
          ((front ++ List.replicate (n + 1) b).getD front.length 0 ^^^ k) =
            (front ++ [k ^^^ b]) ++ List.replicate n b := by
        simp [List.replicate_succ, UInt8.xor_comm]
      have hlen : (front ++ [k ^^^ b]).length = front.length + 1 := by simp
      rw [hset, ← hlen, ih (by rw [hlen]; omega), List.take_succ_cons, List.length_cons,
        Nat.add_sub_add_right]
      simp

/-- A pad is the key, brought to the length of a block, with one byte all over it. -/
theorem xorKey_pad (key : List UInt8) (H : List UInt8 → List UInt8) (b : UInt8) :
    xorKey key 0 (List.replicate 64 b) = (blockKey H 64 (key.take 64)).map (· ^^^ b) := by
  have hkey : ¬ 64 < (key.take 64).length := by
    rw [List.length_take]
    omega
  have hloop := @xorKey_append key [] 64 b rfl
  rw [List.nil_append, List.nil_append, List.length_nil] at hloop
  rw [hloop, blockKey]
  simp only [if_neg hkey]
  rw [List.length_take, show 64 - min 64 key.length = 64 - key.length by omega]

/-- Two texts one behind the other have the digest of both. -/
theorem sha1Finish_two (stack : Buffer) {a b : List UInt8} (ha : a.length < 2 ^ 32)
    (hb : b.length < 2 ^ 32) :
    sha1Finish (sha1Update (sha1Update (sha1Starts stack) a) b) = Fips180.sha1 (a ++ b) :=
  (((holds_starts stack.2).update ha).update hb).finish

/-- **`sha1_hmac` gives the code of RFC 2104** for the first 64 bytes of the key: the standard would take
the digest of a longer key in its place. -/
theorem sha1Hmac_eq (stack : Buffer) {key buf : List UInt8} (hkey : key.length < 2 ^ 32)
    (h : buf.length < 2 ^ 32) :
    sha1Hmac stack key buf = hmac Fips180.sha1 64 (key.take 64) buf := by
  have hwhole : key.take (key.length % 2 ^ 32) = key := by
    rw [Nat.mod_eq_of_lt hkey, List.take_length]
  have hpad : ∀ b, (xorKey key 0 (List.replicate 64 b)).length < 2 ^ 32 := by
    intro b
    rw [length_xorKey, List.length_replicate]
    decide
  -- the buffer of the context keeps its size
  have hsize : (finished (sha1Update (sha1Update (sha1Starts stack)
      (xorKey key 0 (List.replicate 64 0x36))) buf)).buffer.length = 64 :=
    (((holds_starts stack.2).update (hpad _)).update h).finished.size
  simp only [sha1Hmac, hwhole]
  rw [sha1Finish_two stack (hpad _) h, sha1Finish_two ⟨_, hsize⟩ (hpad _) (by simp),
    xorKey_pad key Fips180.sha1, xorKey_pad key Fips180.sha1, hmac]

/-! ## `sha1` in a script -/

/-- A digit of `%.2x`. -/
def hexDigit (n : UInt8) : UInt8 := if n < 10 then 48 + n else 87 + n

/-- What `sprintf(p, "%.2x", d)` writes from `p` on. -/
def hexText (d : UInt8) : List UInt8 := [hexDigit (d / 16), hexDigit (d % 16), 0]

/-- The memory behind a write of some bytes from an index on. -/
def store (mem : Nat → UInt8) (p : Nat) : List UInt8 → Nat → UInt8
  | [] => mem
  | b :: bs => store (Function.update mem p b) (p + 1) bs

/-- The loop `for (i = 0; i < 20; i++)` of the script's `sha1`, over the bytes of the digest; `output`
begins at index 0 of the memory. -/
def hexLoop : List UInt8 → Nat → (Nat → UInt8) → Nat → UInt8
  | [], _, mem => mem
  | d :: ds, i, mem => hexLoop ds (i + 1) (store mem (i * 2) (hexText d))

/-- The digest that is written as digits: with a key, which is `hmac`, the code for it. -/
def digestOf (stack : Buffer) (string : List UInt8) : Option (List UInt8) → List UInt8
  | none => sha1Csum stack string
  | some key => sha1Hmac stack key string

/-- `ape_native_sha1_str`: the memory behind it and the string that is returned. -/
def apeNativeSha1Str (stack : Buffer) (string : List UInt8) (key : Option (List UInt8))
    (mem : Nat → UInt8) : (Nat → UInt8) × List UInt8 :=
  let mem := hexLoop (digestOf stack string key) 0 mem
  (mem, (List.range 40).map mem)

/-- The digits of some bytes. -/
def hexDigits (ds : List UInt8) : List UInt8 :=
  ds.flatMap fun d => [hexDigit (d / 16), hexDigit (d % 16)]

/-- A memory that some bytes have been stored to holds them from their index on, and what it held before
everywhere else. -/
theorem store_apply (mem : Nat → UInt8) (p : Nat) (bs : List UInt8) (j : Nat) :
    store mem p bs j = if p ≤ j then bs.getD (j - p) (mem j) else mem j := by
  induction bs generalizing mem p with
  | nil => simp [store]
  | cons b bs ih =>
    rw [store, ih]
    rcases Nat.lt_trichotomy p j with hlt | rfl | hgt
    · obtain ⟨k, hk⟩ : ∃ k, j - p = k + 1 := ⟨j - p - 1, by omega⟩
      rw [if_pos (by omega), if_pos hlt.le, hk, List.getD_cons_succ, show j - (p + 1) = k by omega,
        Function.update_of_ne hlt.ne']
    · simp
    · rw [if_neg (by omega), if_neg (by omega), Function.update_of_ne hgt.ne]

/-- **The loop writes the digits and one zero behind them**: each of the others is written over. -/
theorem hexLoop_eq (d : UInt8) (ds : List UInt8) (i : Nat) (mem : Nat → UInt8) :
    hexLoop (d :: ds) i mem = store mem (i * 2) (hexDigits (d :: ds) ++ [0]) := by
  induction ds generalizing d i mem with
  | nil => rfl
  | cons d' ds ih =>
    rw [hexLoop, ih, Nat.add_mul]
    simp [hexText, hexDigits, store, Function.update_idem]

/-- The digest of which a script is to get the digits: that of FIPS 180, or with a key the code of
RFC 2104 for its first 64 bytes. -/
def scriptDigest (string : List UInt8) : Option (List UInt8) → List UInt8
  | none => Fips180.sha1 string
  | some key => hmac Fips180.sha1 64 (key.take 64) string

theorem length_scriptDigest (string : List UInt8) (key : Option (List UInt8)) :
    (scriptDigest string key).length = 20 := by
  cases key <;> rfl

theorem length_hexDigits (ds : List UInt8) : (hexDigits ds).length = 2 * ds.length := by
  induction ds with
  | nil => rfl
  | cons d ds ih =>
    rw [hexDigits, List.flatMap_cons, List.length_append, ← hexDigits, ih]
    simp only [List.length_cons, List.length_nil]
    omega

/-- **A script gets the 40 digits of the digest**, and every call writes a zero right behind
`output`, where no other byte is changed. -/
theorem apeNativeSha1Str_eq (stack : Buffer) {string : List UInt8} (h : string.length < 2 ^ 32)
    {key : Option (List UInt8)} (hkey : ∀ k ∈ key, k.length < 2 ^ 32) (mem : Nat → UInt8) :
    (apeNativeSha1Str stack string key mem).2 = hexDigits (scriptDigest string key) ∧
      (apeNativeSha1Str stack string key mem).1 40 = 0 ∧
      ∀ j, 40 < j → (apeNativeSha1Str stack string key mem).1 j = mem j := by
  have hdigest : digestOf stack string key = scriptDigest string key := by
    cases key with
    | none => exact sha1Csum_eq stack h
    | some key => exact sha1Hmac_eq stack (hkey key rfl) h
  have hlen := length_scriptDigest string key
  obtain ⟨d, ds, hds⟩ : ∃ d ds, scriptDigest string key = d :: ds :=
    List.exists_cons_of_length_eq_add_one hlen
  have hdigits : (hexDigits (scriptDigest string key)).length = 40 := by
    rw [length_hexDigits, hlen]
  have hmem : (apeNativeSha1Str stack string key mem).1 =
      store mem 0 (hexDigits (scriptDigest string key) ++ [0]) := by
    rw [apeNativeSha1Str, hdigest, hds, hexLoop_eq, Nat.zero_mul]
  refine ⟨?_, ?_, fun j hj => ?_⟩
  · change (List.range 40).map (apeNativeSha1Str stack string key mem).1 = _
    rw [hmem]
    apply List.ext_getElem
    · simp [hdigits]
    · intro j hj hj'
      rw [List.getElem_map, List.getElem_range, store_apply, if_pos (Nat.zero_le j), Nat.sub_zero,
        List.getD_append _ _ _ _ hj', List.getD_eq_getElem _ _ hj']
  · rw [hmem, store_apply, if_pos (Nat.zero_le 40), List.getD_append_right _ _ _ _ (by omega),
      hdigits]
    rfl
  · rw [hmem, store_apply, if_pos (Nat.zero_le j), List.getD_eq_default]
    rw [List.length_append, hdigits, List.length_singleton]
    omega

/-- The digest of the empty text under a key of one byte: 40 digits, the zero behind them, and beyond it
the memory as it was. -/
theorem apeNativeSha1Str_eq_key :
    (apeNativeSha1Str ⟨List.replicate 64 0, rfl⟩ [] (some [107]) fun _ => 1).2 =
        hexDigits (scriptDigest [] (some [107])) ∧
      (apeNativeSha1Str ⟨List.replicate 64 0, rfl⟩ [] (some [107]) fun _ => 1).1 40 = 0 ∧
      ∀ j, 40 < j → (apeNativeSha1Str ⟨List.replicate 64 0, rfl⟩ [] (some [107]) fun _ => 1).1 j = 1 :=
  apeNativeSha1Str_eq _ (by decide) (by simp) _

end Ape.Sha1
