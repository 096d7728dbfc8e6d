import ApeServer.Sha1.Process

/-!
# `sha1_update` and `sha1_finish`

A context keeps how many bytes there were, 32 bits of the number in one word and what goes over in
another, and the bytes that are not a block yet.

* `sha1Update`, `sha1Finish` — the functions of `ape_sha1.c`;
* `Holds` — a context has taken a message;
* `Holds.update` — an update takes what comes behind it;
* `sha1Finish_updates` — **whatever the pieces are that a message comes in, its digest is the one of the
  standard**.
-/

namespace Ape.Sha1

open Fips180 (Words compress pad padding)
open Blocks (absorb absorb_append absorb_block absorb_short absorb_sim length_absorb_snd)

/-! ## The functions -/

/-- `sha1_context`. -/
structure Sha1Context where
  total₀ : UInt64
  total₁ : UInt64
  state : State
  buffer : List UInt8
deriving DecidableEq

/-- What `sha1_starts` makes of `ctx->state`. -/
def State.initial : State := ⟨0x67452301, 0xEFCDAB89, 0x98BADCFE, 0x10325476, 0xC3D2E1F0⟩

/-- `sha1_starts`; the buffer is left as it is. -/
def sha1Starts (buffer : List UInt8) : Sha1Context :=
  { total₀ := 0, total₁ := 0, buffer, state := .initial }

/-- `memcpy` to `buffer + at`. -/
def memcpy (buffer : List UInt8) (at' : Nat) (src : List UInt8) : List UInt8 :=
  buffer.take at' ++ src ++ buffer.drop (at' + src.length)

/-- `while( length >= 64 )`, with as many rounds as there are bytes. -/
def wholeBlocks : Nat → State → List UInt8 → State × List UInt8
  | 0, s, input => (s, input)
  | fuel + 1, s, input =>
    if 64 ≤ input.length then wholeBlocks fuel (sha1Process s (input.take 64)) (input.drop 64)
    else (s, input)

/-- `ctx->total` with `length` more bytes. -/
def addTotal (total₀ total₁ length : UInt64) : UInt64 × UInt64 :=
  let total₀ := (total₀ + length) &&& 0xFFFFFFFF
  (total₀, if total₀ < length then total₁ + 1 else total₁)

/-- What `sha1_update` works on. -/
structure Update where
  left : Nat
  buffer : List UInt8
  state : State
  input : List UInt8

/-- `if( left && length >= fill )`. -/
def Update.topUp (u : Update) : Update :=
  let fill := 64 - u.left
  if u.left ≠ 0 ∧ fill ≤ u.input.length then
    let buffer := memcpy u.buffer u.left (u.input.take fill)
    { left := 0, buffer, state := sha1Process u.state buffer, input := u.input.drop fill }
  else u

/-- `while( length >= 64 )` and `if( length )`. -/
def Update.drain (u : Update) : State × List UInt8 :=
  let (state, input) := wholeBlocks u.input.length u.state u.input
  (state, if input.length = 0 then u.buffer else memcpy u.buffer u.left input)

/-- `sha1_update`, with the `length` bytes at `input`. -/
def sha1Update (ctx : Sha1Context) (input : List UInt8) : Sha1Context :=
  if input.length = 0 then ctx
  else
    let left := (ctx.total₀ &&& 0x3F).toNat
    let (total₀, total₁) := addTotal ctx.total₀ ctx.total₁ (UInt64.ofNat input.length)
    let (state, buffer) := Update.drain (Update.topUp ⟨left, ctx.buffer, ctx.state, input⟩)
    { total₀, total₁, state, buffer }

/-- `sha1_padding`. -/
def sha1Padding : List UInt8 := 0x80 :: List.replicate 63 0

/-- How many bytes of it are taken behind `last` bytes of a block. -/
def padn (last : Nat) : Nat := if last < 56 then 56 - last else 120 - last

/-- What is put into `digest`. -/
def State.digest (s : State) : List UInt8 :=
  putUint32Be s.a ++ putUint32Be s.b ++ putUint32Be s.c ++ putUint32Be s.d ++ putUint32Be s.e

/-- The context behind `sha1_finish`. -/
def finished (ctx : Sha1Context) : Sha1Context :=
  let high := (ctx.total₀ >>> 29) ||| (ctx.total₁ <<< 3)
  let low := ctx.total₀ <<< 3
  let msglen := putUint32Be high ++ putUint32Be low
  let last := (ctx.total₀ &&& 0x3F).toNat
  sha1Update (sha1Update ctx (sha1Padding.take (padn last))) msglen

/-- `sha1_finish`. -/
def sha1Finish (ctx : Sha1Context) : List UInt8 := (finished ctx).state.digest

/-! ## The parts of an update -/

/-- The loop takes the whole blocks. -/
theorem wholeBlocks_eq {fuel : Nat} {s : State} {input : List UInt8} (h : input.length ≤ fuel) :
    wholeBlocks fuel s input = absorb 64 sha1Process s input := by
  induction fuel generalizing s input with
  | zero => rw [wholeBlocks, absorb_short (by omega)]
  | succ fuel ih =>
    rw [wholeBlocks]
    split_ifs with hlen
    · rw [ih (by rw [List.length_drop]; omega), absorb_block (by decide) hlen]
    · rw [absorb_short (Nat.not_le.1 hlen)]

/-- What is copied lies behind what stays in front of it. -/
theorem take_memcpy {buffer src : List UInt8} {at' : Nat} (h : at' ≤ buffer.length) :
    (memcpy buffer at' src).take (at' + src.length) = buffer.take at' ++ src := by
  rw [memcpy]
  exact List.take_left' (by rw [List.length_append, List.length_take_of_le h])

/-- Copying inside a buffer does not change its size. -/
theorem length_memcpy {buffer src : List UInt8} {at' : Nat}
    (h : at' + src.length ≤ buffer.length) : (memcpy buffer at' src).length = buffer.length := by
  simp only [memcpy, List.length_append, List.length_take, List.length_drop]
  omega

/-- The bytes that are not a block yet, with those that come. -/
def Update.pending (u : Update) : List UInt8 := u.buffer.take u.left ++ u.input

/-- The buffer has its size, and a part of it is taken. -/
structure Update.Sound (u : Update) : Prop where
  size : u.buffer.length = 64
  part : u.left < 64

/-- Topping the buffer up takes the first block, if there is one. -/
theorem Update.Sound.topUp {u : Update} (h : u.Sound) : u.topUp.Sound ∧
    absorb 64 sha1Process u.topUp.state u.topUp.pending =
      absorb 64 sha1Process u.state u.pending ∧
    (u.topUp.left = 0 ∨ u.topUp.left + u.topUp.input.length < 64) := by
  obtain ⟨hsize, hpart⟩ := h
  unfold Update.topUp
  dsimp only
  split_ifs with hfull
  · -- the bytes in the buffer and the first ones of the input are a block
    have hlen : (u.input.take (64 - u.left)).length = 64 - u.left := List.length_take_of_le hfull.2
    have hcopied : memcpy u.buffer u.left (u.input.take (64 - u.left)) =
        u.buffer.take u.left ++ u.input.take (64 - u.left) := by
      rw [memcpy, hlen, List.drop_eq_nil_of_le (by omega), List.append_nil]
    have hblock : (u.buffer.take u.left ++ u.input.take (64 - u.left)).length = 64 := by
      rw [List.length_append, hlen, List.length_take_of_le (by omega)]
      omega
    have hpending : u.pending = (u.buffer.take u.left ++ u.input.take (64 - u.left)) ++
        u.input.drop (64 - u.left) := by
      rw [Update.pending, List.append_assoc, List.take_append_drop]
    refine ⟨⟨by rw [hcopied, hblock], Nat.zero_lt_succ 63⟩, ?_, Or.inl rfl⟩
    rw [hpending, hcopied, absorb_block (l := _ ++ _) (by decide) (by
      rw [List.length_append, hblock]
      omega), List.take_left' hblock, List.drop_left' hblock]
    rfl
  · refine ⟨⟨hsize, hpart⟩, rfl, ?_⟩
    omega

/-- Draining takes the whole blocks and keeps the rest at the front of the buffer. -/
theorem Update.Sound.drain {u : Update} (h : u.Sound)
    (hfresh : u.left = 0 ∨ u.left + u.input.length < 64) :
    (u.drain.1, u.drain.2.take (u.pending.length % 64)) = absorb 64 sha1Process u.state u.pending ∧
      u.drain.2.length = 64 := by
  obtain ⟨hsize, hpart⟩ := h
  obtain ⟨state, rest, habsorb⟩ : ∃ state rest,
      absorb 64 sha1Process u.state u.input = (state, rest) := ⟨_, _, rfl⟩
  have hfront : (u.buffer.take u.left).length = u.left := List.length_take_of_le (by omega)
  -- what is left is behind what was in the buffer
  have hall : absorb 64 sha1Process u.state u.pending = (state, u.buffer.take u.left ++ rest) := by
    rcases hfresh with hzero | hshort
    · rw [Update.pending, hzero, List.take_zero, List.nil_append, habsorb, List.nil_append]
    · rw [absorb_short (by omega)] at habsorb
      obtain ⟨rfl, rfl⟩ := Prod.mk.inj habsorb
      exact absorb_short (by rw [Update.pending, List.length_append, hfront]; omega)
  have hcount : u.left + rest.length = u.pending.length % 64 := by
    rw [← hfront, ← List.length_append, ← length_absorb_snd (f := sha1Process) (s := u.state), hall]
  have hfits : u.left + rest.length ≤ u.buffer.length := by
    rw [hsize, hcount]
    omega
  simp only [Update.drain, wholeBlocks_eq le_rfl, habsorb]
  rw [hall, ← hcount]
  split_ifs with hnone
  · rw [List.eq_nil_of_length_eq_zero hnone, List.length_nil, List.append_nil]
    exact ⟨rfl, hsize⟩
  · rw [take_memcpy (by omega), length_memcpy hfits]
    exact ⟨rfl, hsize⟩

/-! ## The number of bytes -/

/-- The first word is cut to 32 bits. -/
theorem addTotal_fst (total₀ total₁ length : UInt64) :
    (addTotal total₀ total₁ length).1.toNat = (total₀.toNat + length.toNat) % 2 ^ 32 := by
  have hmask : (0xFFFFFFFF : UInt64).toNat = 2 ^ 32 - 1 := by decide
  rw [addTotal, UInt64.toNat_and, hmask, Nat.and_two_pow_sub_one_eq_mod, UInt64.toNat_add]
  omega

/-- **The two words count the bytes**: what goes over 32 bits is carried. -/
theorem addTotal_snd {total₀ total₁ length : UInt64} (h₀ : total₀.toNat < 2 ^ 32)
    (hlen : length.toNat < 2 ^ 32) : (addTotal total₀ total₁ length).2.toNat =
      (total₁.toNat + (total₀.toNat + length.toNat) / 2 ^ 32) % 2 ^ 64 := by
  have hfst := addTotal_fst total₀ total₁ length
  have h₁ := total₁.toNat_lt
  have hcarry : (addTotal total₀ total₁ length).2 =
      if (addTotal total₀ total₁ length).1 < length then total₁ + 1 else total₁ := rfl
  rw [hcarry]
  split_ifs with hless <;> rw [UInt64.lt_iff_toNat_lt, hfst] at hless
  · rw [UInt64.toNat_add]
    have hone : (1 : UInt64).toNat = 1 := rfl
    omega
  · omega

/-! ## Messages -/

/-- A context has taken a message: its whole blocks are done, the rest of it is in the buffer, and
its length is counted. -/
structure Holds (ctx : Sha1Context) (m : List UInt8) : Prop where
  taken : (ctx.state, ctx.buffer.take (m.length % 64)) =
    absorb 64 sha1Process .initial m
  size : ctx.buffer.length = 64
  low : ctx.total₀.toNat = m.length % 2 ^ 32
  high : ctx.total₁.toNat = m.length / 2 ^ 32 % 2 ^ 64

/-- Nothing was taken to begin with. -/
theorem holds_starts {buffer : List UInt8} (h : buffer.length = 64) :
    Holds (sha1Starts buffer) [] :=
  { taken := (absorb_short (l := []) (Nat.zero_lt_succ 63)).symm, size := h, low := rfl, high := rfl }

/-- The place in the buffer is counted too. -/
theorem Holds.left {ctx : Sha1Context} {m : List UInt8} (h : Holds ctx m) :
    (ctx.total₀ &&& 0x3F).toNat = m.length % 64 := by
  have hmask : (0x3F : UInt64).toNat = 2 ^ 6 - 1 := by decide
  rw [UInt64.toNat_and, hmask, Nat.and_two_pow_sub_one_eq_mod, h.low]
  omega

/-- **An update takes what comes behind a message.** -/
theorem Holds.update {ctx : Sha1Context} {m input : List UInt8} (h : Holds ctx m)
    (hlen : input.length < 2 ^ 32) : Holds (sha1Update ctx input) (m ++ input) := by
  rw [sha1Update]
  split_ifs with hnone
  · rw [List.eq_nil_of_length_eq_zero hnone, List.append_nil]
    exact h
  · obtain ⟨htaken, hsize, hlow, hhigh⟩ := h
    have hnat : (UInt64.ofNat input.length).toNat = input.length :=
      UInt64.toNat_ofNat_of_lt' (hlen.trans (by decide))
    have hleft : (ctx.total₀ &&& 0x3F).toNat = m.length % 64 :=
      Holds.left ⟨htaken, hsize, hlow, hhigh⟩
    -- what the update works on
    obtain ⟨hsound, htop, hfresh⟩ := Update.Sound.topUp
      (u := ⟨(ctx.total₀ &&& 0x3F).toNat, ctx.buffer, ctx.state, input⟩)
      ⟨hsize, by rw [hleft]; exact Nat.mod_lt _ (by decide)⟩
    obtain ⟨hdrain, hsize'⟩ := hsound.drain hfresh
    have hall : absorb 64 sha1Process ctx.state
        (Update.pending ⟨(ctx.total₀ &&& 0x3F).toNat, ctx.buffer, ctx.state, input⟩) =
          absorb 64 sha1Process .initial (m ++ input) := by
      rw [absorb_append (by decide), ← htaken, Update.pending, hleft]
    have htaken' := hdrain.trans (htop.trans hall)
    have hrest := congrArg (fun r => r.2.length) (htop.trans hall)
    simp only [length_absorb_snd] at hrest
    rw [hrest] at htaken'
    refine ⟨htaken', hsize', ?_, ?_⟩
    · rw [addTotal_fst, hnat, hlow, List.length_append]
      omega
    · rw [addTotal_snd (by omega) (by omega), hnat, hlow, hhigh, List.length_append]
      omega

/-- **Updates one after the other** hold the message, whatever pieces it comes in. -/
theorem Holds.updates {ctx : Sha1Context} {m : List UInt8} {pieces : List (List UInt8)}
    (h : Holds ctx m) (hlen : ∀ p ∈ pieces, p.length < 2 ^ 32) :
    Holds (pieces.foldl sha1Update ctx) (m ++ pieces.flatten) := by
  induction pieces generalizing ctx m with
  | nil => simpa using h
  | cons p pieces ih =>
    rw [List.foldl_cons, List.flatten_cons, ← List.append_assoc]
    exact ih (h.update (hlen p List.mem_cons_self)) fun q hq => hlen q (List.mem_cons_of_mem p hq)

/-- The words are those of the standard. -/
theorem Holds.words {ctx : Sha1Context} {m : List UInt8} (h : Holds ctx m) :
    ctx.state.low = (absorb 64 compress Fips180.init m).1 := by
  have hinit : Fips180.init = State.initial.low := rfl
  rw [hinit, ← absorb_sim State.low (by decide) (fun s b _ => low_sha1Process s b), ← h.taken]

/-! ## The digest -/

/-- A byte of the low half is a byte of the word. -/
theorem toUInt8_low (n : UInt64) {k : UInt64} (hk : k = 0 ∨ k = 8 ∨ k = 16 ∨ k = 24) :
    (n >>> k).toUInt8 = (n.toUInt32 >>> k.toUInt32).toUInt8 := by
  apply UInt8.toBitVec_inj.1
  apply BitVec.eq_of_getLsbD_eq
  intro i hi
  rcases hk with rfl | rfl | rfl | rfl <;> simp [hi] <;> omega

/-- What is put out are the bytes of the low half. -/
theorem putUint32Be_eq (n : UInt64) : putUint32Be n = Fips180.bytes n.toUInt32 := by
  have h₂₄ : (n >>> 24).toUInt8 = (n.toUInt32 >>> 24).toUInt8 := toUInt8_low n (by decide)
  have h₁₆ : (n >>> 16).toUInt8 = (n.toUInt32 >>> 16).toUInt8 := toUInt8_low n (by decide)
  have h₈ : (n >>> 8).toUInt8 = (n.toUInt32 >>> 8).toUInt8 := toUInt8_low n (by decide)
  rw [putUint32Be, Fips180.bytes, h₂₄, h₁₆, h₈]
  simp

theorem State.digest_eq (s : State) : s.digest = s.low.bytes := by
  simp only [State.digest, putUint32Be_eq]
  rfl

/-- The length of a message in bits, as it is written. -/
theorem Holds.msglen {ctx : Sha1Context} {m : List UInt8} (h : Holds ctx m) :
    putUint32Be ((ctx.total₀ >>> 29) ||| (ctx.total₁ <<< 3)) ++ putUint32Be (ctx.total₀ <<< 3) =
      Fips180.bits m.length := by
  have hlow := h.low
  have hhigh := h.high
  have h₂₉ : UInt64.toNat 29 % 64 = 29 := rfl
  have h₃ : UInt64.toNat 3 % 64 = 3 := rfl
  have hhi : ((ctx.total₀ >>> 29) ||| (ctx.total₁ <<< 3)).toUInt32 =
      UInt32.ofNat (8 * m.length / 2 ^ 32) := by
    have hdisjoint : 8 * (ctx.total₁.toNat % 2 ^ 61) + ctx.total₀.toNat / 2 ^ 29 =
        8 * (ctx.total₁.toNat % 2 ^ 61) ||| ctx.total₀.toNat / 2 ^ 29 :=
      Nat.two_pow_add_eq_or_of_lt (i := 3) (by omega) _
    have hshift : ctx.total₁.toNat * 2 ^ 3 % 2 ^ 64 = 8 * (ctx.total₁.toNat % 2 ^ 61) := by omega
    apply UInt32.toNat_inj.1
    simp only [UInt64.toNat_toUInt32, UInt64.toNat_or, UInt64.toNat_shiftRight,
      UInt64.toNat_shiftLeft, UInt32.toNat_ofNat', h₂₉, h₃]
    rw [Nat.shiftRight_eq_div_pow, Nat.shiftLeft_eq, hshift, Nat.or_comm, ← hdisjoint]
    omega
  have hlo : (ctx.total₀ <<< 3).toUInt32 = UInt32.ofNat (8 * m.length) := by
    apply UInt32.toNat_inj.1
    simp only [UInt64.toNat_toUInt32, UInt64.toNat_shiftLeft, UInt32.toNat_ofNat', h₃]
    rw [Nat.shiftLeft_eq]
    omega
  rw [putUint32Be_eq, putUint32Be_eq, hhi, hlo, Fips180.bits]

/-- The padding goes up to the last eight bytes of a block. -/
theorem take_sha1Padding (n : Nat) :
    sha1Padding.take (padn (n % 64)) ++ Fips180.bits n = padding n := by
  have hpadn : padn (n % 64) = (119 - n % 64) % 64 + 1 := by
    unfold padn
    split_ifs <;> omega
  rw [hpadn, sha1Padding, List.take_succ_cons, List.take_replicate, padding,
    Nat.min_eq_left (by omega)]

/-- At the end the padded message has been taken. -/
theorem Holds.finished {ctx : Sha1Context} {m : List UInt8} (h : Holds ctx m) :
    Holds (finished ctx) (Fips180.pad m) := by
  have hpieces : ∀ p ∈ [sha1Padding.take (padn (m.length % 64)), Fips180.bits m.length],
      p.length < 2 ^ 32 := by
    simp only [List.mem_cons, List.not_mem_nil, or_false, forall_eq_or_imp, forall_eq]
    exact ⟨(List.length_take_le' _ _).trans_lt (by decide), Nat.lt_of_sub_eq_succ rfl⟩
  have hupdates := h.updates hpieces
  simp only [List.foldl_cons, List.foldl_nil, List.flatten_cons, List.flatten_nil, List.append_nil,
    take_sha1Padding] at hupdates
  rw [Sha1.finished, Fips180.pad]
  simp only [h.msglen, h.left]
  exact hupdates

/-- **The digest is the one of the standard.** -/
theorem Holds.finish {ctx : Sha1Context} {m : List UInt8} (h : Holds ctx m) :
    sha1Finish ctx = Fips180.sha1 m := by
  rw [sha1Finish, State.digest_eq, h.finished.words, Fips180.sha1]

/-- **A message that comes in pieces has the digest of the standard**, whatever the pieces are and
whatever the buffer held. -/
theorem sha1Finish_updates {pieces : List (List UInt8)} (hlen : ∀ p ∈ pieces, p.length < 2 ^ 32)
    {buffer : List UInt8} (hsize : buffer.length = 64) :
    sha1Finish (pieces.foldl sha1Update (sha1Starts buffer)) = Fips180.sha1 pieces.flatten :=
  ((holds_starts hsize).updates hlen).finish

/-- Two pieces, the first of which ends inside a block. -/
theorem sha1Finish_updates_two :
    sha1Finish ([List.replicate 70 7, List.replicate 130 9].foldl sha1Update
      (sha1Starts (List.replicate 64 1))) =
        Fips180.sha1 [List.replicate 70 7, List.replicate 130 9].flatten :=
  sha1Finish_updates (by simp) List.length_replicate

end Ape.Sha1
