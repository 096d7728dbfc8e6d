import ApeServer.WebSocket.Decode

/-!
# Which lengths survive

`ape_ws_write` writes the length of a frame in one of three forms, and the reader decodes it.  Both
sides handle a 64-bit length with 32-bit swaps: the writer writes no header at all from `2 ^ 32`
on, and the reader drops the upper four bytes of what it is sent.

* `payloadHead` — the header of `ape_ws_write`;
* `withMask` — the same header with the mask bit, as a client sends it;
* `Decoded` — the reader takes this length from these header bytes;
* `decoded_header` — the header bytes in front of the key, read to their end;
* `lengthCodec_iff` — **the two agree on a length exactly below `2 ^ 32`, and the reader is right
  about eight bytes exactly when the first four are zero**.
-/

namespace Ape.WebSocket

/-! ## The writer -/

/-- The first `k` bytes of a number in little-endian memory. -/
def memory (k n : Nat) : List UInt8 := (List.range k).map fun i => UInt8.ofNat (n / 256 ^ i)

/-- `htons` on a little-endian machine. -/
def htons (s : Nat) : Nat := ntohs s

/-- `htonl` on a little-endian machine. -/
def htonl (x : Nat) : Nat := ntohl x

/-- The first `payload_length` bytes of `payload_head` in `ape_ws_write`: what it writes in front
of `len` bytes.  `payload_length` stays 0 when no branch is taken. -/
def payloadHead (len : Nat) : List UInt8 :=
  if len ≤ 125 then [0x81, UInt8.ofNat len &&& 0x7F]
  else if len ≤ 65535 then [0x81, 126] ++ memory 2 (htons (len % 2 ^ 16))
  else if len ≤ 0xFFFFFFFF then [0x81, 127, 0, 0, 0, 0] ++ memory 4 (htonl (len % 2 ^ 32))
  else []

/-- The header with the mask bit in its second byte. -/
def withMask (header : List UInt8) : List UInt8 := header.modify 1 fun b => b ||| 0x80

/-- The number that bytes spell, most significant first. -/
def bigEndian (bytes : List UInt8) : Nat := bytes.foldl (fun n b => n * 2 ^ 8 + b.toNat) 0

/-- The form a length is written in. -/
def lengthForm (len : Nat) : LengthForm :=
  if len ≤ 125 then .tiny else if len ≤ 65535 then .short else .extended

/-- The length byte of the tiny form. -/
theorem tiny_mask : ∀ n < 126, (UInt8.ofNat n &&& 0x7F) ||| 0x80 = UInt8.ofNat (128 + n) := by
  decide

theorem ofNat_congr {m n : Nat} (h : m % 2 ^ 8 = n) : UInt8.ofNat m = UInt8.ofNat n := by
  apply UInt8.toNat_inj.1
  rw [UInt8.toNat_ofNat', UInt8.toNat_ofNat', ← h, Nat.mod_mod]

/-- `htons` puts the high byte of two first. -/
theorem memory_htons {a b : Nat} (ha : a < 256) (hb : b < 256) :
    memory 2 (htons (a + b * 256)) = [UInt8.ofNat b, UInt8.ofNat a] := by
  have hswap : htons (a + b * 256) = b + a * 256 := by
    rw [htons, ntohs]
    omega
  have hmemory : ∀ n, memory 2 n = [UInt8.ofNat n, UInt8.ofNat (n / 256)] := by
    simp [memory, List.range_succ]
  rw [hswap, hmemory, ofNat_congr (show (b + a * 256) % 2 ^ 8 = b by omega),
    show (b + a * 256) / 256 = a by omega]

/-- `htonl` puts the high byte of four first. -/
theorem memory_htonl {a b c d : Nat} (ha : a < 256) (hb : b < 256) (hc : c < 256) (hd : d < 256) :
    memory 4 (htonl (a + b * 2 ^ 8 + c * 2 ^ 16 + d * 2 ^ 24)) =
      [UInt8.ofNat d, UInt8.ofNat c, UInt8.ofNat b, UInt8.ofNat a] := by
  have hswap : htonl (a + b * 2 ^ 8 + c * 2 ^ 16 + d * 2 ^ 24) =
      d + c * 2 ^ 8 + b * 2 ^ 16 + a * 2 ^ 24 := by
    rw [htonl, ntohl]
    omega
  have hmemory : ∀ n, memory 4 n = [UInt8.ofNat n, UInt8.ofNat (n / 2 ^ 8),
      UInt8.ofNat (n / 2 ^ 16), UInt8.ofNat (n / 2 ^ 24)] := by
    simp [memory, List.range_succ]
  rw [hswap, hmemory,
    ofNat_congr (show (d + c * 2 ^ 8 + b * 2 ^ 16 + a * 2 ^ 24) % 2 ^ 8 = d by omega),
    ofNat_congr (show (d + c * 2 ^ 8 + b * 2 ^ 16 + a * 2 ^ 24) / 2 ^ 8 % 2 ^ 8 = c by omega),
    ofNat_congr (show (d + c * 2 ^ 8 + b * 2 ^ 16 + a * 2 ^ 24) / 2 ^ 16 % 2 ^ 8 = b by omega),
    show (d + c * 2 ^ 8 + b * 2 ^ 16 + a * 2 ^ 24) / 2 ^ 24 = a by omega]

/-- With the mask bit, the header of a 32-bit length is a frame's length field. -/
theorem withMask_payloadHead {len : Nat} (h : len ≤ 0xFFFFFFFF) :
    withMask (payloadHead len) = 0x81 :: (lengthForm len).encode len := by
  unfold payloadHead lengthForm
  by_cases htiny : len ≤ 125
  · rw [if_pos htiny, if_pos htiny]
    show [0x81, (UInt8.ofNat len &&& 0x7F) ||| 0x80] = _
    rw [tiny_mask len (by omega)]
    rfl
  rw [if_neg htiny, if_neg htiny]
  by_cases hshort : len ≤ 65535
  · have hlen : len % 2 ^ 16 = len % 256 + len / 256 * 256 := by omega
    rw [if_pos hshort, if_pos hshort, hlen,
      memory_htons (Nat.mod_lt _ (by omega)) (show len / 256 < 256 by omega),
      ← ofNat_congr (show len % 2 ^ 8 = len % 256 from rfl)]
    rfl
  · have hlen : len % 2 ^ 32 = len % 2 ^ 8 + len / 2 ^ 8 % 2 ^ 8 * 2 ^ 8 +
        len / 2 ^ 16 % 2 ^ 8 * 2 ^ 16 + len / 2 ^ 24 % 2 ^ 8 * 2 ^ 24 := by
      omega
    have hbyte : ∀ m, m % 2 ^ 8 < 256 := fun m => Nat.mod_lt m (by decide)
    have hzero : ∀ k, 4 ≤ k → UInt8.ofNat (len / 256 ^ k) = 0 := by
      intro k hk
      have hpow : 256 ^ 4 ≤ 256 ^ k := Nat.pow_le_pow_right (by omega) hk
      rw [Nat.div_eq_of_lt (by omega)]
      rfl
    rw [if_neg hshort, if_neg hshort, if_pos h, hlen,
      memory_htonl (hbyte _) (hbyte _) (hbyte _) (hbyte _),
      ← ofNat_congr (m := len) rfl, ← ofNat_congr (m := len / 2 ^ 8) rfl,
      ← ofNat_congr (m := len / 2 ^ 16) rfl, ← ofNat_congr (m := len / 2 ^ 24) rfl,
      LengthForm.encode, hzero 7 (by omega), hzero 6 (by omega), hzero 5 (by omega),
      hzero 4 (by omega)]
    rfl

/-! ## The reader -/

/-- From the initial state the reader takes these bytes for a whole header up to the key, and `n`
for the length. -/
def Decoded (header : List UInt8) (n : Nat) : Prop :=
  ∀ ws, Initial ws → (processFrame header ws).1.step = .key ∧
    (processFrame header ws).1.extendedLength = n

/-- The steps of the header do not look at the end of the buffer. -/
theorem wsSwitch_header {used : Nat} {ws : WebsocketState} (hstep : ws.step ≠ .data) (c : UInt8) :
    wsSwitch used ws c = wsSwitch 0 ws c := by
  unfold wsSwitch
  cases h : ws.step with
  | data => exact absurd h hstep
  | _ => rfl

/-- A payload byte leads to the next one, or to the start of the next frame. -/
theorem wsSwitch_data_step {ws : WebsocketState} (hstep : ws.step = .data) (c : UInt8) :
    (wsSwitch 0 ws c).ws.step ≠ .key := by
  have hw : (unmask (allocate ws).1 c).step = .data := (allocate_fst ws).1.trans hstep
  simp only [wsSwitch, hstep, stepData, finishFrame]
  split_ifs <;> simp [frameDone, hw]

/-- A buffer that ends in front of a key. -/
theorem frameLoop_key (used : Nat) {bs : List UInt8} {ws ws' : WebsocketState}
    {evs : List WsEvent} (h : skim bs ws = some (ws', evs)) (hkey : ws'.step = .key)
    (hoffset : ws.offset + bs.length = used) (hused : used < 2 ^ 32 - 1) :
    frameLoop used bs ws = (ws', evs) := by
  induction bs generalizing ws evs with
  | nil =>
    obtain ⟨rfl, rfl⟩ : ws = ws' ∧ [] = evs := by simpa [skim] using h
    rw [List.length_nil] at hoffset
    rw [frameLoop, if_neg (by omega)]
  | cons c cs ih =>
    obtain ⟨hgo, evs', htail, rfl⟩ := skim_cons h
    rw [List.length_cons] at hoffset
    have hnext := wsSwitch_advance hgo (by omega)
    have hsame : wsSwitch used ws c = wsSwitch 0 ws c := by
      by_cases hstep : ws.step = .data
      · by_cases hcs : cs = []
        · subst hcs
          obtain ⟨rfl, -⟩ : advance (wsSwitch 0 ws c).ws = ws' ∧ [] = evs' := by
            simpa [skim] using htail
          exact absurd hkey (wsSwitch_data_step hstep c)
        · have hpos := List.length_pos_iff.2 hcs
          exact wsSwitch_used (by omega) (by omega) c
      · exact wsSwitch_header hstep c
    simp only [frameLoop]
    rw [hsame, hgo, if_neg Bool.false_ne_true, ih htail (by rw [hnext]; omega)]

/-- **A header up to the key** is read to its end. -/
theorem processFrame_header {header : List UInt8} {start : UInt8} {n : Nat} {ws ws' : WebsocketState}
    (hinit : Initial ws) (hskim : skim header ws = some (ws', []))
    (hkeying : Keying ws' start n 0) (hlen : header.length < 2 ^ 32 - 1) :
    (processFrame header ws).1.step = .key ∧ (processFrame header ws).1.extendedLength = n := by
  rw [processFrame, hinit.offset, List.drop_zero,
    frameLoop_key _ hskim hkeying.step (by rw [hinit.offset]; omega) hlen]
  exact ⟨hkeying.step, hkeying.left⟩

/-- The first byte of a frame opens its length field. -/
theorem skim_first {ws : WebsocketState} (h : Fresh ws) (start : UInt8) :
    ∃ ws', (∀ cs, skim (start :: cs) ws = skim cs ws') ∧ ws'.step = .length ∧ ws'.framePos = 1 ∧
      ws'.keyPos = 0 := by
  have hswitch : wsSwitch 0 ws start = .break { ws with start := start, step := .length } [] := by
    simp only [wsSwitch, h.step, stepStart]
  refine ⟨_, fun cs => skim_cons_silent hswitch, rfl, ?_, h.keyPos⟩
  show ws.framePos + 1 = 1
  rw [h.framePos]
  rfl

/-- A length below `2 ^ 32`, in any form that holds it. -/
theorem decoded_encode (start : UInt8) (form : LengthForm) {n : Nat} (hn : n ≤ form.max)
    (hlt : n < 2 ^ 32) : Decoded (start :: form.encode n) n := by
  intro ws h
  obtain ⟨w, hw, hstep, hpos, hkey⟩ := skim_first h.fresh start
  obtain ⟨w', hw', hkeying, -⟩ := skim_lengthForm w hstep hpos hkey form hn hlt
  have hlen : (start :: form.encode n).length < 2 ^ 32 - 1 := by
    cases form <;> simp [LengthForm.encode]
  refine processFrame_header h ?_ hkeying hlen
  rw [hw, ← List.append_nil (form.encode n), hw', skim]

/-- Any eight bytes behind the marker: the reader takes the last four. -/
theorem decoded_extended (start b₀ b₁ b₂ b₃ b₄ b₅ b₆ b₇ : UInt8) :
    Decoded [start, 255, b₀, b₁, b₂, b₃, b₄, b₅, b₆, b₇] (bigEndian [b₄, b₅, b₆, b₇]) := by
  intro ws h
  obtain ⟨w, hw, hstep, hpos, hkey⟩ := skim_first h.fresh start
  obtain ⟨w', hw', hkeying, -⟩ := skim_extended hstep hpos hkey b₀ b₁ b₂ b₃ b₄ b₅ b₆ b₇
  have hvalue : bigEndian [b₄, b₅, b₆, b₇] =
      b₄.toNat * 2 ^ 24 + b₅.toNat * 2 ^ 16 + b₆.toNat * 2 ^ 8 + b₇.toNat := by
    simp only [bigEndian, List.foldl_cons, List.foldl_nil]
    ring
  rw [hvalue]
  have hskim := hw' []
  rw [skim, List.append_nil] at hskim
  exact processFrame_header h ((hw _).trans hskim) hkeying (by simp)

/-- There is an initial state, and it takes one length at most. -/
theorem Decoded.unique {header : List UInt8} {m n : Nat} (hm : Decoded header m)
    (hn : Decoded header n) : m = n := by
  have h : Initial (httpReadyState ⟨[], 0, [0, 0, 0, 0], 0, 0, 0, 0, .start, 0, 0, 0, false⟩) :=
    ⟨⟨rfl, rfl, rfl, rfl⟩, rfl, rfl⟩
  exact (hm _ h).2.symm.trans (hn _ h).2

/-- No bytes are the header of no length. -/
theorem not_decoded_nil (n : Nat) : ¬ Decoded [] n := by
  intro h
  have hstep := (h (httpReadyState ⟨[], 0, [0, 0, 0, 0], 0, 0, 0, 0, .start, 0, 0, 0, false⟩)
    ⟨⟨rfl, rfl, rfl, rfl⟩, rfl, rfl⟩).1
  exact absurd hstep (by decide)

/-! ## Where the two agree -/

/-- The lengths the writer's header carries to the reader. -/
theorem decoded_payloadHead (len : Nat) :
    Decoded (withMask (payloadHead len)) len ↔ len ≤ 0xFFFFFFFF := by
  constructor
  · intro h
    by_contra hlarge
    rw [payloadHead, if_neg (by omega), if_neg (by omega), if_neg hlarge] at h
    exact not_decoded_nil _ h
  · intro h
    rw [withMask_payloadHead h]
    apply decoded_encode
    · unfold lengthForm
      split_ifs with htiny hshort
      · exact htiny
      · exact hshort
      · simp only [LengthForm.max]
        omega
    · omega

/-- The upper four bytes of a 64-bit number. -/
theorem bigEndian_eight (b₀ b₁ b₂ b₃ b₄ b₅ b₆ b₇ : UInt8) :
    bigEndian [b₀, b₁, b₂, b₃, b₄, b₅, b₆, b₇] =
      bigEndian [b₀, b₁, b₂, b₃] * 2 ^ 32 + bigEndian [b₄, b₅, b₆, b₇] := by
  simp only [bigEndian, List.foldl_cons, List.foldl_nil]
  ring

theorem bigEndian_four_eq_zero (b₀ b₁ b₂ b₃ : UInt8) :
    bigEndian [b₀, b₁, b₂, b₃] = 0 ↔ b₀ = 0 ∧ b₁ = 0 ∧ b₂ = 0 ∧ b₃ = 0 := by
  simp only [bigEndian, List.foldl_cons, List.foldl_nil, ← UInt8.toNat_inj, UInt8.toNat_zero]
  omega

/-- **Where the writer and the reader agree**: on a length exactly if it is below `2 ^ 32`, and on
eight bytes behind the marker exactly if the first four are zero. -/
theorem lengthCodec_iff (len : UInt64) (start b₀ b₁ b₂ b₃ b₄ b₅ b₆ b₇ : UInt8) :
    (Decoded (withMask (payloadHead len.toNat)) len.toNat ↔ len.toNat ≤ 0xFFFFFFFF) ∧
    (Decoded [start, 255, b₀, b₁, b₂, b₃, b₄, b₅, b₆, b₇]
        (bigEndian [b₀, b₁, b₂, b₃, b₄, b₅, b₆, b₇]) ↔
      b₀ = 0 ∧ b₁ = 0 ∧ b₂ = 0 ∧ b₃ = 0) := by
  refine ⟨decoded_payloadHead len.toNat, ?_⟩
  have hlast := decoded_extended start b₀ b₁ b₂ b₃ b₄ b₅ b₆ b₇
  rw [bigEndian_eight, ← bigEndian_four_eq_zero]
  constructor
  · intro h
    have heq := h.unique hlast
    omega
  · intro hzero
    rwa [hzero, Nat.zero_mul, Nat.zero_add]

/-- **Four gigabytes**: the writer writes no header, and of the header that spells the length the
reader takes 0. -/
theorem lengthCodec_fails :
    ¬ Decoded (withMask (payloadHead (2 ^ 32))) (2 ^ 32) ∧
      ¬ Decoded [0x81, 255, 0, 0, 0, 1, 0, 0, 0, 0] (bigEndian [0, 0, 0, 1, 0, 0, 0, 0]) := by
  have hinit : Initial (httpReadyState ⟨[], 0, [0, 0, 0, 0], 0, 0, 0, 0, .start, 0, 0, 0, false⟩) :=
    ⟨⟨rfl, rfl, rfl, rfl⟩, rfl, rfl⟩
  constructor
  · intro h
    exact absurd (h _ hinit).1 (by decide)
  · intro h
    exact absurd (h _ hinit).2 (by decide)

end Ape.WebSocket
