import ApeServer.WebSocket.Bounds

/-!
# Frames and reads

A buffer that ends with a frame leaves the reader at offset 0, ready for the next read; a buffer
that ends inside of a frame leaves the offset at its end, and the next read is entered there.  So
the bytes of a connection may be cut behind complete frames, and not elsewhere.

* `ClientFrame`, `encode` — masked frames as they stand on the wire, in all three length forms;
* `skim` — the loop without its ends: what it does to bytes that are followed by more;
* `skim_encode` — **a frame with payload is read to its end, whatever is in it**;
* `frameLoop_shift` — the loop does not depend on where in the buffer it started;
* `runReads_split` — **reads that all but the last consist of whole frames give the same events as
  one read of their concatenation**.
-/

namespace Ape.WebSocket

/-! ## Frames on the wire -/

/-- The three forms of the length field. -/
inductive LengthForm where
  | tiny
  | short
  | extended
  deriving DecidableEq, Repr

/-- The largest length a form can hold. -/
def LengthForm.max : LengthForm → Nat
  | .tiny => 125
  | .short => 2 ^ 16 - 1
  | .extended => 2 ^ 64 - 1

/-- The length field: the mask bit and the length, most significant byte first. -/
def LengthForm.encode (n : Nat) : LengthForm → List UInt8
  | .tiny => [UInt8.ofNat (128 + n)]
  | .short => [254, UInt8.ofNat (n / 256), UInt8.ofNat n]
  | .extended => [255, UInt8.ofNat (n / 256 ^ 7), UInt8.ofNat (n / 256 ^ 6),
      UInt8.ofNat (n / 256 ^ 5), UInt8.ofNat (n / 256 ^ 4), UInt8.ofNat (n / 256 ^ 3),
      UInt8.ofNat (n / 256 ^ 2), UInt8.ofNat (n / 256), UInt8.ofNat n]

/-- A masked frame: the first byte, the form of the length, the key and the masked payload, which
the form can count. -/
structure ClientFrame where
  start : UInt8
  form : LengthForm
  key : UInt8 × UInt8 × UInt8 × UInt8
  masked : List UInt8
  fits : masked.length ≤ form.max

/-- The bytes of a frame. -/
def ClientFrame.encode (f : ClientFrame) : List UInt8 :=
  f.start :: f.form.encode f.masked.length ++ [f.key.1, f.key.2.1, f.key.2.2.1, f.key.2.2.2] ++
    f.masked

/-- A frame with payload that does not close the connection. -/
structure ClientFrame.Carries (f : ClientFrame) : Prop where
  payload : f.masked ≠ []
  open' : f.start &&& 0x0F ≠ 0x8

/-- The bytes of consecutive frames. -/
def encodeAll (fs : List ClientFrame) : List UInt8 := fs.flatMap ClientFrame.encode

/-! ## The loop without its ends -/

/-- The loop over bytes that are followed by more; `none` when it is left. -/
def skim : List UInt8 → WebsocketState → Option (WebsocketState × List WsEvent)
  | [], ws => some (ws, [])
  | c :: cs, ws =>
    let s := wsSwitch 0 ws c
    if s.returned then none
    else (skim cs (advance s.ws)).map fun r => (r.1, s.events ++ r.2)

theorem skim_append (a b : List UInt8) (ws : WebsocketState) :
    skim (a ++ b) ws =
      (skim a ws).bind fun r => (skim b r.1).map fun s => (s.1, r.2 ++ s.2) := by
  induction a generalizing ws with
  | nil => simp [skim]
  | cons c cs ih =>
    simp only [List.cons_append, skim]
    split
    · rfl
    · rw [ih]
      cases skim cs (advance (wsSwitch 0 ws c).ws) with
      | none => rfl
      | some r =>
        simp only [Option.bind_some, Option.map_some]
        cases skim b r.1 <;> simp

/-- `used` only tells whether the byte is the last one of the buffer. -/
theorem wsSwitch_used {used : Nat} {ws : WebsocketState} (hlast : ws.offset + 1 < used)
    (hused : used < 2 ^ 32) (c : UInt8) : wsSwitch used ws c = wsSwitch 0 ws c := by
  have hmod : (ws.offset + 1) % 2 ^ 32 = ws.offset + 1 := Nat.mod_eq_of_lt (by omega)
  unfold wsSwitch
  cases hstep : ws.step with
  | data =>
    have hoffset : (frameDone (unmask (allocate ws).1 c)).offset = ws.offset := (allocate_fst ws).2.1
    simp only [stepData, finishFrame, hoffset, hmod]
    rw [if_neg (show ¬ ws.offset + 1 = used by omega),
      if_neg (show ¬ ws.offset + 1 = 0 by omega)]
  | _ => rfl

theorem skim_cons {c : UInt8} {cs : List UInt8} {ws ws' : WebsocketState} {evs : List WsEvent}
    (h : skim (c :: cs) ws = some (ws', evs)) :
    (wsSwitch 0 ws c).returned = false ∧
      ∃ evs', skim cs (advance (wsSwitch 0 ws c).ws) = some (ws', evs') ∧
        evs = (wsSwitch 0 ws c).events ++ evs' := by
  simp only [skim] at h
  by_cases hret : (wsSwitch 0 ws c).returned = true
  · simp [hret] at h
  · rw [if_neg hret] at h
    obtain ⟨r, hr, heq⟩ := Option.map_eq_some_iff.1 h
    obtain ⟨rfl, rfl⟩ := Prod.mk.injEq _ _ _ _ ▸ heq
    exact ⟨by simpa using hret, r.2, hr, rfl⟩

theorem advance_offset (ws : WebsocketState) (h : ws.offset + 1 < 2 ^ 32) :
    (advance ws).offset = ws.offset + 1 := Nat.mod_eq_of_lt h

/-- The offset counts the bytes. -/
theorem wsSwitch_advance {ws : WebsocketState} {c : UInt8}
    (hgo : (wsSwitch 0 ws c).returned = false) (hoffset : ws.offset + 1 < 2 ^ 32) :
    (advance (wsSwitch 0 ws c).ws).offset = ws.offset + 1 := by
  have hsame := wsSwitch_offset 0 ws c hgo
  rw [advance_offset _ (by rw [hsame]; exact hoffset), hsame]

theorem skim_offset {bs : List UInt8} {ws ws' : WebsocketState} {evs : List WsEvent}
    (h : skim bs ws = some (ws', evs)) (hoffset : ws.offset + bs.length < 2 ^ 32) :
    ws'.offset = ws.offset + bs.length := by
  induction bs generalizing ws evs with
  | nil =>
    obtain ⟨rfl, -⟩ : ws = ws' ∧ [] = evs := by simpa [skim] using h
    rfl
  | cons c cs ih =>
    obtain ⟨hgo, evs', hrest, -⟩ := skim_cons h
    rw [List.length_cons] at hoffset ⊢
    have hnext := wsSwitch_advance hgo (by omega)
    rw [ih hrest (by rw [hnext]; omega), hnext]
    omega

/-- Bytes that are followed by more are skimmed. -/
theorem frameLoop_skim {used : Nat} {a rest : List UInt8} {ws ws' : WebsocketState}
    {evs : List WsEvent} (h : skim a ws = some (ws', evs)) (hrest : rest ≠ [])
    (hoffset : ws.offset + a.length + rest.length = used) (hused : used < 2 ^ 32) :
    frameLoop used (a ++ rest) ws =
      ((frameLoop used rest ws').1, evs ++ (frameLoop used rest ws').2) := by
  induction a generalizing ws evs with
  | nil =>
    obtain ⟨rfl, rfl⟩ : ws = ws' ∧ [] = evs := by simpa [skim] using h
    rfl
  | cons c cs ih =>
    obtain ⟨hgo, evs', htail, rfl⟩ := skim_cons h
    have hpos := List.length_pos_iff.2 hrest
    rw [List.length_cons] at hoffset
    have hnext := wsSwitch_advance hgo (by omega)
    simp only [List.cons_append, frameLoop]
    rw [wsSwitch_used (by omega) hused, hgo, if_neg Bool.false_ne_true,
      ih htail (by rw [hnext]; omega), List.append_assoc]

/-- Only the last byte of a frame leads back to the start, and with it the loop is left when it is
the last byte of the buffer. -/
theorem wsSwitch_last {used : Nat} {ws : WebsocketState} {c : UInt8}
    (hgo : (wsSwitch 0 ws c).returned = false) (hstart : (wsSwitch 0 ws c).ws.step = .start)
    (hlast : ws.offset + 1 = used) (hused : used < 2 ^ 32) :
    wsSwitch used ws c =
      .ret { advance (wsSwitch 0 ws c).ws with offset := 0 } (wsSwitch 0 ws c).events := by
  unfold wsSwitch at hgo hstart ⊢
  cases hstep : ws.step with
  | key =>
    simp only [hstep, stepKey, Switch.break_ws] at hstart
    split at hstart <;> simp_all
  | start => simp [hstep, stepStart] at hstart
  | length =>
    simp only [hstep, stepLength] at hgo hstart
    split_ifs at hgo hstart <;> simp_all
  | shortLength =>
    simp only [hstep, stepShortLength, Switch.break_ws] at hstart
    split at hstart <;> simp_all
  | extendedLength =>
    simp only [hstep, stepExtendedLength, Switch.break_ws] at hstart
    split at hstart <;> simp_all
  | data =>
    have hoffset : (frameDone (unmask (allocate ws).1 c)).offset = ws.offset := (allocate_fst ws).2.1
    have hmod : (ws.offset + 1) % 2 ^ 32 = ws.offset + 1 := Nat.mod_eq_of_lt (by omega)
    simp only [hstep, stepData] at hgo hstart ⊢
    by_cases hdone : (unmask (allocate ws).1 c).extendedLength = 0
    · rw [if_pos hdone] at hgo hstart
      rw [if_pos hdone, if_pos hdone]
      simp only [finishFrame, hoffset, hmod] at hgo ⊢
      by_cases hclose : (frameDone (unmask (allocate ws).1 c)).start &&& 0x0F = 0x8
      · simp [hclose] at hgo
      · rw [if_neg hclose, if_pos hlast, if_neg hclose, if_neg (by omega)]
        rfl
    · rw [if_neg hdone, Switch.break_ws] at hstart
      have hsame : (unmask (allocate ws).1 c).step = .data := (allocate_fst ws).1.trans hstep
      rw [hsame] at hstart
      exact WsPayloadStep.noConfusion hstart
  | theEnd => simp [hstep] at hstart

/-- A buffer that ends with a frame leaves the reader at offset 0. -/
theorem frameLoop_last (used : Nat) {bs : List UInt8} {ws ws' : WebsocketState}
    {evs : List WsEvent} (h : skim bs ws = some (ws', evs)) (hne : bs ≠ [])
    (hstart : ws'.step = .start) (hoffset : ws.offset + bs.length = used) (hused : used < 2 ^ 32) :
    frameLoop used bs ws = ({ ws' with offset := 0 }, evs) := by
  induction bs generalizing ws evs with
  | nil => exact absurd rfl hne
  | cons c cs ih =>
    obtain ⟨hgo, evs', htail, rfl⟩ := skim_cons h
    rw [List.length_cons] at hoffset
    simp only [frameLoop]
    by_cases hcs : cs = []
    · subst hcs
      obtain ⟨rfl, rfl⟩ : advance (wsSwitch 0 ws c).ws = ws' ∧ [] = evs' := by
        simpa [skim] using htail
      rw [wsSwitch_last hgo hstart hoffset hused]
      simp
    · have hnext := wsSwitch_advance hgo (by have := List.length_pos_iff.2 hcs; omega)
      rw [wsSwitch_used (by have := List.length_pos_iff.2 hcs; omega) hused, hgo,
        if_neg Bool.false_ne_true, ih htail hcs (by rw [hnext]; omega)]

/-! ## A frame is read to its end -/

/-- The reader is about to read the first byte of a frame. -/
structure Fresh (ws : WebsocketState) : Prop where
  step : ws.step = .start
  framePos : ws.framePos = 0
  keyPos : ws.keyPos = 0
  dataPos : ws.dataPos = 0

/-- The reader has a frame's header and `p` bytes of the key. -/
structure Keying (ws : WebsocketState) (start : UInt8) (n p : Nat) : Prop where
  step : ws.step = .key
  keyPos : ws.keyPos = p
  start : ws.start = start
  left : ws.extendedLength = n

/-- The reader is in the payload of a frame. -/
structure InPayload (ws : WebsocketState) (start : UInt8) (n : Nat) : Prop where
  step : ws.step = .data
  start : ws.start = start
  left : ws.extendedLength = n

theorem skim_cons_break {c : UInt8} {cs : List UInt8} {ws ws' : WebsocketState}
    {evs : List WsEvent} (h : wsSwitch 0 ws c = .break ws' evs) :
    skim (c :: cs) ws = (skim cs (advance ws')).map fun r => (r.1, evs ++ r.2) := by
  simp [skim, h]

/-- A byte of the header has no effect but on the state. -/
theorem skim_cons_silent {c : UInt8} {cs : List UInt8} {ws ws' : WebsocketState}
    (h : wsSwitch 0 ws c = .break ws' []) : skim (c :: cs) ws = skim cs (advance ws') := by
  rw [skim_cons_break h]
  simp

/-- The mask bit and the length of the tiny form. -/
theorem tiny_bits : ∀ n < 126, UInt8.ofNat (128 + n) &&& 0x80 ≠ 0 ∧
    UInt8.ofNat (128 + n) &&& 0x7F ≠ 126 ∧ UInt8.ofNat (128 + n) &&& 0x7F ≠ 127 ∧
    (UInt8.ofNat (128 + n) &&& 0x7F).toNat = n := by
  decide

/-- The two bytes of the short form are the length. -/
theorem ntohs_setByte (e : Nat) (b₀ b₁ : UInt8) :
    ntohs (setByte (setByte e 0 b₀) 1 b₁ % 2 ^ 16) = b₀.toNat * 2 ^ 8 + b₁.toNat := by
  have h₀ := b₀.toNat_lt
  have h₁ := b₁.toNat_lt
  have hlow : setByte e 0 b₀ = b₀.toNat + e / 256 * 256 := by
    simp [setByte, Nat.mod_one]
  rw [hlow, ntohs, setByte]
  omega

/-- One of the four upper bytes of the extended form. -/
theorem setByte_high (e : Nat) (b : UInt8) :
    setByte e 4 b / 2 ^ 32 = b.toNat + e / 2 ^ 40 * 2 ^ 8 ∧
      setByte e 5 b / 2 ^ 32 = e / 2 ^ 32 % 2 ^ 8 + b.toNat * 2 ^ 8 + e / 2 ^ 48 * 2 ^ 16 ∧
      setByte e 6 b / 2 ^ 32 = e / 2 ^ 32 % 2 ^ 16 + b.toNat * 2 ^ 16 + e / 2 ^ 56 * 2 ^ 24 ∧
      setByte e 7 b / 2 ^ 32 = e / 2 ^ 32 % 2 ^ 24 + b.toNat * 2 ^ 24 + e / 2 ^ 64 * 2 ^ 32 := by
  simp only [setByte]
  refine ⟨?_, ?_, ?_, ?_⟩ <;> omega

/-- The last four bytes of the extended form are the length, modulo `2 ^ 32`. -/
theorem ntohl_setByte (e : Nat) (b₄ b₅ b₆ b₇ : UInt8) :
    ntohl (setByte (setByte (setByte (setByte e 4 b₄) 5 b₅) 6 b₆) 7 b₇ / 2 ^ 32) =
      b₄.toNat * 2 ^ 24 + b₅.toNat * 2 ^ 16 + b₆.toNat * 2 ^ 8 + b₇.toNat := by
  have h₄ := b₄.toNat_lt
  have h₅ := b₅.toNat_lt
  have h₆ := b₆.toNat_lt
  have h₇ := b₇.toNat_lt
  rw [(setByte_high _ b₇).2.2.2, (setByte_high _ b₆).2.2.1, (setByte_high _ b₅).2.1,
    (setByte_high _ b₄).1, ntohl]
  omega

/-- The reader has `k` bytes of one of the longer length fields; `e` is the union so far. -/
structure Counting (ws : WebsocketState) (step : WsPayloadStep) (start : UInt8) (k e : Nat) :
    Prop where
  step : ws.step = step
  framePos : ws.framePos = k + 2
  keyPos : ws.keyPos = 0
  start : ws.start = start
  value : ws.extendedLength = e

/-- In a length field the store goes into the union. -/
theorem storeHeader_length {ws : WebsocketState} {k : Nat} (hpos : ws.framePos = k + 2)
    (hk : k ≤ 7) (c : UInt8) :
    storeHeader ws c = { ws with extendedLength := setByte ws.extendedLength k c } := by
  have hindex : (ws.framePos - 2).toNat = k := by omega
  rw [storeHeader, if_neg (by omega), if_neg (by omega), if_pos (by omega), hindex]

/-- The key and the block are as before. -/
def SameRest (ws ws' : WebsocketState) : Prop :=
  ws'.keyVal = ws.keyVal ∧ ws'.dataPos = ws.dataPos

theorem SameRest.trans {ws₁ ws₂ ws₃ : WebsocketState} (h : SameRest ws₁ ws₂)
    (h' : SameRest ws₂ ws₃) : SameRest ws₁ ws₃ := ⟨h'.1.trans h.1, h'.2.trans h.2⟩

/-- A byte of a length field, not the last one. -/
theorem skim_counting {ws : WebsocketState} {step : WsPayloadStep} {start : UInt8} {k e : Nat}
    (h : Counting ws step start k e)
    (hk : step = .shortLength ∧ k < 1 ∨ step = .extendedLength ∧ k < 7) (b : UInt8) :
    ∃ ws', (∀ cs, skim (b :: cs) ws = skim cs ws') ∧
      Counting ws' step start (k + 1) (setByte e k b) ∧ SameRest ws ws' := by
  have hstore := storeHeader_length h.framePos (by omega) b
  have hswitch : wsSwitch 0 ws b = .break (storeHeader ws b) [] := by
    have hpos := h.framePos
    rcases hk with ⟨rfl, hk⟩ | ⟨rfl, hk⟩
    · simp only [wsSwitch, h.step, stepShortLength]
      rw [if_neg (by rw [storeHeader_framePos]; omega)]
    · simp only [wsSwitch, h.step, stepExtendedLength]
      rw [if_neg (by rw [storeHeader_framePos]; omega)]
  refine ⟨advance (storeHeader ws b), fun cs => skim_cons_silent hswitch, ?_⟩
  rw [hstore]
  refine ⟨⟨h.step, ?_, h.keyPos, h.start, ?_⟩, rfl, rfl⟩
  · show ws.framePos + 1 = _
    rw [h.framePos]
    push_cast
    ring
  · show setByte ws.extendedLength k b = _
    rw [h.value]

/-- The last byte of the short form. -/
theorem skim_short_last {ws : WebsocketState} {start : UInt8} {e : Nat}
    (h : Counting ws .shortLength start 1 e) (b : UInt8) :
    ∃ ws', (∀ cs, skim (b :: cs) ws = skim cs ws') ∧
      Keying ws' start (ntohs (setByte e 1 b % 2 ^ 16)) 0 ∧ SameRest ws ws' := by
  have hstore := storeHeader_length h.framePos (by omega) b
  have hpos := h.framePos
  have hswitch : wsSwitch 0 ws b = .break { storeHeader ws b with
      extendedLength := ntohs ((storeHeader ws b).extendedLength % 2 ^ 16), step := .key } [] := by
    simp only [wsSwitch, h.step, stepShortLength]
    rw [if_pos (by rw [storeHeader_framePos]; omega)]
  refine ⟨_, fun cs => skim_cons_silent hswitch, ⟨rfl, ?_, ?_, ?_⟩, ?_⟩
  · rw [hstore]
    exact h.keyPos
  · rw [hstore]
    exact h.start
  · rw [hstore, ← h.value]
    rfl
  · rw [hstore]
    exact ⟨rfl, rfl⟩

/-- The last byte of the extended form. -/
theorem skim_extended_last {ws : WebsocketState} {start : UInt8} {e : Nat}
    (h : Counting ws .extendedLength start 7 e) (b : UInt8) :
    ∃ ws', (∀ cs, skim (b :: cs) ws = skim cs ws') ∧
      Keying ws' start (ntohl (setByte e 7 b / 2 ^ 32)) 0 ∧ SameRest ws ws' := by
  have hstore := storeHeader_length h.framePos (by omega) b
  have hpos := h.framePos
  have hswitch : wsSwitch 0 ws b = .break { storeHeader ws b with
      extendedLength := ntohl ((storeHeader ws b).extendedLength / 2 ^ 32), step := .key } [] := by
    simp only [wsSwitch, h.step, stepExtendedLength]
    rw [if_pos (by rw [storeHeader_framePos]; omega)]
  refine ⟨_, fun cs => skim_cons_silent hswitch, ⟨rfl, ?_, ?_, ?_⟩, ?_⟩
  · rw [hstore]
    exact h.keyPos
  · rw [hstore]
    exact h.start
  · rw [hstore, ← h.value]
    rfl
  · rw [hstore]
    exact ⟨rfl, rfl⟩

/-- The byte with the mask bit opens one of the longer forms. -/
theorem skim_length_open {ws : WebsocketState} (hstep : ws.step = .length)
    (hpos : ws.framePos = 1) (hkey : ws.keyPos = 0) {c : UInt8} {step : WsPayloadStep}
    (hc : c = 254 ∧ step = .shortLength ∨ c = 255 ∧ step = .extendedLength) :
    ∃ ws', (∀ cs, skim (c :: cs) ws = skim cs ws') ∧
      Counting ws' step ws.start 0 ws.extendedLength ∧ SameRest ws ws' := by
  have hswitch : wsSwitch 0 ws c = .break { ws with step := step } [] := by
    rcases hc with ⟨rfl, rfl⟩ | ⟨rfl, rfl⟩
    · simp only [wsSwitch, hstep, stepLength]
      rw [if_neg (by decide), if_pos (by decide)]
    · simp only [wsSwitch, hstep, stepLength]
      rw [if_neg (by decide), if_neg (by decide), if_pos (by decide)]
  refine ⟨_, fun cs => skim_cons_silent hswitch, ⟨rfl, ?_, hkey, rfl, rfl⟩, rfl, rfl⟩
  show ws.framePos + 1 = _
  rw [hpos]
  rfl

/-- A length below 126 is read from one byte, and the key comes next. -/
theorem skim_length_tiny {ws : WebsocketState} (hstep : ws.step = .length) (hkey : ws.keyPos = 0)
    {n : Nat} (hn : n < 126) :
    ∃ ws', (∀ cs, skim (UInt8.ofNat (128 + n) :: cs) ws = skim cs ws') ∧
      Keying ws' ws.start n 0 ∧ SameRest ws ws' := by
  obtain ⟨hmask, h126, h127, hlen⟩ := tiny_bits n hn
  have hswitch : wsSwitch 0 ws (UInt8.ofNat (128 + n)) =
      .break { ws with extendedLength := n, step := .key } [] := by
    simp only [wsSwitch, hstep, stepLength]
    rw [if_neg hmask, if_neg h126, if_neg h127, hlen]
  exact ⟨_, fun cs => skim_cons_silent hswitch, ⟨rfl, hkey, rfl, rfl⟩, rfl, rfl⟩

/-- The extended form, with any bytes: only the last four of them count. -/
theorem skim_extended {ws : WebsocketState} (hstep : ws.step = .length) (hpos : ws.framePos = 1)
    (hkey : ws.keyPos = 0) (b₀ b₁ b₂ b₃ b₄ b₅ b₆ b₇ : UInt8) :
    ∃ ws', (∀ cs, skim ([255, b₀, b₁, b₂, b₃, b₄, b₅, b₆, b₇] ++ cs) ws = skim cs ws') ∧
      Keying ws' ws.start
        (b₄.toNat * 2 ^ 24 + b₅.toNat * 2 ^ 16 + b₆.toNat * 2 ^ 8 + b₇.toNat) 0 ∧
      SameRest ws ws' := by
  obtain ⟨w, hw, hc, hr⟩ := skim_length_open hstep hpos hkey (Or.inr ⟨rfl, rfl⟩)
  obtain ⟨w₀, hw₀, hc₀, hr₀⟩ := skim_counting hc (by simp) b₀
  obtain ⟨w₁, hw₁, hc₁, hr₁⟩ := skim_counting hc₀ (by simp) b₁
  obtain ⟨w₂, hw₂, hc₂, hr₂⟩ := skim_counting hc₁ (by simp) b₂
  obtain ⟨w₃, hw₃, hc₃, hr₃⟩ := skim_counting hc₂ (by simp) b₃
  obtain ⟨w₄, hw₄, hc₄, hr₄⟩ := skim_counting hc₃ (by simp) b₄
  obtain ⟨w₅, hw₅, hc₅, hr₅⟩ := skim_counting hc₄ (by simp) b₅
  obtain ⟨w₆, hw₆, hc₆, hr₆⟩ := skim_counting hc₅ (by simp) b₆
  obtain ⟨w₇, hw₇, hhead, hr₇⟩ := skim_extended_last hc₆ b₇
  refine ⟨w₇, fun cs => ?_, ?_, (hr.trans (hr₀.trans (hr₁.trans (hr₂.trans (hr₃.trans
    (hr₄.trans (hr₅.trans (hr₆.trans hr₇))))))))⟩
  · simp only [List.cons_append, List.nil_append, hw, hw₀, hw₁, hw₂, hw₃, hw₄, hw₅, hw₆, hw₇]
  · rwa [ntohl_setByte] at hhead

/-- **The length field**, in any form. -/
theorem skim_lengthForm (ws : WebsocketState) (hstep : ws.step = .length)
    (hpos : ws.framePos = 1) (hkey : ws.keyPos = 0) (form : LengthForm) {n : Nat}
    (hn : n ≤ form.max) (hlt : n < 2 ^ 32) :
    ∃ ws', (∀ cs, skim (form.encode n ++ cs) ws = skim cs ws') ∧ Keying ws' ws.start n 0 ∧
      SameRest ws ws' := by
  have hbyte : ∀ m, (UInt8.ofNat m).toNat = m % 2 ^ 8 := fun m => UInt8.toNat_ofNat'
  cases form with
  | tiny => exact skim_length_tiny hstep hkey (Nat.lt_succ_of_le hn)
  | short =>
    obtain ⟨w₀, hw₀, hc₀, hr₀⟩ := skim_length_open hstep hpos hkey (Or.inl ⟨rfl, rfl⟩)
    obtain ⟨w₁, hw₁, hc₁, hr₁⟩ := skim_counting hc₀ (by simp) (UInt8.ofNat (n / 256))
    obtain ⟨w₂, hw₂, hhead, hr₂⟩ := skim_short_last hc₁ (UInt8.ofNat n)
    refine ⟨w₂, fun cs => ?_, ?_, (hr₀.trans hr₁).trans hr₂⟩
    · simp only [LengthForm.encode, List.cons_append, List.nil_append, hw₀, hw₁, hw₂]
    · rw [ntohs_setByte, hbyte, hbyte] at hhead
      have : n < 2 ^ 16 := by simp only [LengthForm.max] at hn; omega
      rwa [show n / 256 % 2 ^ 8 * 2 ^ 8 + n % 2 ^ 8 = n by omega] at hhead
  | extended =>
    obtain ⟨w, hw, hhead, hr⟩ := skim_extended hstep hpos hkey (UInt8.ofNat (n / 256 ^ 7))
      (UInt8.ofNat (n / 256 ^ 6)) (UInt8.ofNat (n / 256 ^ 5)) (UInt8.ofNat (n / 256 ^ 4))
      (UInt8.ofNat (n / 256 ^ 3)) (UInt8.ofNat (n / 256 ^ 2)) (UInt8.ofNat (n / 256)) (UInt8.ofNat n)
    refine ⟨w, hw, ?_, hr⟩
    rw [hbyte, hbyte, hbyte, hbyte] at hhead
    rwa [show n / 256 ^ 3 % 2 ^ 8 * 2 ^ 24 + n / 256 ^ 2 % 2 ^ 8 * 2 ^ 16 +
      n / 256 % 2 ^ 8 * 2 ^ 8 + n % 2 ^ 8 = n by omega] at hhead

/-- A byte of the key, not the last one. -/
theorem skim_keying {ws : WebsocketState} {start : UInt8} {n p : Nat} (h : Keying ws start n p)
    (hp : p < 3) (b : UInt8) :
    ∃ ws', (∀ cs, skim (b :: cs) ws = skim cs ws') ∧ Keying ws' start n (p + 1) ∧
      ws'.keyVal = ws.keyVal.set p b ∧ ws'.dataPos = ws.dataPos := by
  have hswitch : wsSwitch 0 ws b =
      .break { ws with keyVal := ws.keyVal.set p b, keyPos := p + 1 } [] := by
    simp only [wsSwitch, h.step, stepKey, h.keyPos]
    rw [if_neg (by omega)]
  exact ⟨_, fun cs => skim_cons_silent hswitch, ⟨h.step, rfl, h.start, h.left⟩, rfl, rfl⟩

/-- Behind the last byte of the key the payload begins. -/
theorem skim_key_last {ws : WebsocketState} {start : UInt8} {n : Nat} (h : Keying ws start n 3)
    (b : UInt8) :
    ∃ ws', (∀ cs, skim (b :: cs) ws = skim cs ws') ∧ InPayload ws' start n ∧
      ws'.keyVal = ws.keyVal.set 3 b ∧ ws'.dataPos = ws.dataPos ∧ ws'.dataInkey = 0 := by
  have hswitch : wsSwitch 0 ws b = .break { ws with
      keyVal := ws.keyVal.set 3 b, keyPos := 4, step := .data, dataInkey := 0 } [] := by
    simp only [wsSwitch, h.step, stepKey, h.keyPos]
    rw [if_pos trivial]
  exact ⟨_, fun cs => skim_cons_silent hswitch, ⟨rfl, h.start, h.left⟩, rfl, rfl, rfl⟩

/-- **The header**: the first byte, the length and the key. -/
theorem skim_header {ws : WebsocketState} (h : Fresh ws) (f : ClientFrame)
    (hlt : f.masked.length < 2 ^ 32) :
    ∃ ws', skim (f.start :: f.form.encode f.masked.length ++
        [f.key.1, f.key.2.1, f.key.2.2.1, f.key.2.2.2]) ws = some (ws', []) ∧
      InPayload ws' f.start f.masked.length ∧
      ws'.keyVal = (((ws.keyVal.set 0 f.key.1).set 1 f.key.2.1).set 2 f.key.2.2.1).set 3 f.key.2.2.2 ∧
      ws'.dataPos = 0 ∧ ws'.dataInkey = 0 := by
  have hswitch : wsSwitch 0 ws f.start =
      .break { ws with start := f.start, step := .length } [] := by
    simp only [wsSwitch, h.step, stepStart]
  set w := advance { ws with start := f.start, step := .length } with hw
  have hpos : w.framePos = 1 := by
    show ws.framePos + 1 = 1
    rw [h.framePos]
    rfl
  obtain ⟨w₀, hw₀, hk₀, hv₀, hd₀⟩ := skim_lengthForm w rfl hpos h.keyPos f.form f.fits hlt
  obtain ⟨w₁, hw₁, hk₁, hv₁, hd₁⟩ := skim_keying hk₀ (by omega) f.key.1
  obtain ⟨w₂, hw₂, hk₂, hv₂, hd₂⟩ := skim_keying hk₁ (by omega) f.key.2.1
  obtain ⟨w₃, hw₃, hk₃, hv₃, hd₃⟩ := skim_keying hk₂ (by omega) f.key.2.2.1
  obtain ⟨w₄, hw₄, hpay, hv₄, hd₄, hinkey⟩ := skim_key_last hk₃ f.key.2.2.2
  refine ⟨w₄, ?_, hpay, ?_, ?_, hinkey⟩
  · rw [List.cons_append, skim_cons_silent hswitch, hw₀, hw₁, hw₂, hw₃, hw₄, skim]
  · rw [hv₄, hv₃, hv₂, hv₁, hv₀]
    rfl
  · rw [hd₄, hd₃, hd₂, hd₁, hd₀]
    exact h.dataPos

/-- What the allocation leaves alone. -/
theorem allocate_rest (ws : WebsocketState) :
    (allocate ws).1.start = ws.start ∧ (allocate ws).1.extendedLength = ws.extendedLength ∧
      (allocate ws).1.keyVal = ws.keyVal ∧ (allocate ws).1.dataInkey = ws.dataInkey := by
  unfold allocate
  split <;> exact ⟨rfl, rfl, rfl, rfl⟩

/-- The accesses of one payload byte. -/
def dataEvents (ws : WebsocketState) : List WsEvent :=
  (allocate ws).2 ++
    [.consumed (allocate ws).1.extendedLength,
      .store (allocate ws).1.dataInkey.toInt (allocate ws).1.data.length]

/-- A payload byte with more to come. -/
theorem wsSwitch_data_more {ws : WebsocketState} {c : UInt8} (hstep : ws.step = .data)
    (hmore : (unmask (allocate ws).1 c).extendedLength ≠ 0) :
    wsSwitch 0 ws c = .break (unmask (allocate ws).1 c) (dataEvents ws) := by
  simp only [wsSwitch, hstep, stepData]
  rw [if_neg hmore]
  rfl

/-- The last payload byte of a frame that does not close the connection. -/
theorem wsSwitch_data_last {ws : WebsocketState} {c : UInt8} (hstep : ws.step = .data)
    (hdone : (unmask (allocate ws).1 c).extendedLength = 0) (hopen : ws.start &&& 0x0F ≠ 0x8)
    (hoffset : ws.offset + 1 < 2 ^ 32) :
    wsSwitch 0 ws c = .break (frameDone (unmask (allocate ws).1 c))
      (dataEvents ws ++ [.store (unmask (allocate ws).1 c).dataInkey.toInt
          (unmask (allocate ws).1 c).data.length] ++
        frameEvents { unmask (allocate ws).1 c with
          data := poke (unmask (allocate ws).1 c).data (unmask (allocate ws).1 c).dataInkey 0 }) := by
  have hkept : (frameDone (unmask (allocate ws).1 c)).start &&& 0x0F ≠ 0x8 := by
    show (allocate ws).1.start &&& 0x0F ≠ 0x8
    rwa [(allocate_rest ws).1]
  have hnot : ¬ ((frameDone (unmask (allocate ws).1 c)).offset + 1) % 2 ^ 32 = 0 := by
    show ¬ ((allocate ws).1.offset + 1) % 2 ^ 32 = 0
    rw [(allocate_fst ws).2.1]
    omega
  simp only [wsSwitch, hstep, stepData]
  rw [if_pos hdone]
  simp only [finishFrame]
  rw [if_neg hkept, if_neg hnot]
  rfl

/-- **The payload**, up to the last byte, which completes the frame. -/
theorem skim_payload {start : UInt8} (hopen : start &&& 0x0F ≠ 0x8) {masked : List UInt8}
    {ws : WebsocketState} (h : InPayload ws start masked.length) (hne : masked ≠ [])
    (hoffset : ws.offset + masked.length < 2 ^ 32) :
    ∃ ws' evs, skim masked ws = some (ws', evs) ∧ Fresh ws' := by
  induction masked generalizing ws with
  | nil => exact absurd rfl hne
  | cons c cs ih =>
    rw [List.length_cons] at hoffset
    have hleft := h.left
    rw [List.length_cons] at hleft
    obtain ⟨hstep, hsame, -⟩ := allocate_fst ws
    set w := unmask (allocate ws).1 c with hw
    have hwleft : w.extendedLength = cs.length := by
      show ((allocate ws).1.extendedLength + 2 ^ 64 - 1) % 2 ^ 64 = _
      rw [(allocate_rest ws).2.1, hleft]
      omega
    have hwoffset : w.offset = ws.offset := hsame
    have hwstart : w.start = start := (allocate_rest ws).1.trans h.start
    by_cases hcs : cs = []
    · subst hcs
      have hswitch := wsSwitch_data_last (c := c) h.step (by rw [← hw, hwleft]; rfl)
        (by rwa [h.start]) (by omega)
      exact ⟨_, _, by rw [skim_cons_break hswitch]; rfl, rfl, rfl, rfl, rfl⟩
    · have hmore : w.extendedLength ≠ 0 := by
        rw [hwleft]
        simpa using hcs
      have hnext : (advance w).offset = ws.offset + 1 := by
        rw [advance_offset w (by rw [hwoffset]; omega), hwoffset]
      have hreading : InPayload (advance w) start cs.length := ⟨hstep.trans h.step, hwstart, hwleft⟩
      obtain ⟨ws', evs', hrest, hfresh⟩ := ih hreading hcs (by rw [hnext]; omega)
      exact ⟨ws', dataEvents ws ++ evs',
        by rw [skim_cons_break (wsSwitch_data_more h.step hmore), hrest]; rfl, hfresh⟩

theorem length_encode (f : ClientFrame) : f.encode.length =
    (f.start :: f.form.encode f.masked.length ++
      [f.key.1, f.key.2.1, f.key.2.2.1, f.key.2.2.2]).length + f.masked.length := by
  rw [ClientFrame.encode, List.length_append]

/-- **A frame with payload is read to its end**, and the reader is ready for the next one. -/
theorem skim_encode {ws : WebsocketState} (h : Fresh ws) {f : ClientFrame} (hf : f.Carries)
    (hoffset : ws.offset + f.encode.length < 2 ^ 32) :
    ∃ ws' evs, skim f.encode ws = some (ws', evs) ∧ Fresh ws' := by
  rw [length_encode] at hoffset
  obtain ⟨w, hhead, hpay, -⟩ := skim_header h f (by omega)
  have hw := skim_offset hhead (by omega)
  obtain ⟨ws', evs, hrest, hfresh⟩ := skim_payload hf.open' hpay hf.payload (by omega)
  refine ⟨ws', evs, ?_, hfresh⟩
  rw [ClientFrame.encode, skim_append, hhead]
  simp [hrest]

/-- Consecutive whole frames are read to their end without a way out of the loop. -/
theorem skim_encodeAll {fs : List ClientFrame} (hfs : ∀ f ∈ fs, f.Carries) {ws : WebsocketState}
    (h : Fresh ws) (hoffset : ws.offset + (encodeAll fs).length < 2 ^ 32) :
    ∃ ws' evs, skim (encodeAll fs) ws = some (ws', evs) ∧ Fresh ws' := by
  induction fs generalizing ws with
  | nil => exact ⟨ws, [], rfl, h⟩
  | cons f fs ih =>
    obtain ⟨hf, hfs⟩ := List.forall_mem_cons.1 hfs
    rw [encodeAll, List.flatMap_cons, List.length_append] at hoffset
    obtain ⟨w, evs, hfirst, hfresh⟩ := skim_encode h hf (by omega)
    have hw := skim_offset hfirst (by omega)
    obtain ⟨ws', evs', hrest, hfresh'⟩ := ih hfs hfresh (by rw [encodeAll]; omega)
    refine ⟨ws', evs ++ evs', ?_, hfresh'⟩
    rw [encodeAll, List.flatMap_cons, skim_append, hfirst, ← encodeAll, Option.bind_some, hrest]
    rfl

/-! ## Where the bytes stand does not matter -/

/-- The same state at the offset `o`, with `data_pos` at `d`. -/
def WebsocketState.at (ws : WebsocketState) (o d : Nat) : WebsocketState :=
  { ws with offset := o, dataPos := d }

/-- The same state at another offset; `data_pos` only tells whether the block is allocated. -/
def Shifted (ws₁ ws₂ : WebsocketState) : Prop :=
  ∃ o d, ws₂ = ws₁.at o d ∧ (ws₁.dataPos = 0 ↔ d = 0)

/-- The same way out of the `switch`, with the same events. -/
structure SameSwitch (s₁ s₂ : Switch) : Prop where
  shifted : Shifted s₁.ws s₂.ws
  events : s₁.events = s₂.events
  returned : s₁.returned = s₂.returned

theorem Shifted.advance {ws₁ ws₂ : WebsocketState} (h : Shifted ws₁ ws₂) :
    Shifted (advance ws₁) (advance ws₂) := by
  obtain ⟨o, d, rfl, hiff⟩ := h
  exact ⟨(o + 1) % 2 ^ 32, d, rfl, hiff⟩

/-- The steps of the header do not look at the offset. -/
theorem wsSwitch_at (used₁ used₂ : Nat) {ws : WebsocketState} (hstep : ws.step ≠ .data)
    (o d : Nat) (c : UInt8) : wsSwitch used₂ (ws.at o d) c =
      ⟨(wsSwitch used₁ ws c).ws.at o d, (wsSwitch used₁ ws c).events,
        (wsSwitch used₁ ws c).returned⟩ := by
  have hstore : storeHeader (ws.at o d) c = (storeHeader ws c).at o d := by
    unfold storeHeader WebsocketState.at
    split_ifs <;> rfl
  have hsame : (ws.at o d).step = ws.step := rfl
  have hpos : (storeHeader ws c).framePos = ((storeHeader ws c).at o d).framePos := rfl
  unfold wsSwitch
  rw [hsame]
  cases h : ws.step with
  | key =>
    by_cases hfull : ws.keyPos + 1 = 4 <;>
      simp [stepKey, WebsocketState.at, hfull, Switch.break]
  | start => rfl
  | length =>
    simp only [stepLength]
    split_ifs <;> rfl
  | shortLength =>
    simp only [stepShortLength, hstore, ← hpos]
    split_ifs <;> rfl
  | extendedLength =>
    simp only [stepExtendedLength, hstore, ← hpos]
    split_ifs <;> rfl
  | data => exact absurd h hstep
  | theEnd => rfl

/-- The allocation, at either offset. -/
theorem allocate_at {ws : WebsocketState} {o d : Nat} (hiff : ws.dataPos = 0 ↔ d = 0)
    (hoffset : ws.offset ≠ 0) (ho : o ≠ 0) :
    ∃ d', allocate (ws.at o d) = ((allocate ws).1.at o d', (allocate ws).2) ∧
      ((allocate ws).1.dataPos = 0 ↔ d' = 0) := by
  unfold allocate
  by_cases hpos : ws.dataPos = 0
  · have hd : (ws.at o d).dataPos = 0 := hiff.1 hpos
    rw [if_pos hpos, if_pos hd]
    exact ⟨o, rfl, iff_of_false hoffset ho⟩
  · have hd : ¬ (ws.at o d).dataPos = 0 := fun h => hpos (hiff.2 h)
    rw [if_neg hpos, if_neg hd]
    exact ⟨d, rfl, hiff⟩

/-- The end of a frame, at either offset. -/
theorem finishFrame_at {used₁ used₂ : Nat} {ws : WebsocketState} {o : Nat}
    (hlast : (ws.offset + 1) % 2 ^ 32 = used₁ ↔ (o + 1) % 2 ^ 32 = used₂) (d : Nat)
    (events : List WsEvent) :
    SameSwitch (finishFrame used₁ ws events) (finishFrame used₂ (ws.at o d) events) := by
  have hdone : frameDone (ws.at o d) = (frameDone ws).at o 0 := rfl
  have hevents : frameEvents { ws.at o d with data := poke (ws.at o d).data (ws.at o d).dataInkey 0 } =
      frameEvents { ws with data := poke ws.data ws.dataInkey 0 } := rfl
  have hoffset : (frameDone ws).offset = ws.offset := rfl
  have ho : ((frameDone ws).at o 0).offset = o := rfl
  have hstart : ((frameDone ws).at o 0).start = (frameDone ws).start := rfl
  simp only [finishFrame, hevents, hdone, hoffset, ho, hstart]
  by_cases hclose : (frameDone ws).start &&& 0x0F = 0x8
  · rw [if_pos hclose, if_pos hclose]
    exact ⟨⟨o, 0, rfl, by simp [frameDone]⟩, rfl, rfl⟩
  · rw [if_neg hclose, if_neg hclose]
    by_cases hend : (ws.offset + 1) % 2 ^ 32 = used₁
    · rw [if_pos hend, if_pos (hlast.1 hend)]
      exact ⟨⟨0, 0, rfl, by simp [frameDone]⟩, rfl, rfl⟩
    · rw [if_neg hend, if_neg (fun h => hend (hlast.2 h))]
      exact ⟨⟨o, 0, rfl, by simp [frameDone]⟩, rfl, rfl⟩

/-- **One byte** does the same at either offset, as long as it is the last one of both buffers or
of none. -/
theorem wsSwitch_shift {used₁ used₂ : Nat} {ws₁ ws₂ : WebsocketState} (h : Shifted ws₁ ws₂)
    (h₁ : Placed ws₁) (h₂ : Placed ws₂)
    (hlast : (ws₁.offset + 1) % 2 ^ 32 = used₁ ↔ (ws₂.offset + 1) % 2 ^ 32 = used₂) (c : UInt8) :
    SameSwitch (wsSwitch used₁ ws₁ c) (wsSwitch used₂ ws₂ c) := by
  obtain ⟨o, d, rfl, hiff⟩ := h
  by_cases hstep : ws₁.step = .data
  · have hstep₂ : (ws₁.at o d).step = .data := hstep
    obtain ⟨d', halloc, hiff'⟩ :=
      allocate_at hiff (h₁ (by simp [hstep])) (show o ≠ 0 from h₂ (by simp [hstep₂]))
    simp only [wsSwitch, hstep, hstep₂, stepData, halloc]
    set w := unmask (allocate ws₁).1 c with hw
    have hw₂ : unmask ((allocate ws₁).1.at o d') c = w.at o d' := rfl
    have hleft : (w.at o d').extendedLength = w.extendedLength := rfl
    have hoffset : w.offset = ws₁.offset := (allocate_fst ws₁).2.1
    rw [hw₂, hleft]
    by_cases hdone : w.extendedLength = 0
    · rw [if_pos hdone, if_pos hdone]
      exact finishFrame_at (by rw [hoffset]; exact hlast) d' _
    · rw [if_neg hdone, if_neg hdone]
      exact ⟨⟨o, d', rfl, hiff'⟩, rfl, rfl⟩
  · have hself := wsSwitch_at used₁ used₁ hstep ws₁.offset ws₁.dataPos c
    have hpos : (wsSwitch used₁ ws₁ c).ws.dataPos = ws₁.dataPos :=
      congrArg (fun s => s.ws.dataPos) hself
    rw [wsSwitch_at used₁ used₂ hstep]
    exact ⟨⟨o, d, rfl, by rw [hpos]; exact hiff⟩, rfl, rfl⟩

/-- Behind a byte nothing starts at offset 0. -/
theorem placed_advance {ws : WebsocketState} (h : ws.offset + 1 < 2 ^ 32) :
    Placed (advance ws) := by
  intro _
  rw [advance_offset _ h]
  omega

/-- The loop gives the same events at either offset. -/
theorem frameLoop_shift {used₁ used₂ : Nat} {bs : List UInt8} {ws₁ ws₂ : WebsocketState}
    (h : Shifted ws₁ ws₂) (h₁ : Placed ws₁) (h₂ : Placed ws₂)
    (hoffset₁ : ws₁.offset + bs.length = used₁) (hoffset₂ : ws₂.offset + bs.length = used₂)
    (hused₁ : used₁ < 2 ^ 32) (hused₂ : used₂ < 2 ^ 32) :
    (frameLoop used₁ bs ws₁).2 = (frameLoop used₂ bs ws₂).2 := by
  induction bs generalizing ws₁ ws₂ with
  | nil =>
    simp only [frameLoop]
    rw [if_neg (by simp at hoffset₁; omega), if_neg (by simp at hoffset₂; omega)]
  | cons c cs ih =>
    rw [List.length_cons] at hoffset₁ hoffset₂
    have hlast : (ws₁.offset + 1) % 2 ^ 32 = used₁ ↔ (ws₂.offset + 1) % 2 ^ 32 = used₂ := by
      rw [Nat.mod_eq_of_lt (by omega), Nat.mod_eq_of_lt (by omega)]
      omega
    obtain ⟨hshift, hevents, hreturned⟩ := wsSwitch_shift h h₁ h₂ hlast c
    simp only [frameLoop, ← hreturned, ← hevents]
    by_cases hret : (wsSwitch used₁ ws₁ c).returned = true
    · rw [if_pos hret, if_pos hret]
    · have hgo₁ : (wsSwitch used₁ ws₁ c).returned = false := by simpa using hret
      have hgo₂ : (wsSwitch used₂ ws₂ c).returned = false := hreturned ▸ hgo₁
      have hsame₁ := wsSwitch_offset used₁ ws₁ c hgo₁
      have hsame₂ := wsSwitch_offset used₂ ws₂ c hgo₂
      have hnext₁ := advance_offset (wsSwitch used₁ ws₁ c).ws (by rw [hsame₁]; omega)
      have hnext₂ := advance_offset (wsSwitch used₂ ws₂ c).ws (by rw [hsame₂]; omega)
      rw [if_neg hret, if_neg hret]
      simp only
      rw [ih hshift.advance (placed_advance (by rw [hsame₁]; omega))
        (placed_advance (by rw [hsame₂]; omega)) (by rw [hnext₁, hsame₁]; omega)
        (by rw [hnext₂, hsame₂]; omega)]

/-- The loop without its ends does the same from two states that are shifted. -/
theorem skim_shift {bs : List UInt8} {ws₁ ws₂ w₁ : WebsocketState} {evs : List WsEvent}
    (h : Shifted ws₁ ws₂) (h₁ : Placed ws₁) (h₂ : Placed ws₂)
    (hoffset₁ : ws₁.offset + bs.length < 2 ^ 32) (hoffset₂ : ws₂.offset + bs.length < 2 ^ 32)
    (hskim : skim bs ws₁ = some (w₁, evs)) :
    ∃ w₂, skim bs ws₂ = some (w₂, evs) ∧ Shifted w₁ w₂ := by
  induction bs generalizing ws₁ ws₂ evs with
  | nil =>
    obtain ⟨rfl, rfl⟩ : ws₁ = w₁ ∧ [] = evs := by simpa [skim] using hskim
    exact ⟨ws₂, rfl, h⟩
  | cons c cs ih =>
    rw [List.length_cons] at hoffset₁ hoffset₂
    obtain ⟨hgo₁, evs', htail, rfl⟩ := skim_cons hskim
    have hlast : (ws₁.offset + 1) % 2 ^ 32 = 0 ↔ (ws₂.offset + 1) % 2 ^ 32 = 0 := by
      rw [Nat.mod_eq_of_lt (by omega), Nat.mod_eq_of_lt (by omega)]
      omega
    obtain ⟨hshift, hevents, hreturned⟩ := wsSwitch_shift h h₁ h₂ hlast c
    have hgo₂ : (wsSwitch 0 ws₂ c).returned = false := hreturned ▸ hgo₁
    have hsame₁ := wsSwitch_offset 0 ws₁ c hgo₁
    have hsame₂ := wsSwitch_offset 0 ws₂ c hgo₂
    have hnext₁ := wsSwitch_advance hgo₁ (by omega)
    have hnext₂ := wsSwitch_advance hgo₂ (by omega)
    obtain ⟨w₂, hskim₂, hw⟩ := ih hshift.advance (placed_advance (by rw [hsame₁]; omega))
      (placed_advance (by rw [hsame₂]; omega)) (by rw [hnext₁]; omega) (by rw [hnext₂]; omega)
      htail
    refine ⟨w₂, ?_, hw⟩
    simp only [skim, hskim₂, Option.map_some, hevents]
    rw [if_neg (by simp [hgo₂])]

/-! ## Reads that end with frames -/

/-- The read consists of whole frames with payload, none of which closes the connection. -/
def WholeFrames (bytes : List UInt8) : Prop :=
  ∃ fs : List ClientFrame, (∀ f ∈ fs, f.Carries) ∧ bytes = encodeAll fs

/-- From two fresh states, one of them at offset 0: reads give the same events as one buffer. -/
theorem runReads_eq_frameLoop {reads : List (List UInt8)} (hne : ∀ r ∈ reads, r ≠ [])
    (hwhole : ∀ r ∈ reads.dropLast, WholeFrames r) {ws₁ ws₂ : WebsocketState}
    (h : Shifted ws₁ ws₂) (h₁ : Fresh ws₁) (h₂ : Fresh ws₂) (hzero : ws₁.offset = 0)
    (hlen : ws₂.offset + reads.flatten.length < 2 ^ 32) :
    (runReads reads ws₁).2 =
      (frameLoop (ws₂.offset + reads.flatten.length) reads.flatten ws₂).2 := by
  induction reads generalizing ws₁ ws₂ with
  | nil => simp [runReads, frameLoop]
  | cons r reads ih =>
    obtain ⟨hr, htailne⟩ := List.forall_mem_cons.1 hne
    have hp₁ : Placed ws₁ := fun hs => absurd h₁.step hs
    have hp₂ : Placed ws₂ := fun hs => absurd h₂.step hs
    rw [List.flatten_cons, List.length_append] at hlen
    by_cases hlast : reads = []
    · -- the last read: any bytes
      subst hlast
      simp only [runReads, processFrame, hzero, List.drop_zero, List.append_nil,
        List.flatten_cons, List.flatten_nil]
      exact frameLoop_shift h hp₁ hp₂ (by rw [hzero]; omega) rfl
        (by simp at hlen; omega) (by simpa using hlen)
    · obtain ⟨next, more, rfl⟩ := List.exists_cons_of_ne_nil hlast
      rw [List.dropLast_cons_cons] at hwhole
      obtain ⟨⟨fs, hfs, rfl⟩, htailwhole⟩ := List.forall_mem_cons.1 hwhole
      have hrest : (next :: more).flatten ≠ [] := by
        have hnext := (List.forall_mem_cons.1 htailne).1
        rw [List.flatten_cons]
        exact List.append_ne_nil_of_left_ne_nil hnext _
      obtain ⟨w₁, evs, hskim₁, hfresh₁⟩ := skim_encodeAll hfs h₁ (by omega)
      obtain ⟨w₂, hskim₂, hw⟩ := skim_shift h hp₁ hp₂ (by omega) (by omega) hskim₁
      have hfresh₂ : Fresh w₂ := by
        obtain ⟨o, d, rfl, hiff⟩ := hw
        exact ⟨hfresh₁.step, hfresh₁.framePos, hfresh₁.keyPos, hiff.1 hfresh₁.dataPos⟩
      have hoffset₂ := skim_offset hskim₂ (by omega)
      have hfirst := frameLoop_last (encodeAll fs).length hskim₁ hr hfresh₁.step
        (by rw [hzero]; omega) (by omega)
      have hshift : Shifted { w₁ with offset := 0 } w₂ := by
        obtain ⟨o, d, rfl, hiff⟩ := hw
        exact ⟨o, d, rfl, hiff⟩
      have htail := ih htailne htailwhole hshift
        ⟨hfresh₁.step, hfresh₁.framePos, hfresh₁.keyPos, hfresh₁.dataPos⟩ hfresh₂ rfl
        (by rw [hoffset₂]; omega)
      rw [runReads, processFrame, hzero, List.drop_zero, hfirst, List.flatten_cons,
        frameLoop_skim hskim₂ hrest (by rw [List.length_append]; omega)
          (by rw [List.length_append]; omega)]
      simp only
      rw [htail, hoffset₂, List.length_append, Nat.add_assoc]

/-- **Reads cut behind whole frames do not matter.**  However a byte string of less than `2 ^ 32`
bytes is cut into non-empty reads, all of which but the last consist of whole frames with payload
that do not close the connection, the reads one after another give the events of the whole. -/
theorem runReads_split (block : WebsocketState) (stream : List UInt8) (reads : List (List UInt8))
    (hjoin : reads.flatten = stream) (hne : ∀ r ∈ reads, r ≠ [])
    (hlen : stream.length < 2 ^ 32) (hwhole : ∀ r ∈ reads.dropLast, WholeFrames r) :
    (runReads reads (httpReadyState block)).2 =
      (processFrame stream (httpReadyState block)).2 := by
  subst hjoin
  have hfresh : Fresh (httpReadyState block) := ⟨rfl, rfl, rfl, rfl⟩
  have hshift : Shifted (httpReadyState block) (httpReadyState block) := ⟨0, 0, rfl, Iff.rfl⟩
  have hzero : (httpReadyState block).offset = 0 := rfl
  have h := runReads_eq_frameLoop hne hwhole hshift hfresh hfresh rfl (by rw [hzero]; omega)
  rw [hzero, Nat.zero_add] at h
  rw [h, processFrame, hzero, List.drop_zero]

/-- What the function does to the outside. -/
def WsEvent.isReply : WsEvent → Bool
  | .onFrame _ _ => true
  | .write _ => true
  | .shutdown => true
  | _ => false

/-- Two text frames in two reads, the second of them cut off. -/
theorem runReads_split_text :
    (runReads [[0x81, 0x82, 1, 2, 3, 4, 0x40, 0x42], [0x81, 0x81, 1]]
        (httpReadyState ⟨[], 0, [0, 0, 0, 0], 0, 0, 0, 0, .start, 0, 0, 0, false⟩)).2 =
      (processFrame [0x81, 0x82, 1, 2, 3, 4, 0x40, 0x42, 0x81, 0x81, 1]
        (httpReadyState ⟨[], 0, [0, 0, 0, 0], 0, 0, 0, 0, .start, 0, 0, 0, false⟩)).2 := by
  refine runReads_split _ _ _ rfl (by decide) (by decide) ?_
  rw [show ([[0x81, 0x82, 1, 2, 3, 4, 0x40, 0x42], [0x81, 0x81, 1]] : List (List UInt8)).dropLast =
    [[0x81, 0x82, 1, 2, 3, 4, 0x40, 0x42]] from rfl]
  rintro r (_ | ⟨_, ⟨⟩⟩)
  exact ⟨[⟨0x81, .tiny, (1, 2, 3, 4), [0x40, 0x42], by decide⟩],
    List.forall_mem_singleton.2 ⟨by decide, by decide⟩, rfl⟩

/-- **One text frame cut behind its first byte**: the second read is entered at offset 1, and no
frame is reported. -/
theorem runReads_split_fails_inside :
    ((runReads [[0x81], [0x81, 1, 2, 3, 4, 0x40]]
        (httpReadyState ⟨[], 0, [0, 0, 0, 0], 0, 0, 0, 0, .start, 0, 0, 0, false⟩)).2.filter
          WsEvent.isReply) ≠
      ((processFrame ([0x81] ++ [0x81, 1, 2, 3, 4, 0x40])
        (httpReadyState ⟨[], 0, [0, 0, 0, 0], 0, 0, 0, 0, .start, 0, 0, 0, false⟩)).2.filter
          WsEvent.isReply) := by
  decide

end Ape.WebSocket
