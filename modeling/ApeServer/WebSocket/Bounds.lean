import ApeServer.WebSocket.Frame

/-!
# The payload block is never overrun

Every store of `ape_ws_process_frame` lies in the block that was allocated for the frame, on every
run in which each frame header declares a length from 1 to `2 ^ 31 - 1`.  A header that declares 0
breaks it: the byte after the key is taken for payload, and the length wraps.

* `declaredLength` — the length a header byte completes, from the state before it;
* `Sound` — the invariant that ties `data_inkey`, the remaining length, the block and `step`;
  `wsSwitch_sound` is its step lemma;
* `runReads_safe` — **every store of every such run is in bounds, and no payload byte is taken when
  none is to come**.
-/

namespace Ape.WebSocket

/-- The payload length that the byte `c` completes, when it is the last one of a length field. -/
def declaredLength (ws : WebsocketState) (c : UInt8) : Option Nat :=
  match ws.step with
  | .length =>
    if c &&& 0x80 = 0 ∨ c &&& 0x7F = 126 ∨ c &&& 0x7F = 127 then none
    else some (c &&& 0x7F).toNat
  | .shortLength =>
    if ws.framePos = 3 then some (ntohs ((storeHeader ws c).extendedLength % 2 ^ 16)) else none
  | .extendedLength =>
    if ws.framePos = 9 then some (ntohl ((storeHeader ws c).extendedLength / 2 ^ 32)) else none
  | _ => none

/-- The byte completes no length, or one from 1 to `2 ^ 31 - 1`. -/
def HeaderOk (ws : WebsocketState) (c : UInt8) : Prop :=
  ∀ n ∈ declaredLength ws c, 1 ≤ n ∧ n < 2 ^ 31

instance (ws : WebsocketState) (c : UInt8) : Decidable (HeaderOk ws c) :=
  inferInstanceAs (Decidable (∀ n ∈ declaredLength ws c, 1 ≤ n ∧ n < 2 ^ 31))

/-- Every byte that the loop takes is such a byte. -/
def LoopOk (used : Nat) : List UInt8 → WebsocketState → Prop
  | [], _ => True
  | c :: cs, ws => HeaderOk ws c ∧
      ((wsSwitch used ws c).returned = false → LoopOk used cs (advance (wsSwitch used ws c).ws))

instance decidableLoopOk (used : Nat) :
    ∀ (bs : List UInt8) (ws : WebsocketState), Decidable (LoopOk used bs ws)
  | [], _ => isTrue trivial
  | c :: cs, ws =>
    have := decidableLoopOk used cs (advance (wsSwitch used ws c).ws)
    inferInstanceAs (Decidable (HeaderOk ws c ∧
      ((wsSwitch used ws c).returned = false → LoopOk used cs (advance (wsSwitch used ws c).ws))))

/-- Every read is shorter than `2 ^ 32` bytes, and every byte taken from it is such a byte. -/
def ReadsOk : List (List UInt8) → WebsocketState → Prop
  | [], _ => True
  | bytes :: reads, ws => bytes.length < 2 ^ 32 ∧
      LoopOk bytes.length (bytes.drop ws.offset) ws ∧ ReadsOk reads (processFrame bytes ws).1

instance decidableReadsOk :
    ∀ (reads : List (List UInt8)) (ws : WebsocketState), Decidable (ReadsOk reads ws)
  | [], _ => isTrue trivial
  | bytes :: reads, ws =>
    have := decidableReadsOk reads (processFrame bytes ws).1
    inferInstanceAs (Decidable (bytes.length < 2 ^ 32 ∧
      LoopOk bytes.length (bytes.drop ws.offset) ws ∧ ReadsOk reads (processFrame bytes ws).1))

/-- A store is inside the block it is made to, the last byte of which is the one for the
terminator; a payload byte is taken only when one is to come. -/
def WsEvent.Safe : WsEvent → Prop
  | .store index size => 0 ≤ index ∧ index < size
  | .consumed left => left ≠ 0
  | _ => True

/-! ## The invariant -/

/-- The block is being filled: the index, the bytes to come and the terminator add up to it. -/
structure Filling (ws : WebsocketState) : Prop where
  left : 1 ≤ ws.extendedLength
  index : 0 ≤ ws.dataInkey.toInt
  size : ws.dataInkey.toInt + ws.extendedLength + 1 = ws.data.length
  fits : ws.data.length ≤ 2 ^ 31

/-- The state between two bytes: nothing is allocated outside of the payload, a declared length is
in range, and in the payload a block is about to be allocated or being filled. -/
structure Sound (ws : WebsocketState) : Prop where
  header : ws.step ≠ .data → ws.dataPos = 0
  declared : ws.step = .key → 1 ≤ ws.extendedLength ∧ ws.extendedLength < 2 ^ 31
  first : ws.step = .data → ws.dataPos = 0 →
    ws.dataInkey = 0 ∧ 1 ≤ ws.extendedLength ∧ ws.extendedLength < 2 ^ 31
  filling : ws.step = .data → ws.dataPos ≠ 0 → Filling ws

/-- No payload starts at offset 0. -/
def Placed (ws : WebsocketState) : Prop := ws.step ≠ .start → ws.offset ≠ 0

theorem sound_httpReadyState (block : WebsocketState) : Sound (httpReadyState block) := by
  refine ⟨fun _ => rfl, ?_, ?_, ?_⟩ <;> simp [httpReadyState]

theorem placed_httpReadyState (block : WebsocketState) : Placed (httpReadyState block) :=
  fun h => absurd rfl h

@[simp] theorem length_poke (data : List UInt8) (i : Int32) (b : UInt8) :
    (poke data i b).length = data.length := by
  unfold poke
  split
  · exact List.length_set
  · rfl

section storeHeader

variable (ws : WebsocketState) (c : UInt8)

@[simp] theorem storeHeader_step : (storeHeader ws c).step = ws.step := by
  unfold storeHeader
  split_ifs <;> rfl

@[simp] theorem storeHeader_dataPos : (storeHeader ws c).dataPos = ws.dataPos := by
  unfold storeHeader
  split_ifs <;> rfl

@[simp] theorem storeHeader_framePos : (storeHeader ws c).framePos = ws.framePos := by
  unfold storeHeader
  split_ifs <;> rfl

@[simp] theorem storeHeader_offset : (storeHeader ws c).offset = ws.offset := by
  unfold storeHeader
  split_ifs <;> rfl

end storeHeader

/-- A state in a header is sound when nothing is allocated and a declared length is in range. -/
theorem Sound.of_header {ws : WebsocketState} (hstep : ws.step ≠ .data) (hpos : ws.dataPos = 0)
    (hdeclared : ws.step = .key → 1 ≤ ws.extendedLength ∧ ws.extendedLength < 2 ^ 31) :
    Sound ws :=
  ⟨fun _ => hpos, hdeclared, fun h => absurd h hstep, fun h => absurd h hstep⟩

/-- What one byte must keep: its stores are safe and the state is sound again. -/
structure Kept (s : Switch) : Prop where
  safe : ∀ e ∈ s.events, e.Safe
  sound : Sound s.ws
  placed : s.returned = true → Placed s.ws

/-! ## One byte -/

theorem stepKey_kept {ws : WebsocketState} (h : Sound ws) (hstep : ws.step = .key) (c : UInt8) :
    Kept (stepKey ws c) := by
  have hpos : ws.dataPos = 0 := h.header (by simp [hstep])
  have hdeclared := h.declared hstep
  refine ⟨by simp [stepKey], ?_, by simp [stepKey]⟩
  simp only [stepKey, Switch.break_ws]
  split
  · exact ⟨fun hne => absurd rfl hne, fun hkey => by simp at hkey,
      fun _ _ => ⟨rfl, hdeclared⟩, fun _ hne => absurd hpos hne⟩
  · exact .of_header (by simp [hstep]) hpos fun _ => hdeclared

theorem stepStart_kept {ws : WebsocketState} (h : Sound ws) (hstep : ws.step = .start) (c : UInt8) :
    Kept (stepStart ws c) := by
  refine ⟨by simp [stepStart], ?_, by simp [stepStart]⟩
  exact .of_header (by simp [stepStart]) (h.header (by simp [hstep]))
    (by simp [stepStart])

theorem stepLength_kept {ws : WebsocketState} (h : Sound ws) (hplaced : Placed ws)
    (hstep : ws.step = .length) {c : UInt8} (hc : HeaderOk ws c) : Kept (stepLength ws c) := by
  have hpos : ws.dataPos = 0 := h.header (by simp [hstep])
  unfold stepLength
  by_cases hmask : c &&& 0x80 = 0
  · rw [if_pos hmask]
    exact ⟨by simp, h, fun _ => hplaced⟩
  · rw [if_neg hmask]
    by_cases h126 : c &&& 0x7F = 126
    · rw [if_pos h126]
      exact ⟨by simp, .of_header (by simp) hpos
        (by simp), by simp⟩
    · rw [if_neg h126]
      by_cases h127 : c &&& 0x7F = 127
      · rw [if_pos h127]
        exact ⟨by simp, .of_header (by simp) hpos
          (by simp), by simp⟩
      · rw [if_neg h127]
        refine ⟨by simp, .of_header (by simp) hpos fun _ => ?_,
          by simp⟩
        refine hc _ ?_
        simp only [declaredLength, hstep]
        rw [if_neg (by simp [hmask, h126, h127])]
        rfl

/-- The two longer forms of the length differ in where they end and in how the bytes are read. -/
theorem lengthBytes_kept {ws : WebsocketState} (h : Sound ws) (hstep : ws.step ≠ .data)
    (hkey : ws.step ≠ .key) (c : UInt8) (last : Int) (value : Nat)
    (hvalue : ws.framePos = last → 1 ≤ value ∧ value < 2 ^ 31) :
    Kept (.break (if (storeHeader ws c).framePos = last then
      { storeHeader ws c with extendedLength := value, step := .key } else storeHeader ws c) []) := by
  have hpos : (storeHeader ws c).dataPos = 0 := by
    rw [storeHeader_dataPos]
    exact h.header hstep
  refine ⟨by simp, ?_, by simp⟩
  simp only [Switch.break_ws]
  split
  · rename_i hlast
    rw [storeHeader_framePos] at hlast
    exact .of_header (by simp) hpos fun _ => hvalue hlast
  · refine .of_header (by rwa [storeHeader_step]) hpos fun h => ?_
    rw [storeHeader_step] at h
    exact absurd h hkey

/-- The allocation at the first payload byte leaves a block that is being filled. -/
theorem allocate_filling {ws : WebsocketState} (h : Sound ws) (hstep : ws.step = .data) :
    Filling (allocate ws).1 ∧ ∀ e ∈ (allocate ws).2, e.Safe := by
  unfold allocate
  by_cases hpos : ws.dataPos = 0
  · obtain ⟨hinkey, hone, hlt⟩ := h.first hstep hpos
    have hsize : (ws.extendedLength + 1) % 2 ^ 64 = ws.extendedLength + 1 :=
      Nat.mod_eq_of_lt (by omega)
    rw [if_pos hpos]
    refine ⟨⟨hone, ?_, ?_, ?_⟩, by simp [WsEvent.Safe]⟩
    · simp [hinkey]
    · simp only [hinkey, List.length_replicate, hsize, CInt.toInt_zero]
      omega
    · simp only [List.length_replicate, hsize]
      omega
  · rw [if_neg hpos]
    exact ⟨h.filling hstep hpos, by simp⟩

/-- One payload byte moves the index on and takes one off what is to come. -/
theorem Filling.unmask {ws : WebsocketState} (h : Filling ws) (c : UInt8) :
    (unmask ws c).dataInkey.toInt = ws.dataInkey.toInt + 1 ∧
      (unmask ws c).extendedLength = ws.extendedLength - 1 ∧
      (unmask ws c).data.length = ws.data.length := by
  obtain ⟨hleft, hindex, hsize, hfits⟩ := h
  refine ⟨?_, ?_, length_poke _ _ _⟩
  · show (ws.dataInkey + 1).toInt = _
    rw [CInt.toInt_add] <;> simp only [CInt.toInt_one] <;> omega
  · show (ws.extendedLength + 2 ^ 64 - 1) % 2 ^ 64 = _
    omega

/-- What a complete frame does stores nothing. -/
theorem frameEvents_safe (ws : WebsocketState) : ∀ e ∈ frameEvents ws, e.Safe := by
  intro e he
  unfold frameEvents at he
  split_ifs at he <;> simp only [List.mem_cons, List.mem_append, List.not_mem_nil, or_false,
    false_or] at he
  all_goals rcases he with rfl | rfl <;> trivial

/-- A complete frame leaves a state that starts over. -/
theorem finishFrame_kept (used : Nat) {ws : WebsocketState} {events : List WsEvent}
    (hevents : ∀ e ∈ events, e.Safe)
    (hstore : 0 ≤ ws.dataInkey.toInt ∧ ws.dataInkey.toInt < ws.data.length) :
    Kept (finishFrame used ws events) := by
  have hsafe : ∀ e ∈ events ++ [.store ws.dataInkey.toInt ws.data.length] ++
      frameEvents { ws with data := poke ws.data ws.dataInkey 0 }, e.Safe := by
    intro e he
    rcases List.mem_append.1 he with he | he
    · rcases List.mem_append.1 he with he | he
      · exact hevents e he
      · rw [List.mem_singleton.1 he]
        exact hstore
    · exact frameEvents_safe _ e he
  simp only [finishFrame]
  split_ifs
  · exact ⟨hsafe, .of_header (by simp [frameDone]) rfl
      (by simp [frameDone]), fun _ hne => absurd rfl hne⟩
  · exact ⟨hsafe, .of_header (by simp [frameDone]) rfl
      (by simp [frameDone]), fun _ hne => absurd rfl hne⟩
  · exact ⟨hsafe, .of_header (by simp [frameDone]) rfl
      (by simp [frameDone]), by simp⟩

/-- The allocation leaves the step and the offset alone, and marks the block as allocated. -/
theorem allocate_fst (ws : WebsocketState) :
    (allocate ws).1.step = ws.step ∧ (allocate ws).1.offset = ws.offset ∧
      (ws.offset ≠ 0 → (allocate ws).1.dataPos ≠ 0) := by
  unfold allocate
  by_cases hpos : ws.dataPos = 0
  · rw [if_pos hpos]
    exact ⟨rfl, rfl, id⟩
  · rw [if_neg hpos]
    exact ⟨rfl, rfl, fun _ => hpos⟩

theorem stepData_kept (used : Nat) {ws : WebsocketState} (h : Sound ws) (hplaced : Placed ws)
    (hstep : ws.step = .data) (c : UInt8) : Kept (stepData used ws c) := by
  obtain ⟨hsame, -, hmarked⟩ := allocate_fst ws
  obtain ⟨hfill, hmalloc⟩ := allocate_filling h hstep
  obtain ⟨hindex, hleft, hlength⟩ := hfill.unmask c
  have hone := hfill.left
  have hsize := hfill.size
  have hge := hfill.index
  have hevents : ∀ e ∈ (allocate ws).2 ++ [.consumed (allocate ws).1.extendedLength,
      .store (allocate ws).1.dataInkey.toInt (allocate ws).1.data.length], e.Safe := by
    intro e he
    rcases List.mem_append.1 he with he | he
    · exact hmalloc e he
    · simp only [List.mem_cons, List.not_mem_nil, or_false] at he
      rcases he with rfl | rfl
      · exact Nat.one_le_iff_ne_zero.1 hone
      · exact ⟨hge, by omega⟩
  simp only [stepData]
  split
  · exact finishFrame_kept used hevents (by rw [hindex, hlength]; omega)
  · rename_i hmore
    have hdata : (unmask (allocate ws).1 c).step = .data := hsame.trans hstep
    have hpos : (unmask (allocate ws).1 c).dataPos ≠ 0 := hmarked (hplaced (by simp [hstep]))
    refine ⟨hevents, ⟨fun hne => absurd hdata hne, fun hkey => ?_, fun _ h0 => absurd h0 hpos,
      fun _ _ => ⟨Nat.one_le_iff_ne_zero.2 hmore, ?_, ?_, ?_⟩⟩, by simp⟩
    · rw [Switch.break_ws, hdata] at hkey
      exact WsPayloadStep.noConfusion hkey
    · rw [Switch.break_ws, hindex]
      omega
    · rw [Switch.break_ws, hindex, hleft, hlength]
      omega
    · rw [Switch.break_ws, hlength]
      exact hfill.fits

/-- **One byte** keeps the invariant. -/
theorem wsSwitch_kept (used : Nat) {ws : WebsocketState} (h : Sound ws) (hplaced : Placed ws)
    {c : UInt8} (hc : HeaderOk ws c) : Kept (wsSwitch used ws c) := by
  unfold wsSwitch
  cases hstep : ws.step with
  | key => exact stepKey_kept h hstep c
  | start => exact stepStart_kept h hstep c
  | length => exact stepLength_kept h hplaced hstep hc
  | shortLength =>
    refine lengthBytes_kept h (by simp [hstep]) (by simp [hstep]) c 3 _ fun hlast => ?_
    exact hc _ (by simp [declaredLength, hstep, hlast])
  | extendedLength =>
    refine lengthBytes_kept h (by simp [hstep]) (by simp [hstep]) c 9 _ fun hlast => ?_
    exact hc _ (by simp [declaredLength, hstep, hlast])
  | data => exact stepData_kept used h hplaced hstep c
  | theEnd => exact ⟨by simp, h, by simp⟩

/-- A frame that is followed by more bytes leaves the offset alone. -/
theorem finishFrame_offset {used : Nat} {ws : WebsocketState} {events : List WsEvent}
    (hgo : (finishFrame used ws events).returned = false) :
    (finishFrame used ws events).ws.offset = ws.offset := by
  simp only [finishFrame] at hgo ⊢
  by_cases hclose : (frameDone ws).start &&& 0x0F = 0x8
  · simp [hclose] at hgo
  · by_cases hlast : ((frameDone ws).offset + 1) % 2 ^ 32 = used
    · rw [if_neg hclose, if_pos hlast, Switch.ret_returned] at hgo
      exact Bool.noConfusion hgo
    · rw [if_neg hclose, if_neg hlast]
      rfl

/-- Inside the loop nothing but `offset++` moves the offset. -/
theorem wsSwitch_offset (used : Nat) (ws : WebsocketState) (c : UInt8)
    (hgo : (wsSwitch used ws c).returned = false) : (wsSwitch used ws c).ws.offset = ws.offset := by
  unfold wsSwitch at hgo ⊢
  cases hstep : ws.step with
  | key =>
    simp only [stepKey, Switch.break_ws]
    split <;> rfl
  | start => rfl
  | length =>
    simp only [stepLength]
    split_ifs <;> rfl
  | shortLength =>
    simp only [stepShortLength, Switch.break_ws]
    split <;> simp
  | extendedLength =>
    simp only [stepExtendedLength, Switch.break_ws]
    split <;> simp
  | data =>
    simp only [hstep, stepData] at hgo ⊢
    split at hgo
    · rename_i hdone
      rw [if_pos hdone, finishFrame_offset hgo]
      exact (allocate_fst ws).2.1
    · rename_i hmore
      rw [if_neg hmore]
      exact (allocate_fst ws).2.1
  | theEnd => rfl

/-! ## One read, and every run -/

/-- **One read** keeps the invariant. -/
theorem frameLoop_safe {used : Nat} (hused : used < 2 ^ 32) {bs : List UInt8}
    {ws : WebsocketState} (h : Sound ws) (hplaced : Placed ws) (hok : LoopOk used bs ws)
    (hoffset : bs ≠ [] → ws.offset + bs.length = used) :
    Sound (frameLoop used bs ws).1 ∧ Placed (frameLoop used bs ws).1 ∧
      ∀ e ∈ (frameLoop used bs ws).2, e.Safe := by
  induction bs generalizing ws with
  | nil =>
    refine ⟨h, hplaced, fun e he => ?_⟩
    simp only [frameLoop] at he
    split at he <;> simp at he
    rw [he]
    trivial
  | cons c cs ih =>
    obtain ⟨hsafe, hsound, hleave⟩ := wsSwitch_kept used h hplaced hok.1
    simp only [frameLoop]
    by_cases hret : (wsSwitch used ws c).returned = true
    · rw [if_pos hret]
      exact ⟨hsound, hleave hret, hsafe⟩
    · have hgo : (wsSwitch used ws c).returned = false := by simpa using hret
      have hlen := hoffset (List.cons_ne_nil c cs)
      rw [List.length_cons] at hlen
      have hnext : (advance (wsSwitch used ws c).ws).offset = ws.offset + 1 := by
        show ((wsSwitch used ws c).ws.offset + 1) % 2 ^ 32 = _
        rw [wsSwitch_offset used ws c hgo]
        exact Nat.mod_eq_of_lt (by omega)
      rw [if_neg hret]
      obtain ⟨hsound', hplaced', hsafe'⟩ := @ih
        (advance (wsSwitch used ws c).ws)
        ⟨hsound.header, hsound.declared, hsound.first, fun hs hp => ⟨(hsound.filling hs hp).left,
          (hsound.filling hs hp).index, (hsound.filling hs hp).size, (hsound.filling hs hp).fits⟩⟩
        (fun _ => by rw [hnext]; omega) (hok.2 hgo) (fun _ => by rw [hnext]; omega)
      refine ⟨hsound', hplaced', fun e he => ?_⟩
      rcases List.mem_append.1 he with he | he
      · exact hsafe e he
      · exact hsafe' e he

/-- Every sequence of reads keeps the invariant. -/
theorem runReads_sound {reads : List (List UInt8)} {ws : WebsocketState} (h : Sound ws)
    (hplaced : Placed ws) (hok : ReadsOk reads ws) : ∀ e ∈ (runReads reads ws).2, e.Safe := by
  induction reads generalizing ws with
  | nil => simp [runReads]
  | cons bytes reads ih =>
    obtain ⟨hused, hloop, hrest⟩ := hok
    have hoffset : bytes.drop ws.offset ≠ [] →
        ws.offset + (bytes.drop ws.offset).length = bytes.length := by
      intro hne
      have hlt := List.length_pos_iff.2 hne
      rw [List.length_drop] at hlt ⊢
      omega
    obtain ⟨hsound, hplaced', hsafe⟩ := frameLoop_safe hused h hplaced hloop hoffset
    intro e he
    rcases List.mem_append.1 he with he | he
    · exact hsafe e he
    · exact ih hsound hplaced' hrest e he

/-- **The payload block is never overrun.**  From the state `ape_server_http_ready` sets up, on
every run whose reads are shorter than `2 ^ 32` bytes and whose headers declare lengths from 1 to
`2 ^ 31 - 1`, every store is inside the block allocated for its frame and no payload byte is taken
when none is to come. -/
theorem runReads_safe (block : WebsocketState) (reads : List (List UInt8))
    (hok : ReadsOk reads (httpReadyState block)) :
    ∀ e ∈ (runReads reads (httpReadyState block)).2, e.Safe :=
  runReads_sound (sound_httpReadyState block) (placed_httpReadyState block) hok

/-- A text frame of two bytes, cut into two reads. -/
theorem runReads_safe_text :
    (runReads [[0x81, 0x82, 1, 2, 3, 4, 0x40], [0x42]]
      (httpReadyState ⟨[], 0, [0, 0, 0, 0], 0, 0, 0, 0, .start, 0, 0, 0, false⟩)).2 ≠ [] ∧
    ∀ e ∈ (runReads [[0x81, 0x82, 1, 2, 3, 4, 0x40], [0x42]]
      (httpReadyState ⟨[], 0, [0, 0, 0, 0], 0, 0, 0, 0, .start, 0, 0, 0, false⟩)).2, e.Safe :=
  ⟨by decide, runReads_safe _ _ (by decide)⟩

/-- **A frame of length 0** followed by the first two bytes of the next frame: the second of them
is stored behind the block of one byte. -/
theorem runReads_safe_fails_empty_frame :
    ¬ ∀ e ∈ (runReads [[0x81, 0x80, 1, 2, 3, 4, 0x81, 0x80]]
      (httpReadyState ⟨[], 0, [0, 0, 0, 0], 0, 0, 0, 0, .start, 0, 0, 0, false⟩)).2, e.Safe := by
  intro h
  have hstore : WsEvent.Safe (.store 1 1) := h _ (by decide)
  exact absurd hstore.2 (by decide)

end Ape.WebSocket
