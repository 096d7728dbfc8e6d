import ApeServer.WebSocket.Split

/-!
# What a read of whole frames reports

Inside of a frame the block holds the bytes unmasked so far, with zeros behind them, `data_inkey`
counts them, and `extended_length` counts the ones to come.  This holds from the last byte of the
key to the last byte of the payload, whatever form the length was sent in.

* `ClientFrame.payload`, `ClientFrame.reply` — what is to be reported of a frame;
* `Decoding` — the invariant inside of the payload;
* `decoding_unmask` — one byte keeps it;
* `skim_decode`, `skim_decodeAll` — the payload of one frame, and consecutive frames, which are stored
  in their blocks;
* `processFrame_decodes` — **a read of whole frames reports each of them once, in order, unmasked,
  and leaves the reader where it was**.
-/

namespace Ape.WebSocket

/-! ## What is to be reported -/

/-- The masking key of a frame. -/
def ClientFrame.keyVal (f : ClientFrame) : List UInt8 :=
  [f.key.1, f.key.2.1, f.key.2.2.1, f.key.2.2.2]

/-- Bytes from position `k` of a payload on, unmasked: byte `i` with byte `i mod 4` of the key. -/
def unmaskFrom (key : List UInt8) (k : Nat) (masked : List UInt8) : List UInt8 :=
  (masked.zipIdx k).map fun p => p.1 ^^^ key.getD (p.2 % 4) 0

/-- The payload of a frame. -/
def ClientFrame.payload (f : ClientFrame) : List UInt8 := unmaskFrom f.keyVal 0 f.masked

/-- The report of a frame with this first byte: none of a ping or a pong. -/
def replyTo (start : UInt8) (payload : List UInt8) : List WsEvent :=
  if start &&& 0x0F = 0x9 ∨ start &&& 0x0F = 0xA then [] else [.onFrame payload payload.length]

/-- The report of a frame. -/
def ClientFrame.reply (f : ClientFrame) : List WsEvent := replyTo f.start f.payload

theorem unmaskFrom_cons (key : List UInt8) (k : Nat) (c : UInt8) (cs : List UInt8) :
    unmaskFrom key k (c :: cs) = (c ^^^ key.getD (k % 4) 0) :: unmaskFrom key (k + 1) cs := by
  rw [unmaskFrom, List.zipIdx_cons, List.map_cons, unmaskFrom]

/-! ## One payload byte -/

/-- The reader has unmasked `done` of a frame, with `todo` bytes to come. -/
structure Decoding (ws : WebsocketState) (start : UInt8) (key done : List UInt8) (todo : Nat) :
    Prop where
  step : ws.step = .data
  start : ws.start = start
  left : ws.extendedLength = todo
  keyVal : ws.keyVal = key
  index : ws.dataInkey.toInt = done.length
  data : (allocate ws).1.data = done ++ List.replicate (todo + 1) 0

/-- Behind the key nothing is unmasked. -/
theorem InPayload.decoding {ws : WebsocketState} {start : UInt8} {n : Nat}
    (h : InPayload ws start n) (hn : n < 2 ^ 31) (hpos : ws.dataPos = 0) (hinkey : ws.dataInkey = 0) :
    Decoding ws start ws.keyVal [] n := by
  refine ⟨h.step, h.start, h.left, rfl, by rw [hinkey]; rfl, ?_⟩
  rw [allocate, if_pos hpos]
  show List.replicate ((ws.extendedLength + 1) % 2 ^ 64) 0 = _
  rw [h.left, Nat.mod_eq_of_lt (by omega)]
  rfl

/-- The index of a byte of the payload modulo 4 is its position in the key. -/
theorem index_mod {i : Int32} {n : Nat} (h : i.toInt = n) : (i % 4).toInt.toNat = n % 4 := by
  rw [Int32.toInt_mod, h, show (4 : Int32).toInt = 4 from rfl]
  rw [Int.tmod_eq_emod_of_nonneg (Int.natCast_nonneg n)]
  omega

/-- A store behind the bytes that are there. -/
theorem poke_append {done rest : List UInt8} {i : Int32} (h : i.toInt = done.length) (c b : UInt8) :
    poke (done ++ c :: rest) i b = done ++ b :: rest := by
  rw [poke, if_pos (by omega), h, Int.toNat_natCast, List.set_append_right _ _ (Nat.le_refl _),
    Nat.sub_self, List.set_cons_zero]

/-- **One payload byte** is unmasked behind the others. -/
theorem decoding_unmask {ws : WebsocketState} {start : UInt8} {key done : List UInt8} {todo : Nat}
    (h : Decoding ws start key done (todo + 1)) (hlen : done.length + (todo + 1) < 2 ^ 31)
    (hoffset : ws.offset ≠ 0) (c : UInt8) :
    Decoding (unmask (allocate ws).1 c) start key (done ++ [c ^^^ key.getD (done.length % 4) 0])
      todo := by
  obtain ⟨hstep, -, hmarked⟩ := allocate_fst ws
  obtain ⟨hstart, hleft, hkey, hinkey⟩ := allocate_rest ws
  have hindex : (allocate ws).1.dataInkey.toInt = done.length := by rw [hinkey, h.index]
  have hnext : ((allocate ws).1.dataInkey + 1).toInt = done.length + 1 := by
    rw [CInt.toInt_add (by rw [hindex, CInt.toInt_one]; omega)
      (by rw [hindex, CInt.toInt_one]; omega), hindex, CInt.toInt_one]
  refine ⟨hstep.trans h.step, hstart.trans h.start, ?_, hkey.trans h.keyVal, ?_, ?_⟩
  · show ((allocate ws).1.extendedLength + 2 ^ 64 - 1) % 2 ^ 64 = todo
    rw [hleft, h.left]
    omega
  · show ((allocate ws).1.dataInkey + 1).toInt = _
    rw [hnext, List.length_append, List.length_singleton]
    rfl
  · have hallocated : (unmask (allocate ws).1 c).dataPos ≠ 0 := hmarked hoffset
    rw [allocate, if_neg hallocated]
    show poke (allocate ws).1.data (allocate ws).1.dataInkey
      (c ^^^ (allocate ws).1.keyVal.getD ((allocate ws).1.dataInkey % 4).toInt.toNat 0) = _
    rw [h.data, index_mod hindex, hkey, h.keyVal, List.replicate_succ, poke_append hindex,
      List.append_assoc, List.singleton_append]

/-- An access inside of the block, and of the buffer. -/
def WsEvent.Inside : WsEvent → Prop
  | .overread => False
  | e => e.Safe

theorem frameEvents_inside (ws : WebsocketState) : ∀ e ∈ frameEvents ws, e.Inside := by
  intro e he
  have hsafe := frameEvents_safe ws e he
  cases e with
  | overread =>
    unfold frameEvents at he
    split_ifs at he <;> simp at he
  | _ => exact hsafe

/-- **The byte is stored in the block**, in front of the terminator. -/
theorem Decoding.inside {ws : WebsocketState} {start : UInt8} {key done : List UInt8} {todo : Nat}
    (h : Decoding ws start key done (todo + 1)) : ∀ e ∈ dataEvents ws, e.Inside := by
  obtain ⟨-, hleft, -, hinkey⟩ := allocate_rest ws
  intro e he
  rcases List.mem_append.1 he with he | he
  · unfold allocate at he
    split at he
    · rw [List.mem_singleton.1 he]
      trivial
    · exact absurd he List.not_mem_nil
  · rcases List.mem_pair.1 he with rfl | rfl
    · show (allocate ws).1.extendedLength ≠ 0
      rw [hleft, h.left]
      exact Nat.succ_ne_zero todo
    · rw [hinkey, h.index, h.data]
      refine ⟨Int.natCast_nonneg _, ?_⟩
      simp only [List.length_append, List.length_replicate]
      omega

/-- The zero behind the payload is stored inside of the block. -/
theorem Decoding.terminated {ws : WebsocketState} {start : UInt8} {key done : List UInt8}
    (h : Decoding ws start key done 0) (hpos : ws.dataPos ≠ 0) :
    (WsEvent.store ws.dataInkey.toInt ws.data.length).Inside := by
  have hdata := h.data
  rw [allocate, if_neg hpos] at hdata
  rw [h.index, hdata]
  refine ⟨Int.natCast_nonneg _, ?_⟩
  simp only [List.length_append, List.length_replicate]
  omega

/-- The position does not matter to the block. -/
theorem Decoding.advance {ws : WebsocketState} {start : UInt8} {key done : List UInt8} {todo : Nat}
    (h : Decoding ws start key done todo) (hpos : ws.dataPos ≠ 0) :
    Decoding (advance ws) start key done todo := by
  have hdata := h.data
  rw [allocate, if_neg hpos] at hdata
  refine ⟨h.step, h.start, h.left, h.keyVal, h.index, ?_⟩
  rw [allocate, if_neg (show (WebSocket.advance ws).dataPos ≠ 0 from hpos)]
  exact hdata

/-! ## One frame -/

/-- The accesses are not reported. -/
theorem dataEvents_replies (ws : WebsocketState) :
    (dataEvents ws).filter WsEvent.isReply = [] := by
  unfold dataEvents allocate
  split <;> rfl

/-- A complete frame is reported with the bytes unmasked so far. -/
theorem Decoding.frameEvents {ws : WebsocketState} {start : UInt8} {key done : List UInt8}
    (h : Decoding ws start key done 0) (hpos : ws.dataPos ≠ 0) (hopen : start &&& 0x0F ≠ 0x8) :
    (frameEvents { ws with data := poke ws.data ws.dataInkey 0 }).filter WsEvent.isReply =
      replyTo start done := by
  have hdata := h.data
  rw [allocate, if_neg hpos] at hdata
  have hblock : poke ws.data ws.dataInkey 0 = done ++ [0] := by
    rw [hdata, List.replicate_succ, List.replicate_zero, poke_append h.index]
  have htake : (poke ws.data ws.dataInkey 0).take (done.length : Int).toNat = done := by
    rw [hblock, Int.toNat_natCast, List.take_left]
  simp only [WebSocket.frameEvents, h.start, replyTo, h.index, htake]
  rw [if_neg hopen]
  by_cases hping : start &&& 0x0F = 0x9
  · rw [if_pos hping, if_pos (Or.inl hping)]
    rfl
  · by_cases hpong : start &&& 0x0F = 0xA
    · rw [if_neg hping, if_pos hpong, if_pos (Or.inr hpong)]
      rfl
    · rw [if_neg hping, if_neg hpong, if_neg (not_or.2 ⟨hping, hpong⟩)]
      rfl

/-- **The payload**, from any point of it on, is reported once, at its last byte, and stored in the
block. -/
theorem skim_decode {start : UInt8} (hopen : start &&& 0x0F ≠ 0x8) {key masked : List UInt8}
    {done : List UInt8} {ws : WebsocketState} (h : Decoding ws start key done masked.length)
    (hne : masked ≠ []) (hlen : done.length + masked.length < 2 ^ 31) (hpos : ws.offset ≠ 0)
    (hoffset : ws.offset + masked.length < 2 ^ 31) :
    ∃ ws' evs, skim masked ws = some (ws', evs) ∧ Fresh ws' ∧ ws'.keyVal = key ∧
      evs.filter WsEvent.isReply = replyTo start (done ++ unmaskFrom key done.length masked) ∧
      ∀ e ∈ evs, e.Inside := by
  induction masked generalizing ws done with
  | nil => exact absurd rfl hne
  | cons c cs ih =>
    rw [List.length_cons] at h hlen hoffset
    set done' := done ++ [c ^^^ key.getD (done.length % 4) 0] with hdone'
    have hnext := decoding_unmask h hlen hpos c
    have hmarked : (unmask (allocate ws).1 c).dataPos ≠ 0 := (allocate_fst ws).2.2 hpos
    have hwoffset : (unmask (allocate ws).1 c).offset = ws.offset := (allocate_fst ws).2.1
    have hdoneAll : done ++ unmaskFrom key done.length (c :: cs) =
        done' ++ unmaskFrom key done'.length cs := by
      rw [unmaskFrom_cons, hdone', List.length_append, List.length_singleton, List.append_assoc,
        List.singleton_append]
    rw [hdoneAll]
    by_cases hcs : cs = []
    · subst hcs
      have hswitch := wsSwitch_data_last (c := c) h.step hnext.left (by rwa [h.start]) (by omega)
      have hfresh : Fresh (advance (frameDone (unmask (allocate ws).1 c))) :=
        ⟨rfl, rfl, rfl, rfl⟩
      refine ⟨advance (frameDone (unmask (allocate ws).1 c)), _,
        by rw [skim_cons_break hswitch]; rfl, hfresh, hnext.keyVal, ?_, ?_⟩
      · rw [List.append_nil, List.filter_append, List.filter_append, dataEvents_replies,
          hnext.frameEvents hmarked hopen]
        rw [unmaskFrom, List.zipIdx_nil, List.map_nil, List.append_nil]
        rfl
      · rw [List.append_nil]
        intro e he
        rcases List.mem_append.1 he with he | he
        · rcases List.mem_append.1 he with he | he
          · exact h.inside e he
          · rw [List.mem_singleton.1 he]
            exact hnext.terminated hmarked
        · exact frameEvents_inside _ e he
    · have hmore : (unmask (allocate ws).1 c).extendedLength ≠ 0 := by
        rw [hnext.left]
        simpa using hcs
      have hmoved : (advance (unmask (allocate ws).1 c)).offset = ws.offset + 1 := by
        rw [advance_offset _ (by rw [hwoffset]; omega), hwoffset]
      have hlen' : done'.length = done.length + 1 := by
        rw [hdone', List.length_append, List.length_singleton]
      obtain ⟨ws', evs, hrest, hfresh, hkey, hreplies, hinside⟩ := ih (hnext.advance hmarked) hcs
        (by rw [hlen']; omega) (by rw [hmoved]; omega) (by rw [hmoved]; omega)
      refine ⟨ws', dataEvents ws ++ evs, ?_, hfresh, hkey, ?_, ?_⟩
      · rw [skim_cons_break (wsSwitch_data_more h.step hmore), hrest]
        rfl
      · rw [List.filter_append, dataEvents_replies, List.nil_append, hreplies]
      · exact fun e he => (List.mem_append.1 he).elim (h.inside e) (hinside e)

/-- The four bytes of the key replace the four that were there. -/
theorem keyVal_set {val : List UInt8} (h : val.length = 4) (a b c d : UInt8) :
    (((val.set 0 a).set 1 b).set 2 c).set 3 d = [a, b, c, d] := by
  obtain ⟨x₀, x₁, x₂, x₃, rfl⟩ := List.length_eq_four.1 h
  rfl

/-- **One frame** is reported once, unmasked; its block is not left. -/
theorem skim_decode_frame {ws : WebsocketState} (h : Fresh ws) (hkey : ws.keyVal.length = 4)
    {f : ClientFrame} (hf : f.Carries) (hoffset : ws.offset + f.encode.length < 2 ^ 31) :
    ∃ ws' evs, skim f.encode ws = some (ws', evs) ∧ Fresh ws' ∧ ws'.keyVal.length = 4 ∧
      evs.filter WsEvent.isReply = f.reply ∧ ∀ e ∈ evs, e.Inside := by
  rw [length_encode] at hoffset
  obtain ⟨w, hhead, hpay, hkeyVal, hpos, hinkey⟩ := skim_header h f (by omega)
  rw [keyVal_set hkey] at hkeyVal
  have hstart := skim_offset hhead (by omega)
  have hdecoding := hpay.decoding (by omega) hpos hinkey
  rw [hkeyVal] at hdecoding
  obtain ⟨ws', evs, hrest, hfresh, hkey', hreplies, hinside⟩ := skim_decode hf.open' hdecoding hf.payload
    (by simp only [List.length_nil]; omega)
    (by rw [hstart, List.cons_append, List.length_cons]; omega) (by rw [hstart]; omega)
  refine ⟨ws', evs, ?_, hfresh, by rw [hkey']; rfl, hreplies, hinside⟩
  rw [ClientFrame.encode, skim_append, hhead, Option.bind_some, hrest]
  rfl

/-! ## A read of whole frames -/

/-- **Consecutive frames** are reported in order. -/
theorem skim_decodeAll {fs : List ClientFrame} (hfs : ∀ f ∈ fs, f.Carries) {ws : WebsocketState}
    (h : Fresh ws) (hkey : ws.keyVal.length = 4)
    (hoffset : ws.offset + (encodeAll fs).length < 2 ^ 31) :
    ∃ ws' evs, skim (encodeAll fs) ws = some (ws', evs) ∧ Fresh ws' ∧ ws'.keyVal.length = 4 ∧
      evs.filter WsEvent.isReply = fs.flatMap ClientFrame.reply ∧ ∀ e ∈ evs, e.Inside := by
  induction fs generalizing ws with
  | nil => exact ⟨ws, [], rfl, h, hkey, rfl, fun e he => absurd he List.not_mem_nil⟩
  | cons f fs ih =>
    obtain ⟨hf, hfs⟩ := List.forall_mem_cons.1 hfs
    rw [encodeAll, List.flatMap_cons, List.length_append] at hoffset
    obtain ⟨w, evs, hfirst, hfresh, hkey', hreply, hinside⟩ := skim_decode_frame h hkey hf (by omega)
    have hw := skim_offset hfirst (by omega)
    obtain ⟨ws', evs', hrest, hfresh', hkey'', hreplies, hinside'⟩ :=
      ih hfs hfresh hkey' (by rw [hw, encodeAll]; omega)
    refine ⟨ws', evs ++ evs', ?_, hfresh', hkey'', ?_,
      fun e he => (List.mem_append.1 he).elim (hinside e) (hinside' e)⟩
    · rw [encodeAll, List.flatMap_cons, skim_append, hfirst, ← encodeAll, Option.bind_some, hrest]
      rfl
    · rw [List.filter_append, hreply, hreplies, List.flatMap_cons]

/-- The initial state of a connection's reader, with its four bytes of key. -/
structure Initial (ws : WebsocketState) : Prop where
  fresh : Fresh ws
  offset : ws.offset = 0
  keyVal : ws.keyVal.length = 4

/-- **A read of whole frames.**  A read of masked frames with payload, none of which closes the
connection, in any form of the length and less than `2 ^ 31` bytes in all, reports each frame that
is no ping and no pong once, in order, with its payload unmasked and counted, does nothing else to
the outside, and leaves the reader in the initial state. -/
theorem processFrame_decodes (fs : List ClientFrame) (hfs : ∀ f ∈ fs, f.Carries)
    (hlen : (encodeAll fs).length < 2 ^ 31) (ws : WebsocketState) (h : Initial ws) :
    (processFrame (encodeAll fs) ws).2.filter WsEvent.isReply = fs.flatMap ClientFrame.reply ∧
      Initial (processFrame (encodeAll fs) ws).1 := by
  obtain ⟨ws', evs, hskim, hfresh, hkey, hreplies, -⟩ :=
    skim_decodeAll hfs h.fresh h.keyVal (by rw [h.offset]; omega)
  rw [processFrame, h.offset, List.drop_zero]
  by_cases hne : encodeAll fs = []
  · -- no byte at all
    rw [hne] at hskim ⊢
    obtain ⟨rfl, rfl⟩ : ws = ws' ∧ [] = evs := by simpa [skim] using hskim
    have hnot : ¬ ws.offset < ([] : List UInt8).length := Nat.not_lt_zero _
    rw [frameLoop, if_neg hnot]
    exact ⟨hreplies, h⟩
  · rw [frameLoop_last _ hskim hne hfresh.step (by rw [h.offset]; omega) (by omega)]
    exact ⟨hreplies, ⟨hfresh.step, hfresh.framePos, hfresh.keyPos, hfresh.dataPos⟩, rfl, hkey⟩

/-- A text frame, a ping and a binary frame in the short form, in one read. -/
theorem processFrame_decodes_three :
    (processFrame (encodeAll [⟨0x81, .tiny, (1, 2, 3, 4), [0x40, 0x42], by decide⟩,
        ⟨0x89, .tiny, (1, 2, 3, 4), [0x40], by decide⟩,
        ⟨0x82, .short, (0, 0, 0, 0), [7, 8, 9], by decide⟩])
      (httpReadyState ⟨[], 0, [0, 0, 0, 0], 0, 0, 0, 0, .start, 0, 0, 0, false⟩)).2.filter
        WsEvent.isReply = [.onFrame [0x41, 0x40] 2, .onFrame [7, 8, 9] 3] := by
  refine (processFrame_decodes _ ?_ (by decide) _ ⟨⟨rfl, rfl, rfl, rfl⟩, rfl, rfl⟩).1.trans
    (by decide)
  intro f hf
  simp only [List.mem_cons, List.not_mem_nil, or_false] at hf
  rcases hf with rfl | rfl | rfl <;> exact ⟨by decide, by decide⟩

end Ape.WebSocket
