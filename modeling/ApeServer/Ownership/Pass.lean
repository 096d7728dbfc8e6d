import ApeServer.Ownership.Calls
import ApeServer.Socket.Jobs

/-!
# One pass over a packet queue

`writev` takes some of the bytes it is offered, and the loop behind it finds the packet where they end
by subtracting the lengths from the count, in a signed variable.

* `Packet.Pending`, `Backlog` — packets with bytes left, at the head of a queue with free packets;
* `ssize_sub`, `usize_add` — the differences and sums of the loop do not wrap;
* `drain` — the same on lists, without machine words;
* `packetLoop_drain` — the loop on a queue is `drain` on its packets, wherever `current` stands;
* `doJob_accounts` — **the bytes accepted come off the front, and exactly the packets sent in full are
  released**;
* `packetLoop_erase` — the loop does to the bytes what the model without names says.
-/

namespace Ape.Ownership

open Socket (PoolList)

/-! ## What is promised -/

/-- A packet with bytes left. -/
def Packet.Pending (p : Packet) : Prop :=
  ∃ b, p.data = some b ∧ p.len = b.bytes.length ∧ p.offset < p.len

/-- How many bytes are left. -/
def Packet.left (p : Packet) : Nat := p.len - p.offset

/-- The bytes that are left. -/
def Packet.rest (p : Packet) : List UInt8 :=
  match p.data with
  | none => []
  | some b => b.bytes.drop p.offset

/-- From the head of the queue on stand the packets `ps` with bytes left, behind them the packets
`fs`, at least one, all free. -/
structure Backlog (q : PoolList Packet) (ps fs : List Packet) : Prop where
  nodes : q.nodes = ps ++ fs
  pending : ∀ p ∈ ps, p.Pending
  free : ∀ p ∈ fs, p.data = none
  spare : fs ≠ []

/-- The bytes that are left in some packets. -/
def pendingBytes (ps : List Packet) : List UInt8 := ps.flatMap Packet.rest

/-- How many these are. -/
def total (ps : List Packet) : Nat := (ps.map Packet.left).sum

/-- The releases among some events. -/
def releases (ev : List Event) : List (Block × DataType) :=
  ev.filterMap fun
    | .released b type => some (b, type)
    | _ => none

/-- The first packets, `sent`, are those with all their bytes among the first `n`. -/
structure SentIn (n : Nat) (ps sent : List Packet) : Prop where
  enough : total sent ≤ n
  first : ∃ kept, ps = sent ++ kept ∧ ∀ p ∈ kept.head?, n < total sent + p.left

/-! ## Machine words -/

/-- The count stays a `ssize_t`. -/
theorem ssize_sub {n left : Nat} (hn : n < 2 ^ 63) (hleft : left < 2 ^ 63) :
    ssize (n - left) = (n : Int) - left := by
  apply Int.bmod_eq_of_le_mul_two <;> omega

/-- What is left of a length is the same as a `size_t`. -/
theorem usize_sub {len offset : Nat} (hlen : len < 2 ^ 64) (h : offset ≤ len) :
    usize ((len : Int) - offset) = len - offset := by
  rw [usize, Int.emod_eq_of_lt (by omega) (by omega)]
  omega

/-- The new offset of the packet where the bytes end. -/
theorem usize_add {len offset n : Nat} (hlen : len < 2 ^ 64) (hoffset : offset ≤ len)
    (hn : n < len - offset) :
    usize ((len : Int) + ((n : Int) - (len - offset : Nat))) = offset + n := by
  rw [usize, Int.emod_eq_of_lt (by omega) (by omega)]
  omega

theorem Packet.Pending.len_lt {p : Packet} (h : p.Pending) : p.len < 2 ^ 63 := by
  obtain ⟨b, -, hlen, -⟩ := h
  rw [hlen]
  exact b.payload.fits

theorem Packet.Pending.length_rest {p : Packet} (h : p.Pending) : p.rest.length = p.left := by
  obtain ⟨b, hdata, hlen, -⟩ := h
  simp only [Packet.rest, hdata, List.length_drop, Packet.left, hlen]

theorem Packet.Pending.left_pos {p : Packet} (h : p.Pending) : 0 < p.left := by
  obtain ⟨b, -, -, hoffset⟩ := h
  exact Nat.sub_pos_of_lt hoffset

/-! ## The pass on lists -/

/-- Take `n` bytes off the packets. -/
def drain : Nat → List Packet → List Packet × List Event
  | _, [] => ([], [])
  | n, p :: ps =>
    match p.data with
    | none => (p :: ps, [])
    | some b =>
      if n < p.left then ({ p with offset := p.offset + n } :: ps, [.took b n])
      else if n = p.left then (ps, [.took b p.left, .released b p.type])
      else
        let rest := drain (n - p.left) ps
        (rest.1, [.took b p.left, .released b p.type] ++ rest.2)

section Drain

variable {p : Packet} {ps : List Packet} {b : Block} {n : Nat}

theorem drain_short (hdata : p.data = some b) (h : n < p.left) :
    drain n (p :: ps) = ({ p with offset := p.offset + n } :: ps, [.took b n]) := by
  simp only [drain, hdata, if_pos h]

theorem drain_exact (hdata : p.data = some b) (h : n = p.left) :
    drain n (p :: ps) = (ps, [.took b p.left, .released b p.type]) := by
  simp only [drain, hdata, h, lt_self_iff_false, if_false, if_true]

theorem drain_more (hdata : p.data = some b) (h : p.left < n) :
    drain n (p :: ps) = ((drain (n - p.left) ps).1,
      [.took b p.left, .released b p.type] ++ (drain (n - p.left) ps).2) := by
  simp only [drain, hdata, if_neg (Nat.lt_asymm h), if_neg (Nat.ne_of_gt h)]

/-- What a packet becomes that is not finished. -/
theorem Packet.Pending.advance (h : p.Pending) (hn : n < p.left) :
    ({ p with offset := p.offset + n } : Packet).Pending ∧
      ({ p with offset := p.offset + n } : Packet).rest = p.rest.drop n := by
  obtain ⟨b, hdata, hlen, hoffset⟩ := h
  refine ⟨⟨b, hdata, hlen, ?_⟩, ?_⟩
  · show p.offset + n < p.len
    simp only [Packet.left] at hn
    omega
  · simp only [Packet.rest, hdata, List.drop_drop]

/-- **The pass leaves packets with bytes, the old ones but for the first `n`.** -/
theorem drain_pending (h : ∀ p ∈ ps, p.Pending) :
    (∀ p ∈ (drain n ps).1, p.Pending) ∧
      pendingBytes (drain n ps).1 = (pendingBytes ps).drop n := by
  induction ps generalizing n with
  | nil => exact ⟨h, List.drop_nil.symm⟩
  | cons p ps ih =>
    obtain ⟨hp, hps⟩ := List.forall_mem_cons.1 h
    obtain ⟨b, hdata, -⟩ := id hp
    have hlength := hp.length_rest
    rw [show pendingBytes (p :: ps) = p.rest ++ pendingBytes ps from rfl]
    rcases Nat.lt_trichotomy n p.left with hlt | heq | hgt
    · obtain ⟨hpending, hrest⟩ := hp.advance hlt
      rw [drain_short hdata hlt]
      refine ⟨List.forall_mem_cons.2 ⟨hpending, hps⟩, ?_⟩
      rw [List.drop_append_of_le_length (by omega), ← hrest]
      rfl
    · rw [drain_exact hdata heq]
      refine ⟨hps, ?_⟩
      rw [heq, ← hlength, List.drop_left]
    · rw [drain_more hdata hgt]
      refine ⟨(ih hps).1, ?_⟩
      have hnil : p.rest.drop n = [] := List.drop_of_length_le (by omega)
      rw [(ih hps).2, List.drop_append, hnil, hlength, List.nil_append]

/-- **The pass releases the packets that are sent in full**, each once. -/
theorem drain_sent (h : ∀ p ∈ ps, p.Pending) :
    ∃ sent, SentIn n ps sent ∧
      sent.filterMap (fun p => p.data.map fun b => (b, p.type)) = releases (drain n ps).2 := by
  induction ps generalizing n with
  | nil => exact ⟨[], ⟨Nat.zero_le n, [], rfl, by simp⟩, rfl⟩
  | cons p ps ih =>
    obtain ⟨hp, hps⟩ := List.forall_mem_cons.1 h
    obtain ⟨b, hdata, -⟩ := id hp
    rcases Nat.lt_trichotomy n p.left with hlt | heq | hgt
    · rw [drain_short hdata hlt]
      refine ⟨[], ⟨Nat.zero_le n, p :: ps, rfl, fun p' hp' => ?_⟩, rfl⟩
      obtain rfl : p = p' := Option.some.inj hp'
      simpa [total] using hlt
    · rw [drain_exact hdata heq]
      refine ⟨[p], ⟨by simp [total, heq], ps, rfl, fun p' hp' => ?_⟩, by simp [hdata, releases]⟩
      have hpos := (hps p' (List.mem_of_mem_head? hp')).left_pos
      simp only [total, List.map_cons, List.map_nil, List.sum_cons, List.sum_nil]
      omega
    · rw [drain_more hdata hgt]
      obtain ⟨sent, ⟨henough, kept, hkept, hfirst⟩, hreleases⟩ := ih (n := n - p.left) hps
      have htotal : total (p :: sent) = p.left + total sent := rfl
      refine ⟨p :: sent, ⟨by omega, kept, by rw [hkept, List.cons_append], fun p' hp' => ?_⟩, ?_⟩
      · have := hfirst p' hp'
        omega
      · simp only [List.filterMap_cons, hdata, Option.map_some, hreleases]
        rfl

end Drain

/-! ## The pass on a queue -/

theorem Backlog.head_cons {q : PoolList Packet} {p : Packet} {ps fs : List Packet}
    (h : Backlog q (p :: ps) fs) : q.head = p := by
  obtain ⟨rest, hnodes, -⟩ := q.nodes_eq_head_cons
  exact (List.cons.inj (hnodes.symm.trans h.nodes)).1

theorem Backlog.head_nil {q : PoolList Packet} {fs : List Packet} (h : Backlog q [] fs) :
    q.head.data = none := by
  apply h.free
  have hmem := q.head_mem
  rwa [h.nodes, List.nil_append] at hmem

/-- The queue is worked off when the packet at its head is free. -/
theorem Backlog.head_isSome {q : PoolList Packet} {ps fs : List Packet}
    (h : Backlog q ps fs) : q.head.data.isSome = true ↔ ps ≠ [] := by
  cases ps with
  | nil => simp [h.head_nil]
  | cons p ps =>
    obtain ⟨b, hdata, -⟩ := h.pending p (List.mem_cons_self ..)
    simp [h.head_cons, hdata]

/-- A store to the first packet of a backlog leaves the others in their order. -/
theorem Backlog.modifyHead {q : PoolList Packet} {p : Packet} {ps fs : List Packet}
    (h : Backlog q (p :: ps) fs) {f : Packet → Packet} (hf : (f p).Pending) :
    Backlog (q.modifyHead f) (f p :: ps) fs := by
  obtain ⟨rest, hnodes, hmodify⟩ := q.nodes_eq_head_cons
  obtain ⟨-, hrest⟩ := List.cons.inj (hnodes.symm.trans h.nodes)
  refine ⟨?_, ?_, h.free, h.spare⟩
  · rw [hmodify f, h.head_cons, hrest]
    rfl
  · exact List.forall_mem_cons.2 ⟨hf, (List.forall_mem_cons.1 h.pending).2⟩

/-- The packet that is sent goes to the end of the queue. -/
theorem Backlog.pop {q : PoolList Packet} {p : Packet} {ps fs : List Packet}
    (h : Backlog q (p :: ps) fs) : Backlog (pop q) ps (fs ++ [{ p with data := none }]) := by
  obtain ⟨rest, hnodes, hmodify⟩ := q.nodes_eq_head_cons
  obtain ⟨-, hrest⟩ := List.cons.inj (hnodes.symm.trans h.nodes)
  refine ⟨?_, (List.forall_mem_cons.1 h.pending).2, fun x hx => ?_, by simp⟩
  · rw [Ownership.pop, PoolList.nodes_headToQueue_cons (hmodify _), hrest, h.head_cons]
    exact List.append_assoc ..
  · rcases List.mem_append.1 hx with hx | hx
    · exact h.free x hx
    · rw [List.mem_singleton.1 hx]

/-- **The loop is `drain` on the packets of the queue.** -/
theorem packetLoop_drain {q : PoolList Packet} {ps fs : List Packet} (h : Backlog q ps fs)
    {fuel : Nat} (hfuel : ps.length ≤ fuel) {n : Nat} (hn : n < 2 ^ 63) (htotal : n ≤ total ps) :
    (packetLoop fuel n q).2 = (drain n ps).2 ∧
      ∃ fs', Backlog (packetLoop fuel n q).1 (drain n ps).1 fs' := by
  induction fuel generalizing q ps fs n with
  | zero =>
    obtain rfl : ps = [] := List.length_eq_zero_iff.1 (Nat.le_zero.1 hfuel)
    exact ⟨rfl, fs, h⟩
  | succ fuel ih =>
    cases ps with
    | nil =>
      rw [packetLoop, h.head_nil]
      exact ⟨rfl, fs, h⟩
    | cons p ps =>
      obtain ⟨hp, hps⟩ := List.forall_mem_cons.1 h.pending
      obtain ⟨b, hdata, hlen, hoffset⟩ := id hp
      have hbound := hp.len_lt
      have hleft : usize ((p.len : Int) - p.offset) = p.left :=
        usize_sub (by omega) (Nat.le_of_lt hoffset)
      have hle : p.left ≤ p.len := Nat.sub_le ..
      have hcount : ssize ((n : Int) - p.left) = (n : Int) - p.left := ssize_sub hn (by omega)
      have hsum : total (p :: ps) = p.left + total ps := rfl
      have hpop := h.pop
      rw [packetLoop, h.head_cons]
      simp only [hdata, hleft, hcount]
      rcases Nat.lt_trichotomy n p.left with hlt | heq | hgt
      · -- the bytes end in this packet
        rw [if_pos (by omega), drain_short hdata hlt]
        have hnew : usize ((p.len : Int) + ((n : Int) - p.left)) = p.offset + n :=
          usize_add (by omega) (Nat.le_of_lt hoffset) hlt
        have hsame : (q.modifyHead fun p' => { p' with offset := usize (p'.len + ((n : Int) - p.left)) }) =
            q.modifyHead fun p' => { p' with offset := p'.offset + n } := by
          apply PoolList.modifyHead_congr
          rw [h.head_cons, hnew]
        rw [hsame]
        exact ⟨rfl, fs, h.modifyHead (f := fun p' => { p' with offset := p'.offset + n })
          (hp.advance hlt).1⟩
      · rw [if_neg (by omega), if_pos (by omega), drain_exact hdata heq]
        exact ⟨rfl, _, hpop⟩
      · rw [if_neg (by omega), if_neg (by omega), drain_more hdata hgt]
        have hrest : (n : Int) - p.left = (n - p.left : Nat) := by omega
        have hnext := ih hpop (by simpa using hfuel) (n := n - p.left) (by omega) (by omega)
        rw [hrest]
        exact ⟨by rw [hnext.1], hnext.2⟩

/-- The packets that wait are those with bytes left. -/
theorem Backlog.waiting {q : PoolList Packet} {ps fs : List Packet} (h : Backlog q ps fs) :
    waiting q = ps := by
  have hsome : ∀ p ∈ ps, p.data.isSome = true := by
    intro p hp
    obtain ⟨b, hdata, -⟩ := h.pending p hp
    rw [hdata]
    rfl
  obtain ⟨f, fs', rfl⟩ := List.exists_cons_of_ne_nil h.spare
  have hfree := h.free f (List.mem_cons_self ..)
  rw [Ownership.waiting, h.nodes, List.takeWhile_append_of_pos hsome]
  simp [hfree]

/-- No more is offered than there is. -/
theorem Backlog.chunks_le {q : PoolList Packet} {ps fs : List Packet} (h : Backlog q ps fs)
    (sys : System) : chunks sys q ≤ total ps := by
  have hsplit : total (ps.take sys.maxChunks ++ ps.drop sys.maxChunks) =
      chunks sys q + total (ps.drop sys.maxChunks) := by
    rw [chunks, h.waiting, total, List.map_append, List.sum_append]
    rfl
  rw [List.take_append_drop] at hsplit
  omega

/-- The nodes of the queue bound its packets. -/
theorem Backlog.length_le {q : PoolList Packet} {ps fs : List Packet} (h : Backlog q ps fs) :
    ps.length ≤ q.nodes.length := by
  rw [h.nodes, List.length_append]
  exact Nat.le_add_right ..

/-- **Partial `writev`.**  However many bytes are accepted of those offered, the bytes that are left
are the old ones without the first `n`, exactly the packets sent in full are released, each once, the
others stand at the head of the queue, and the job is finished exactly when none is left. -/
theorem doJob_accounts {sys : System} {s : Sock} {q : PoolList Packet} {ps fs : List Packet} {n : Nat}
    (hplain : s.secure = false) (hwritev : s.jobs.head.writev = true)
    (hqueue : s.jobs.head.queue = some q) (h : Backlog q ps fs)
    (hanswer : sys.write s.calls = .took n) (hn : n ≤ chunks sys q) (hmax : chunks sys q < 2 ^ 63) :
    ∃ q' ps' fs' ev sent,
      (doJob sys s).2.jobs = s.jobs.modifyHead (fun j => { j with queue := some q' }) ∧
      (doJob sys s).2.log = s.log ++ ev ∧ Backlog q' ps' fs' ∧
      pendingBytes ps' = (pendingBytes ps).drop n ∧ SentIn n ps sent ∧
      sent.filterMap (fun p => p.data.map fun b => (b, p.type)) = releases ev ∧
      ((doJob sys s).1 = true ↔ ps' = []) := by
  have hclip : (sys.write s.calls).clipv (chunks sys q) = .took n := by
    rw [hanswer, Answer.clipv, if_pos hmax, Nat.min_eq_left hn]
  obtain ⟨hev, fs', hq⟩ :=
    packetLoop_drain h h.length_le (n := n) (by omega) (hn.trans (h.chunks_le sys))
  obtain ⟨sent, hsent, hreleases⟩ := drain_sent (n := n) h.pending
  have hbytes := (drain_pending (n := n) h.pending).2
  set q' := (packetLoop q.nodes.length n q).1 with hq'
  have hround : doJob sys s =
      if q'.head.data.isSome then
        (false, (setQueue q' { s.note (drain n ps).2 with calls := s.calls + 1 }).block)
      else (true, setQueue q' { s.note (drain n ps).2 with calls := s.calls + 1 }) := by
    simp only [doJob, hwritev, hqueue, doWritev, hplain, Bool.false_eq_true, if_false, hclip, ← hev]
    rfl
  refine ⟨q', (drain n ps).1, fs', (drain n ps).2, sent, ?_, ?_, hq, hbytes, hsent, hreleases, ?_⟩
  · rw [hround]
    split_ifs <;> rfl
  · rw [hround]
    split_ifs <;> rfl
  · rw [hround]
    by_cases hleft : q'.head.data.isSome = true
    · rw [if_pos hleft]
      exact iff_of_false Bool.false_ne_true (hq.head_isSome.1 hleft)
    · rw [if_neg hleft]
      exact iff_of_true rfl (not_not.1 fun hne => hleft (hq.head_isSome.2 hne))

/-- A queue with a packet that is partly sent, a full one and a free one. -/
def twoPackets : PoolList Packet :=
  ⟨[⟨some ⟨0, false, ⟨[1, 2, 3], by decide⟩⟩, 3, 1, .autorelease⟩,
    ⟨some ⟨1, true, ⟨[4, 5], by decide⟩⟩, 2, 0, .copy⟩], .fresh, []⟩

/-- A socket with this queue. -/
def backlogged : Sock := { Sock.new false with jobs := .init ⟨true, true, some twoPackets⟩ 1 }

/-- A system that takes three bytes at a time. -/
def takesThree : System := ⟨fun _ => .took 3, fun _ => .full, fun _ => false, 16⟩

theorem backlog_twoPackets : Backlog twoPackets twoPackets.before [.fresh] := by
  refine ⟨rfl, ?_, by simp [Packet.fresh], by simp⟩
  intro p hp
  simp only [twoPackets, List.mem_cons, List.not_mem_nil, or_false] at hp
  rcases hp with rfl | rfl
  · exact ⟨_, rfl, rfl, by decide⟩
  · exact ⟨_, rfl, rfl, by decide⟩

/-- Three bytes of four: the first packet is released, and half of the second is left. -/
theorem doJob_accounts_three :
    ∃ q' ps' fs' ev sent,
      (doJob takesThree backlogged).2.jobs =
        backlogged.jobs.modifyHead (fun j => { j with queue := some q' }) ∧
      (doJob takesThree backlogged).2.log = backlogged.log ++ ev ∧ Backlog q' ps' fs' ∧
      pendingBytes ps' = (pendingBytes twoPackets.before).drop 3 ∧
      SentIn 3 twoPackets.before sent ∧
      sent.filterMap (fun p => p.data.map fun b => (b, p.type)) = releases ev ∧
      ((doJob takesThree backlogged).1 = true ↔ ps' = []) :=
  doJob_accounts rfl rfl rfl backlog_twoPackets rfl (by decide) (by decide)

/-! ## The pass and the model of the bytes -/

/-- A packet without the name of its memory. -/
def Packet.erase (p : Packet) : Socket.Packet := ⟨p.data.map Block.bytes, p.len, p.offset⟩

theorem pop_erase (q : PoolList Packet) :
    (pop q).map Packet.erase = ((q.map Packet.erase).modifyHead fun p =>
      { p with data := none }).headToQueue := by
  rw [pop, PoolList.map_headToQueue]
  exact congrArg PoolList.headToQueue (PoolList.map_modifyHead _ _ rfl)

/-- **The loop in machine words does to the bytes what the loop on numbers does.** -/
theorem packetLoop_erase {q : PoolList Packet} {ps fs : List Packet} (h : Backlog q ps fs) (fuel : Nat)
    {n : Nat} (hn : n < 2 ^ 63) :
    (packetLoop fuel n q).1.map Packet.erase = Socket.packetLoop fuel n (q.map Packet.erase) := by
  induction fuel generalizing q ps fs n with
  | zero => rfl
  | succ fuel ih =>
    rw [packetLoop, Socket.packetLoop, PoolList.head_map]
    cases ps with
    | nil => simp [h.head_nil, Packet.erase]
    | cons p ps =>
      obtain ⟨hp, hps⟩ := List.forall_mem_cons.1 h.pending
      obtain ⟨b, hdata, hlen, hoffset⟩ := id hp
      have hbound := hp.len_lt
      have hleft : usize ((p.len : Int) - p.offset) = p.left :=
        usize_sub (by omega) (Nat.le_of_lt hoffset)
      have hle : p.left ≤ p.len := Nat.sub_le ..
      have hcount : ssize ((n : Int) - p.left) = (n : Int) - p.left := ssize_sub hn (by omega)
      rw [h.head_cons]
      simp only [hdata, hleft, hcount, Packet.erase, Option.map_some, Option.isNone_some,
        Bool.false_eq_true, if_false]
      rw [show p.len - p.offset = p.left from rfl]
      rcases Nat.lt_trichotomy n p.left with hlt | heq | hgt
      · rw [if_pos (by omega), if_pos hlt]
        apply PoolList.map_modifyHead
        rw [h.head_cons]
        have hnew : usize ((p.len : Int) + ((n : Int) - p.left)) = p.offset + n :=
          usize_add (by omega) (Nat.le_of_lt hoffset) hlt
        simp only [Packet.erase, hnew]
      · rw [if_neg (by omega), if_pos (by omega), if_neg (by omega), if_pos heq]
        exact pop_erase q
      · rw [if_neg (by omega), if_neg (by omega), if_neg (by omega), if_neg (by omega)]
        have hrest : (n : Int) - p.left = (n - p.left : Nat) := by omega
        rw [hrest, ih h.pop (by omega)]
        exact congrArg (Socket.packetLoop fuel (n - p.left)) (pop_erase q)

end Ape.Ownership
