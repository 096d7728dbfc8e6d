import ApeServer.Lib.Runs
import ApeServer.Ownership.Queue

/-!
# Every payload of a plain socket is released once, unless it is still queued

A payload that `APE_socket_write` may free, and every copy that is made, is released when its bytes
are sent or the write has failed.  What is queued when the socket is destroyed is released by nobody.

* `brought`, `freed`, `held` — the blocks that are to be freed, those that have been, those queued;
* `Settled` — what is promised when `ape_socket_free` has returned;
* `Ledger` — the invariant: what was brought has been freed or is held; one lemma for each entry;
* `settled_iff` — **every block is freed exactly once exactly when none of them is queued in the end**.
-/

namespace Ape.Ownership

open Socket (PoolList)
open Runs (Along along_nil along_concat)

/-! ## What is promised -/

/-- The call that brought a block, and whether it is a copy. -/
def Block.key (b : Block) : Nat × Bool := (b.call, b.copy)

/-- The entry frees the block `k`. -/
def Event.freesBlock (k : Nat × Bool) : Event → Bool
  | .released b type => b.key = k && type.frees
  | _ => false

/-- How often a block has been freed. -/
def freed (k : Nat × Bool) (log : List Event) : Nat := log.countP (Event.freesBlock k)

/-- How many bytes of a payload the system has taken. -/
def taken (call : Nat) (log : List Event) : Nat :=
  (log.map fun
    | .took b n => if b.call = call then n else 0
    | _ => 0).sum

/-- Behind the entries `pre`, a block is released only if all of its bytes have been taken, a `write`
of it has failed, or the socket has been destroyed. -/
def FreedRight (pre : List Event) : Event → Prop
  | .released b _ => taken b.call pre = b.bytes.length ∨ .failed b ∈ pre ∨ .destroyed ∈ pre
  | _ => True

/-- Every payload to be freed and every copy is freed exactly once, and none while bytes of it wait. -/
structure Settled (s : Sock) : Prop where
  handed : ∀ b, .handed b .autorelease ∈ s.log → freed b.key s.log = 1
  copied : ∀ b, .copied b ∈ s.log → freed b.key s.log = 1
  right : Along FreedRight s.log

/-- The packets that wait in the queues of a socket. -/
def queuedPackets (s : Sock) : List Packet :=
  s.jobs.nodes.flatMap fun j =>
    match j.queue with
    | none => []
    | some q => waiting q

/-! ## Counting blocks -/

/-- The entry brings the block `k`, which is to be freed. -/
def Event.brings (k : Nat × Bool) : Event → Bool
  | .handed b type => b.key = k && type = .autorelease
  | .copied b => b.key = k
  | _ => false

/-- How often a block that is to be freed has been brought. -/
def brought (k : Nat × Bool) (log : List Event) : Nat := log.countP (Event.brings k)

/-- The packet holds the block `k`, which is to be freed. -/
def Packet.holds (k : Nat × Bool) (p : Packet) : Bool :=
  match p.data with
  | some b => b.key = k && p.type.frees
  | none => false

/-- How many packets hold a block that is to be freed. -/
def held (k : Nat × Bool) (ps : List Packet) : Nat := ps.countP (Packet.holds k)

section Counts

variable (k : Nat × Bool) (log : List Event) (e : Event)

theorem freed_concat : freed k (log ++ [e]) = freed k log + if e.freesBlock k then 1 else 0 := by
  rw [freed, List.countP_append, List.countP_singleton]
  rfl

theorem brought_concat : brought k (log ++ [e]) = brought k log + if e.brings k then 1 else 0 := by
  rw [brought, List.countP_append, List.countP_singleton]
  rfl

theorem held_cons (p : Packet) (ps : List Packet) :
    held k (p :: ps) = held k ps + if p.holds k then 1 else 0 := List.countP_cons

theorem taken_concat (call : Nat) : taken call (log ++ [e]) = taken call log + taken call [e] := by
  rw [taken, List.map_append, List.sum_append]
  rfl

theorem taken_took (call : Nat) (b : Block) (n : Nat) :
    taken call [.took b n] = if b.call = call then n else 0 := by
  simp [taken]

end Counts

/-! ## The ledger -/

/-- The calls of the packets. -/
def calls (ps : List Packet) : List Nat := ps.filterMap fun p => p.data.map Block.call

/-- The log against the packets `ps` that wait, with the number of the next call: each block that was
brought has been freed or is held, and the offset of a packet says what has been taken of it. -/
structure Ledger (log : List Event) (ps : List Packet) (next : Nat) : Prop where
  balance : ∀ k, freed k log + held k ps = brought k log
  atMost : ∀ k, brought k log ≤ 1
  fresh : ∀ k : Nat × Bool, next ≤ k.1 → brought k log = 0
  sent : ∀ p ∈ ps, ∀ b, p.data = some b → taken b.call log = p.offset
  unsent : ∀ call, next ≤ call → taken call log = 0
  distinct : (calls ps).Nodup
  below : ∀ call ∈ calls ps, call < next
  right : Along FreedRight log

theorem ledger_new : Ledger [] [] 0 :=
  ⟨fun _ => rfl, fun _ => Nat.zero_le 1, fun _ _ => rfl, by simp, fun _ _ => rfl, List.nodup_nil,
    by simp [calls], along_nil⟩

/-- An entry that neither brings, frees nor takes anything. -/
def Event.idle : Event → Bool
  | .failed _ | .shutdown | .destroyed | .freed => true
  | _ => false

section Ledger

variable {log : List Event} {p : Packet} {ps : List Packet} {next : Nat} {b : Block}

theorem calls_cons (hdata : p.data = some b) (ps : List Packet) :
    calls (p :: ps) = b.call :: calls ps := by
  simp [calls, hdata]

theorem mem_calls (hp : p ∈ ps) (hdata : p.data = some b) : b.call ∈ calls ps :=
  List.mem_filterMap.2 ⟨p, hp, by rw [hdata]; rfl⟩

/-- An entry that does not matter. -/
theorem Ledger.idle (h : Ledger log ps next) {e : Event} (he : e.idle = true) :
    Ledger (log ++ [e]) ps next := by
  have hfrees : ∀ k, e.freesBlock k = false := by cases e <;> simp_all [Event.idle, Event.freesBlock]
  have hbrings : ∀ k, e.brings k = false := by cases e <;> simp_all [Event.idle, Event.brings]
  have htaken : ∀ call, taken call (log ++ [e]) = taken call log := by
    intro call
    rw [taken_concat]
    cases e <;> simp_all [Event.idle, taken]
  refine ⟨fun k => ?_, fun k => ?_, fun k hk => ?_, fun p hp b hdata => ?_, fun call hcall => ?_,
    h.distinct, h.below, ?_⟩
  · rw [freed_concat, brought_concat, hfrees, hbrings]
    exact h.balance k
  · rw [brought_concat, hbrings]
    exact h.atMost k
  · rw [brought_concat, hbrings]
    exact h.fresh k hk
  · rw [htaken]
    exact h.sent p hp b hdata
  · rw [htaken]
    exact h.unsent call hcall
  · refine along_concat.2 ⟨h.right, ?_⟩
    cases e <;> trivial

/-- The order of the packets does not matter. -/
theorem Ledger.perm (h : Ledger log ps next) {ps' : List Packet} (hperm : ps.Perm ps') :
    Ledger log ps' next := by
  have hcalls : (calls ps).Perm (calls ps') := hperm.filterMap _
  refine ⟨fun k => ?_, h.atMost, h.fresh, fun p hp => h.sent p (hperm.mem_iff.2 hp), h.unsent,
    hcalls.nodup_iff.1 h.distinct, fun call hc => h.below call (hcalls.mem_iff.2 hc), h.right⟩
  rw [← h.balance k, held, held, hperm.countP_eq]

/-- The packet of a payload that `APE_socket_write` has in hand. -/
def inHand (b : Block) (offset : Nat) (type : DataType) : Packet :=
  ⟨some b, b.bytes.length, offset, type.direct⟩

/-- **A payload is handed over.** -/
theorem Ledger.hand (h : Ledger log ps next) (hcall : b.call = next) (hcopy : b.copy = false)
    (type : DataType) : Ledger (log ++ [Event.handed b type]) (inHand b 0 type :: ps) (next + 1) := by
  have hkey : b.key = (next, false) := by rw [Block.key, hcall, hcopy]
  have hbrings : ∀ k, (Event.handed b type).brings k = (inHand b 0 type).holds k := by
    intro k
    cases type <;> simp [Event.brings, Packet.holds, inHand, DataType.direct, DataType.frees]
  have htaken : ∀ call, taken call (log ++ [Event.handed b type]) = taken call log := by
    intro call
    rw [taken_concat]
    rfl
  have hcalls : calls (inHand b 0 type :: ps) = next :: calls ps := by
    rw [calls_cons (b := b) rfl, hcall]
  refine ⟨fun k => ?_, fun k => ?_, fun k hk => ?_, fun p hp b' hdata => ?_, fun call hc => ?_, ?_,
    ?_, along_concat.2 ⟨h.right, trivial⟩⟩
  · have hbalance := h.balance k
    rw [freed_concat, held_cons, brought_concat, hbrings]
    have hfrees : (Event.handed b type).freesBlock k = false := rfl
    rw [hfrees]
    simp only [Bool.false_eq_true, if_false]
    omega
  · rw [brought_concat]
    by_cases hk : b.key = k
    · have hnone := h.fresh k (by rw [← hk, hkey])
      split_ifs <;> omega
    · have hnot : (Event.handed b type).brings k = false := by simp [Event.brings, hk]
      rw [hnot]
      exact h.atMost k
  · have hnone := h.fresh k (Nat.le_of_succ_le hk)
    have hne : b.key ≠ k := by
      rintro rfl
      rw [hkey] at hk
      exact Nat.not_succ_le_self _ hk
    rw [brought_concat, hnone]
    simp [Event.brings, hne]
  · rw [htaken]
    rcases List.mem_cons.1 hp with rfl | hp
    · obtain rfl : b = b' := Option.some.inj hdata
      exact h.unsent b.call (Nat.le_of_eq hcall.symm)
    · exact h.sent p hp b' hdata
  · rw [htaken]
    exact h.unsent call (Nat.le_of_succ_le hc)
  · rw [hcalls, List.nodup_cons]
    exact ⟨fun hmem => Nat.lt_irrefl _ (h.below next hmem), h.distinct⟩
  · rw [hcalls]
    intro call hc
    rcases List.mem_cons.1 hc with rfl | hc
    · exact Nat.lt_succ_self _
    · exact Nat.lt_succ_of_lt (h.below call hc)

/-- **Bytes of a packet are taken.** -/
theorem Ledger.took (h : Ledger log (p :: ps) next) (hdata : p.data = some b) (n : Nat) :
    Ledger (log ++ [Event.took b n]) ({ p with offset := p.offset + n } :: ps) next := by
  have hdata' : ({ p with offset := p.offset + n } : Packet).data = some b := hdata
  have hcalls : calls ({ p with offset := p.offset + n } :: ps) = calls (p :: ps) := by
    rw [calls_cons hdata, calls_cons hdata']
  have hdistinct := h.distinct
  rw [calls_cons hdata, List.nodup_cons] at hdistinct
  refine ⟨fun k => ?_, fun k => ?_, fun k hk => ?_, fun p' hp' b' hb' => ?_, fun call hc => ?_,
    by rw [hcalls]; exact h.distinct, by rw [hcalls]; exact h.below,
    along_concat.2 ⟨h.right, trivial⟩⟩
  · rw [freed_concat, brought_concat]
    exact h.balance k
  · rw [brought_concat]
    exact h.atMost k
  · rw [brought_concat]
    exact h.fresh k hk
  · rw [taken_concat, taken_took]
    rcases List.mem_cons.1 hp' with rfl | hp'
    · obtain rfl : b = b' := Option.some.inj (hdata'.symm.trans hb')
      rw [if_pos rfl, h.sent p (List.mem_cons_self ..) b hdata]
    · have hne : b.call ≠ b'.call := fun heq => hdistinct.1 (heq ▸ mem_calls hp' hb')
      rw [if_neg hne, h.sent p' (List.mem_cons_of_mem _ hp') b' hb']
      rfl
  · have hlt := h.below b.call (mem_calls (List.mem_cons_self ..) hdata)
    have hne : b.call ≠ call := Nat.ne_of_lt (Nat.lt_of_lt_of_le hlt hc)
    rw [taken_concat, taken_took, if_neg hne, h.unsent call hc]

/-- **A packet is released** when all of it has been taken, its write has failed, or the socket has
been destroyed. -/
theorem Ledger.release (h : Ledger log (p :: ps) next) (hdata : p.data = some b)
    (hok : p.offset = b.bytes.length ∨ .failed b ∈ log ∨ .destroyed ∈ log) :
    Ledger (log ++ [Event.released b p.type]) ps next := by
  have hholds : ∀ k, (Event.released b p.type).freesBlock k = p.holds k := by
    intro k
    simp [Event.freesBlock, Packet.holds, hdata]
  have htaken : ∀ call, taken call (log ++ [Event.released b p.type]) = taken call log := by
    intro call
    rw [taken_concat]
    rfl
  have hdistinct := h.distinct
  rw [calls_cons hdata, List.nodup_cons] at hdistinct
  refine ⟨fun k => ?_, fun k => ?_, fun k hk => ?_, fun p' hp' b' hb' => ?_, fun call hc => ?_,
    hdistinct.2, fun call hc => ?_, along_concat.2 ⟨h.right, ?_⟩⟩
  · have hbalance := h.balance k
    rw [held_cons] at hbalance
    have hbrings : (Event.released b p.type).brings k = false := rfl
    rw [freed_concat, brought_concat, hholds, hbrings]
    simp only [Bool.false_eq_true, if_false]
    omega
  · rw [brought_concat]
    exact h.atMost k
  · rw [brought_concat]
    exact h.fresh k hk
  · rw [htaken]
    exact h.sent p' (List.mem_cons_of_mem _ hp') b' hb'
  · rw [htaken]
    exact h.unsent call hc
  · apply h.below
    rw [calls_cons hdata]
    exact List.mem_cons_of_mem _ hc
  · exact hok.imp_left fun hall => (h.sent p (List.mem_cons_self ..) b hdata).trans hall

/-- **A payload in hand is queued**, as a copy if it is the caller's to reuse. -/
theorem Ledger.queue {offset : Nat} {type : DataType} (h : Ledger log (inHand b offset type :: ps) next)
    (hnone : brought (b.call, true) log = 0) :
    Ledger (log ++ if type.queued = .copy then [.copied { b with copy := true }] else [])
      (queuedPacket b offset type :: ps) next := by
  by_cases hqueued : type.queued = .copy
  · rw [if_pos hqueued]
    set b' : Block := { b with copy := true } with hb'
    have hkey : b'.key = (b.call, true) := rfl
    have hpacket : queuedPacket b offset type = ⟨some b', b.bytes.length, offset, .copy⟩ := by
      rw [queuedPacket, if_pos hqueued, hqueued]
    -- the original is not ours to free
    have horiginal : ∀ k, (inHand b offset type).holds k = false := by
      intro k
      cases type <;> first | exact absurd hqueued (by decide) | simp [Packet.holds, inHand,
        DataType.direct, DataType.frees]
    have hholds : ∀ k, (queuedPacket b offset type).holds k = (Event.copied b').brings k := by
      intro k
      simp [hpacket, Packet.holds, Event.brings, DataType.frees]
    have htaken : ∀ call, taken call (log ++ [Event.copied b']) = taken call log := by
      intro call
      rw [taken_concat]
      rfl
    have hcalls : calls (queuedPacket b offset type :: ps) = calls (inHand b offset type :: ps) := by
      rw [hpacket, calls_cons (b := b') rfl, calls_cons (b := b) rfl]
    refine ⟨fun k => ?_, fun k => ?_, fun k hk => ?_, fun p' hp' b'' hb'' => ?_, fun call hc => ?_,
      by rw [hcalls]; exact h.distinct, by rw [hcalls]; exact h.below,
      along_concat.2 ⟨h.right, trivial⟩⟩
    · have hbalance := h.balance k
      rw [held_cons, horiginal] at hbalance
      have hfrees : (Event.copied b').freesBlock k = false := rfl
      rw [freed_concat, held_cons, brought_concat, hfrees, hholds]
      simp only [Bool.false_eq_true, if_false] at hbalance ⊢
      omega
    · rw [brought_concat]
      by_cases hk : b'.key = k
      · rw [← hk, hkey, hnone]
        split_ifs <;> omega
      · have hnot : (Event.copied b').brings k = false := by simp [Event.brings, hk]
        rw [hnot]
        exact h.atMost k
    · have hlt := h.below b.call (mem_calls (List.mem_cons_self ..) rfl)
      have hne : b'.key ≠ k := by
        rintro rfl
        rw [hkey] at hk
        exact Nat.lt_irrefl _ (Nat.lt_of_lt_of_le hlt hk)
      rw [brought_concat, h.fresh k hk]
      simp [Event.brings, hne]
    · rw [htaken]
      rcases List.mem_cons.1 hp' with rfl | hp'
      · rw [hpacket] at hb'' ⊢
        obtain rfl : b' = b'' := Option.some.inj hb''
        exact h.sent _ (List.mem_cons_self ..) b rfl
      · exact h.sent p' (List.mem_cons_of_mem _ hp') b'' hb''
    · rw [htaken]
      exact h.unsent call hc
  · rw [if_neg hqueued, List.append_nil]
    have hsame : queuedPacket b offset type = inHand b offset type := by
      cases type <;> first | exact absurd rfl hqueued | simp [queuedPacket, inHand, DataType.queued,
        DataType.direct]
    rwa [hsame]

/-- **A pass over the packets** releases those that were sent and keeps the account. -/
theorem Ledger.drain (h : Ledger log ps next) (hpending : ∀ p ∈ ps, p.Pending) (n : Nat) :
    Ledger (log ++ (drain n ps).2) (drain n ps).1 next := by
  induction ps generalizing log n with
  | nil =>
    rw [show Ownership.drain n [] = ([], []) from rfl, List.append_nil]
    exact h
  | cons p ps ih =>
    obtain ⟨hp, hps⟩ := List.forall_mem_cons.1 hpending
    obtain ⟨b, hdata, hlen, hoffset⟩ := id hp
    -- the packet is taken in full and released
    have hsend : Ledger (log ++ [Event.took b p.left] ++ [Event.released b p.type]) ps next := by
      refine (h.took hdata p.left).release hdata (Or.inl ?_)
      show p.offset + (p.len - p.offset) = b.bytes.length
      omega
    rcases Nat.lt_trichotomy n p.left with hlt | heq | hgt
    · rw [drain_short hdata hlt]
      exact h.took hdata n
    · rw [drain_exact hdata heq]
      rwa [List.append_assoc] at hsend
    · rw [drain_more hdata hgt]
      have hrest := ih hsend hps (n - p.left)
      simpa only [List.append_assoc, List.cons_append, List.nil_append] using hrest

end Ledger

/-! ## The functions -/

/-- The state between two calls: the packets `ps` wait, the ledger is right, and an offline socket
was destroyed. -/
structure PlainInv (s : Sock) (ps : List Packet) : Prop where
  secure : s.secure = false
  tidy : Tidy s.jobs ps
  ledger : Ledger s.log ps s.written
  offline : s.online = false → .destroyed ∈ s.log

theorem plainInv_new : PlainInv (Sock.new false) [] :=
  ⟨rfl, tidy_new false, ledger_new, fun h => Bool.noConfusion h⟩

/-- What the loop over `write` leaves of a socket with the payload `b` in hand: `sent` bytes of it
have been taken, and no block has been brought. -/
structure WriteRun (b : Block) (type : DataType) (ps : List Packet) (s s' : Sock) (outcome : Outcome)
    (sent : Nat) : Prop where
  secure : s'.secure = s.secure
  jobs : s'.jobs = s.jobs
  online : s'.online = s.online
  log : ∀ e ∈ s.log, e ∈ s'.log
  brought : ∀ k, brought k s'.log = brought k s.log
  ledger : Ledger s'.log (inHand b sent type :: ps) s'.written
  done : outcome = .done → sent = b.bytes.length
  again : outcome = .again → sent < b.bytes.length
  failed : outcome = .failed → .failed b ∈ s'.log

section Functions

variable {s : Sock} {ps : List Packet} {b : Block} {type : DataType}

/-- Fields that are not named may change. -/
theorem PlainInv.same (h : PlainInv s ps) {s' : Sock} (hsecure : s'.secure = s.secure)
    (hjobs : s'.jobs = s.jobs) (hwritten : s'.written = s.written) (hlog : s'.log = s.log)
    (honline : s'.online = s.online) : PlainInv s' ps :=
  ⟨hsecure.trans h.secure, by rw [hjobs]; exact h.tidy, by rw [hlog, hwritten]; exact h.ledger,
    by rw [honline, hlog]; exact h.offline⟩

/-- **The loop over `write`** sends a block up to what the system takes of it. -/
theorem writeLoop_run (sys : System) (fuel : Nat) {sent : Nat}
    (hledger : Ledger s.log (inHand b sent type :: ps) s.written) (hsent : sent ≤ b.bytes.length)
    (hfuel : b.bytes.length ≤ sent + fuel) :
    WriteRun b type ps s (writeLoop sys b fuel sent s).2.2 (writeLoop sys b fuel sent s).1
      (writeLoop sys b fuel sent s).2.1 := by
  induction fuel generalizing sent s with
  | zero =>
    exact ⟨rfl, rfl, rfl, fun _ he => he, fun _ => rfl, hledger, fun _ => Nat.le_antisymm hsent hfuel,
      fun h => Outcome.noConfusion h, fun h => Outcome.noConfusion h⟩
  | succ fuel ih =>
    rw [writeLoop]
    by_cases hleft : sent < b.bytes.length
    · rw [if_pos hleft]
      cases hanswer : sys.write s.calls with
      | took n =>
        -- between one byte and all that are left
        set n' := min (max n 1) (b.bytes.length - sent) with hn'
        have hpos : 0 < n' := by omega
        have hle : n' ≤ b.bytes.length - sent := by omega
        have hnext : Ledger (s.log ++ [Event.took b n']) (inHand b (sent + n') type :: ps) s.written :=
          hledger.took rfl n'
        have hrun := ih (s := { s.note [.took b n'] with calls := s.calls + 1 }) hnext (by omega)
          (by omega)
        refine ⟨hrun.secure, hrun.jobs, hrun.online,
          fun e he => hrun.log e (List.mem_append_left _ he), fun k => (hrun.brought k).trans ?_,
          hrun.ledger, hrun.done, hrun.again, hrun.failed⟩
        exact brought_concat k s.log (.took b n')
      | again =>
        exact ⟨rfl, rfl, rfl, fun _ he => he, fun _ => rfl, hledger, fun h => Outcome.noConfusion h,
          fun _ => hleft, fun h => Outcome.noConfusion h⟩
      | error =>
        exact ⟨rfl, rfl, rfl, fun _ he => List.mem_append_left _ he,
          fun k => brought_concat k s.log (.failed b), hledger.idle rfl,
          fun h => Outcome.noConfusion h, fun h => Outcome.noConfusion h,
          fun _ => List.mem_append_right _ (List.mem_singleton_self _)⟩
    · rw [if_neg hleft]
      exact ⟨rfl, rfl, rfl, fun _ he => he, fun _ => rfl, hledger,
        fun _ => Nat.le_antisymm hsent (Nat.not_lt.1 hleft), fun h => Outcome.noConfusion h,
        fun h => Outcome.noConfusion h⟩

/-- `ape_socket_queue_data` of a payload in hand, of which `sent` bytes have been taken. -/
theorem PlainInv.queueData {sent : Nat} (hsecure : s.secure = false) (htidy : Tidy s.jobs ps)
    (hledger : Ledger s.log (inHand b sent type :: ps) s.written)
    (hnone : brought (b.call, true) s.log = 0) (hoffline : s.online = false → .destroyed ∈ s.log)
    (hsent : sent < b.bytes.length) :
    PlainInv (queueData b sent type s) (ps ++ [queuedPacket b sent type]) := by
  have hlog : (Ownership.queueData b sent type s).log =
      s.log ++ if type.queued = .copy then [.copied { b with copy := true }] else [] := by
    by_cases hcopy : type.queued = .copy
    · simp [Ownership.queueData, Sock.note, hcopy]
    · simp [Ownership.queueData, Sock.note, hcopy]
  refine ⟨hsecure, queueData_tidy htidy type hsent, ?_, fun hnot => ?_⟩
  · rw [hlog]
    exact (hledger.queue hnone).perm (List.perm_append_singleton ..).symm
  · rw [hlog]
    exact List.mem_append_left _ (hoffline hnot)

/-- `ape_socket_shutdown_force` keeps the account of a plain socket. -/
theorem PlainInv.shutdownForce (sys : System) (h : PlainInv s ps) :
    PlainInv (shutdownForce sys s) ps := by
  obtain ⟨hsecure, hjobs, hwritten, honline, hlog⟩ := shutdownForce_fields sys s
  refine ⟨hsecure.trans h.secure, by rw [hjobs]; exact h.tidy, ?_, fun hnot => ?_⟩
  · rw [hlog, hwritten]
    split_ifs
    · exact h.ledger.idle rfl
    · rw [List.append_nil]
      exact h.ledger
  · rw [hlog]
    exact List.mem_append_left _ (h.offline (honline ▸ hnot))

/-- **`APE_socket_write` on a plain socket** with nothing to wait for. -/
theorem PlainInv.writePlain (sys : System) (hsecure : s.secure = false) (htidy : Tidy s.jobs [])
    (hledger : Ledger s.log [inHand b 0 type] s.written) (hnone : brought (b.call, true) s.log = 0)
    (hoffline : s.online = false → .destroyed ∈ s.log) :
    ∃ ps, PlainInv (writePlain sys b type s) ps := by
  have hrun := writeLoop_run sys b.bytes.length hledger (Nat.zero_le _) (by omega)
  unfold Ownership.writePlain
  revert hrun
  generalize writeLoop sys b b.bytes.length 0 s = r
  obtain ⟨outcome, sent, s'⟩ := r
  intro hrun
  have hsecure' : s'.secure = false := hrun.secure.trans hsecure
  have htidy' : Tidy s'.jobs [] := by
    rw [hrun.jobs]
    exact htidy
  have hoffline' : s'.online = false → .destroyed ∈ s'.log :=
    fun hnot => hrun.log _ (hoffline (hrun.online ▸ hnot))
  -- the payload is released when it has been sent or the write has failed
  have hrelease : sent = b.bytes.length ∨ .failed b ∈ s'.log →
      PlainInv (releaseData b type.direct s') [] := fun hok =>
    ⟨hsecure', htidy', hrun.ledger.release rfl (hok.imp_right Or.inl),
      fun hnot => List.mem_append_left _ (hoffline' hnot)⟩
  cases outcome with
  | done => exact ⟨[], hrelease (Or.inl (hrun.done rfl))⟩
  | again =>
    have hnone' : brought (b.call, true) s'.log = 0 := (hrun.brought _).trans hnone
    exact ⟨_, PlainInv.queueData (s := s'.block) hsecure' htidy' hrun.ledger hnone' hoffline'
      (hrun.again rfl)⟩
  | failed => exact ⟨[], (hrelease (Or.inr (hrun.failed rfl))).shutdownForce sys⟩

/-- **`APE_socket_write`** keeps the account of a plain socket. -/
theorem PlainInv.write (sys : System) (h : PlainInv s ps) (data : Payload) (type : DataType) :
    ∃ ps', PlainInv (apeSocketWrite sys data type s) ps' := by
  set b : Block := ⟨s.written, false, data⟩ with hb
  have hhand := h.ledger.hand (b := b) rfl rfl type
  have hoff : s.online = false → .destroyed ∈ s.log ++ [Event.handed b type] :=
    fun hnot => List.mem_append_left _ (h.offline hnot)
  -- no copy of the payload has been made
  have hnone : brought (b.call, true) (s.log ++ [Event.handed b type]) = 0 := by
    rw [brought_concat, h.ledger.fresh (b.call, true) (Nat.le_refl _)]
    simp [Event.brings, Block.key, hb]
  unfold apeSocketWrite
  simp only [← hb]
  by_cases hrefuse : (handed b type s).online = false ∨ data.bytes = []
  · rw [if_pos hrefuse]
    refine ⟨ps, h.secure, h.tidy, hhand.release rfl ?_, fun hnot =>
      List.mem_append_left _ (hoff hnot)⟩
    rcases hrefuse with hnot | hempty
    · exact Or.inr (Or.inr (hoff hnot))
    · left
      show 0 = data.bytes.length
      rw [hempty]
      rfl
  rw [if_neg hrefuse]
  have hpos : 0 < b.bytes.length := List.length_pos_iff.2 fun hempty => hrefuse (Or.inr hempty)
  by_cases hqueued : (handed b type s).mustQueue = true
  · rw [if_pos hqueued]
    exact ⟨_, PlainInv.queueData (s := handed b type s) h.secure h.tidy hhand hnone hoff hpos⟩
  · rw [if_neg hqueued, if_neg (show ¬ (handed b type s).secure = true from by
      simp [handed, Sock.note, h.secure])]
    -- nothing waits, since the head is idle
    have hidle : s.jobs.head.active = false := by
      have hnot : ¬ (s.wouldBlock || s.jobs.head.active) = true := hqueued
      simp only [Bool.or_eq_true, not_or, Bool.not_eq_true] at hnot
      exact hnot.2
    obtain rfl := h.tidy.nothing hidle
    exact PlainInv.writePlain sys (s := handed b type s) h.secure h.tidy hhand hnone hoff

/-- A count that `writev` answers is one of the bytes it was offered. -/
theorem clipv_le {a : Answer} {asked n : Nat} (h : a.clipv asked = .took n) :
    n ≤ asked ∧ n < 2 ^ 63 := by
  cases a with
  | took m =>
    simp only [Answer.clipv] at h
    split_ifs at h
    obtain rfl := Answer.took.inj h
    omega
  | again => exact Answer.noConfusion h
  | error => exact Answer.noConfusion h

/-- A round of `ape_socket_do_jobs`. -/
theorem PlainInv.doJob (sys : System) (h : PlainInv s ps) (hactive : s.jobs.head.active = true) :
    ∃ ps', PlainInv (doJob sys s).2 ps' ∧ ((doJob sys s).1 = true → ps' = []) := by
  obtain ⟨hwritev, q, hqueue, hlined⟩ := h.tidy.lined hactive
  simp only [Ownership.doJob, hwritev, hqueue, doWritev, h.secure, Bool.false_eq_true, if_false]
  cases hanswer : (sys.write s.calls).clipv (chunks sys q) with
  | took n =>
    obtain ⟨hle, hn⟩ := clipv_le hanswer
    obtain ⟨hev, fs, hbacklog⟩ := packetLoop_drain hlined.backlog hlined.backlog.length_le hn
      (hle.trans (hlined.backlog.chunks_le sys))
    have hq' := (packetLoop_placed hlined.placed q.nodes.length n).lined hbacklog
    set q' := (packetLoop q.nodes.length n q).1
    let s₁ : Sock := { s.note (drain n ps).2 with calls := s.calls + 1 }
    have hinv : PlainInv (setQueue q' s₁) (drain n ps).1 :=
      ⟨h.secure, setQueue_tidy (s := s₁) h.tidy hactive hq', h.ledger.drain hlined.pending n,
        fun hnot => List.mem_append_left _ (h.offline hnot)⟩
    simp only [hev]
    by_cases hleft : q'.head.data.isSome = true
    · rw [if_pos hleft]
      exact ⟨_, hinv.same rfl rfl rfl rfl rfl, fun hd => Bool.noConfusion hd⟩
    · rw [if_neg hleft]
      exact ⟨_, hinv, fun _ => not_not.1 fun hne => hleft (hbacklog.head_isSome.2 hne)⟩
  | again => exact ⟨ps, h.same rfl rfl rfl rfl rfl, fun hd => Bool.noConfusion hd⟩
  | error => exact ⟨ps, h.same rfl rfl rfl rfl rfl, fun hd => Bool.noConfusion hd⟩

/-- **`ape_socket_do_jobs`** keeps the account of a plain socket. -/
theorem PlainInv.doJobs (sys : System) (h : PlainInv s ps) : ∃ ps', PlainInv (doJobs sys s) ps' := by
  by_cases hidle : s.jobs.head.active = false
  · refine ⟨ps, ?_⟩
    rw [Ownership.doJobs, doJobsLoop, if_pos hidle]
    exact h
  have hactive : s.jobs.head.active = true := by simpa using hidle
  obtain ⟨ps', hinv, hempty⟩ := h.doJob sys hactive
  rw [doJobs_eq sys h.tidy ⟨ps', hinv.tidy, hempty⟩, if_neg hidle]
  split_ifs with hfinished
  · obtain rfl := hempty hfinished
    exact ⟨[], hinv.secure, finishJob_tidy hinv.tidy, hinv.ledger, hinv.offline⟩
  · exact ⟨ps', hinv⟩

/-! ## Runs -/

/-- **One step** of a plain socket keeps its account. -/
theorem PlainInv.step (sys : System) (h : PlainInv s ps) (l : Label) :
    ∃ ps', PlainInv (step sys s l) ps' := by
  cases l with
  | write data type => exact h.write sys data type
  | clear => exact ⟨ps, h.same rfl rfl rfl rfl rfl⟩
  | doJobs =>
    simp only [Ownership.step]
    split_ifs
    · exact h.doJobs sys
    · exact ⟨ps, h⟩
  | destroy =>
    refine ⟨ps, ?_⟩
    simp only [Ownership.step, Ownership.destroy]
    split_ifs
    · exact h.same rfl rfl rfl rfl rfl
    · exact h
  | destroyed =>
    refine ⟨ps, ?_⟩
    simp only [Ownership.step, Ownership.destroyed]
    split_ifs
    · exact h
    · exact ⟨h.secure, h.tidy, h.ledger.idle rfl,
        fun _ => List.mem_append_right _ (List.mem_singleton_self _)⟩

/-- The account of a plain socket holds behind every run. -/
theorem plainInv_run (sys : System) (ls : List Label) :
    ∃ ps, PlainInv (run sys (Sock.new false) ls) ps := by
  have hrun : ∀ s ps, PlainInv s ps → ∃ ps', PlainInv (run sys s ls) ps' := by
    induction ls with
    | nil => exact fun s ps h => ⟨ps, h⟩
    | cons l ls ih =>
      intro s ps h
      obtain ⟨ps', hstep⟩ := h.step sys l
      exact ih _ ps' hstep
  exact hrun _ [] plainInv_new

/-- The packets that wait are those of the one queue. -/
theorem Tidy.queuedPackets (h : Tidy s.jobs ps) : queuedPackets s = ps := by
  have hothers : (s.jobs.after.flatMap fun j =>
      match j.queue with
      | none => []
      | some q => waiting q) = [] := by
    apply List.flatMap_eq_nil_iff.2
    intro j hj
    rw [h.others j hj]
  rw [Ownership.queuedPackets, PoolList.nodes, h.before, List.nil_append, List.flatMap_cons, hothers,
    List.append_nil]
  rcases h.queue with ⟨hnone, hidle⟩ | ⟨q, hq, hlined⟩
  · rw [hnone, h.idle hidle]
  · rw [hq]
    exact hlined.backlog.waiting

end Functions

/-! ## The result -/

/-- Whose block is held by no packet. -/
theorem held_eq_zero {k : Nat × Bool} {ps : List Packet} (h : ∀ p ∈ ps, p.type.frees = false) :
    held k ps = 0 := by
  apply List.countP_eq_zero.2
  intro p hp
  cases hdata : p.data <;> simp [Packet.holds, hdata, h p hp]

/-- The block of a packet that is to be freed. -/
theorem held_pos {p : Packet} {ps : List Packet} {b : Block} (hp : p ∈ ps) (hdata : p.data = some b)
    (hfrees : p.type.frees = true) : 0 < held b.key ps := by
  apply List.countP_pos_iff.2
  exact ⟨p, hp, by simp [Packet.holds, hdata, hfrees]⟩

/-- A block that is to be freed was brought. -/
theorem exists_brings {k : Nat × Bool} {log : List Event} (h : 0 < brought k log) :
    ∃ b, b.key = k ∧ (.handed b .autorelease ∈ log ∨ .copied b ∈ log) := by
  obtain ⟨e, he, hbrings⟩ := List.countP_pos_iff.1 h
  cases e with
  | handed b type =>
    simp only [Event.brings, Bool.and_eq_true, decide_eq_true_eq] at hbrings
    exact ⟨b, hbrings.1, Or.inl (hbrings.2 ▸ he)⟩
  | copied b => exact ⟨b, by simpa [Event.brings] using hbrings, Or.inr he⟩
  | _ => simp [Event.brings] at hbrings

/-- **Each payload and each copy of a plain socket is freed exactly once exactly when none of them is
queued when `ape_socket_free` is called**, for any answers of the kernel and at any moment. -/
theorem settled_iff (sys : System) (ls : List Label) :
    Settled (apeSocketFree (run sys (Sock.new false) ls)) ↔
      ∀ p ∈ queuedPackets (run sys (Sock.new false) ls), p.type.frees = false := by
  obtain ⟨ps, h⟩ := plainInv_run sys ls
  set s := run sys (Sock.new false) ls
  have hledger : Ledger (apeSocketFree s).log ps s.written := h.ledger.idle rfl
  rw [h.tidy.queuedPackets]
  constructor
  · intro hsettled p hp
    by_contra hfrees
    obtain ⟨b, hdata, -⟩ := h.tidy.getD.pending p hp
    have hheld := held_pos hp hdata (by simpa using hfrees)
    have hbalance := hledger.balance b.key
    have hmost := hledger.atMost b.key
    have hpos : 0 < brought b.key (apeSocketFree s).log := by omega
    obtain ⟨b', hkey, hb'⟩ := exists_brings hpos
    have hfreed : freed b.key (apeSocketFree s).log = 1 := by
      rw [← hkey]
      exact hb'.elim (hsettled.handed b') (hsettled.copied b')
    omega
  · intro hnone
    have hfreed : ∀ k, 0 < brought k (apeSocketFree s).log → freed k (apeSocketFree s).log = 1 := by
      intro k hk
      have hbalance := hledger.balance k
      have hmost := hledger.atMost k
      rw [held_eq_zero hnone] at hbalance
      omega
    refine ⟨fun b hb => hfreed _ ?_, fun b hb => hfreed _ ?_, hledger.right⟩
    · exact List.countP_pos_iff.2 ⟨_, hb, by simp [Event.brings]⟩
    · exact List.countP_pos_iff.2 ⟨_, hb, by simp [Event.brings]⟩

/-- A system whose `write` never takes a byte. -/
def answersAgain : System := ⟨fun _ => .again, fun _ => .want, fun _ => false, 16⟩

/-- **A payload that is queued when its socket is destroyed** is never freed. -/
theorem settled_fails : ¬ Settled (apeSocketFree (run answersAgain (Sock.new false)
    [.write ⟨[1], by decide⟩ .autorelease, .destroy, .destroyed])) := by
  intro h
  exact absurd (h.handed ⟨0, false, ⟨[1], by decide⟩⟩ (by decide)) (by decide)

end Ape.Ownership
