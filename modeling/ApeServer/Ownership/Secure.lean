import ApeServer.Lib.Runs
import ApeServer.Ownership.Queue

/-!
# What happens to the payloads of a secure socket

`SSL_write` is called in two places, and both compare its answer with -1 only: an answer of 0, and
`SSL_ERROR_ZERO_RETURN`, end in the release of a payload that was not accepted.

* `Delivered` — what is promised of a secure socket;
* `AnsweredRight` — the answers that release no payload too early;
* `Books` — the invariant: the log of the offers and releases against the payloads that wait; one
  lemma for each entry;
* `delivered_iff` — **a secure socket loses no payload silently exactly when `SSL_write` gives none
  of the other answers before the socket is shut down**.
-/

namespace Ape.Ownership

open Socket (PoolList)
open Runs (Along along_nil along_concat)

/-! ## What is promised -/

/-- A call of `SSL_write`. -/
structure Offer where
  call : Nat
  bytes : List UInt8
  num : Int
  answer : SslAnswer
  deriving DecidableEq

/-- The calls of `SSL_write` in a log. -/
def offers (log : List Event) : List Offer :=
  log.filterMap fun
    | .offered b num _ a => some ⟨b.call, b.bytes, num, a⟩
    | _ => none

/-- The payloads it accepts, by the calls of `APE_socket_write` that brought them. -/
def acceptedCalls (log : List Event) : List Nat :=
  ((offers log).filter fun o => o.answer = .full).map Offer.call

/-- The bytes it accepts of the payload of one call. -/
def accepted (call : Nat) (log : List Event) : List UInt8 :=
  (offers log).flatMap fun o =>
    if o.answer = .full ∧ o.call = call then o.bytes.take o.num.toNat else []

/-- The socket has been shut down or destroyed. -/
def Ended (log : List Event) : Prop := .shutdown ∈ log ∨ .destroyed ∈ log

/-- Behind the entries `pre`, a payload is released only if it has been accepted completely or the
socket has ended; the tolerant reading also allows a payload on which `SSL_write` has just failed,
which `APE_socket_write` releases right before it shuts the socket down. -/
def ReleasedRight (tolerant : Bool) (pre : List Event) : Event → Prop
  | .released b _ => accepted b.call pre = b.bytes ∨ Ended pre ∨
      (tolerant = true ∧ ∃ num queued, pre.getLast? = some (.offered b num queued .fatal))
  | _ => True

/-- A payload that is refused is the next one that is offered, with the same bytes and length. -/
def Retried (o o' : Offer) : Prop :=
  o.answer = .want → o'.call = o.call ∧ o'.bytes = o.bytes ∧ o'.num = o.num

/-- The calls whose payloads wait in the queues of a socket. -/
def queuedCalls (s : Sock) : List Nat :=
  s.jobs.nodes.flatMap fun j =>
    match j.queue with
    | none => []
    | some q => (waiting q).filterMap fun p => p.data.map Block.call

/-- No payload is lost silently: each is released in time or waits, they are accepted in the order of
the calls, a refused one is tried again, and an error ends the socket. -/
structure Delivered (tolerant : Bool) (s : Sock) : Prop where
  released : Along (ReleasedRight tolerant) s.log
  kept : ∀ b type, .handed b type ∈ s.log →
    (∃ b' type', .released b' type' ∈ s.log ∧ b'.call = b.call) ∨ b.call ∈ queuedCalls s
  order : (acceptedCalls s.log).Pairwise (· < ·)
  retry : (offers s.log).IsChain Retried
  fatal : ∀ o ∈ offers s.log, o.answer = .fatal → Ended s.log

/-- Behind the entries `pre`, and unless the socket has ended, `SSL_write` accepts all of the
payload, asks for another try, or fails; in the strict reading it does not fail on a payload that is
offered by `APE_socket_write` itself. -/
def AnsweredRight (tolerant : Bool) (pre : List Event) : Event → Prop
  | .offered b num queued a => Ended pre ∨
      match a with
      | .full => (b.bytes.length : Int) ≤ num
      | .want => True
      | .fatal => queued = true ∨ tolerant = true
      | .zero => False
      | .zeroReturn => False
  | _ => True

/-! ## Logs -/

/-- An entry that is no call of `SSL_write`, no release and no call of `APE_socket_write`. -/
def Event.aside : Event → Bool
  | .handed .. | .offered .. | .released .. => false
  | _ => true

section Logs

variable {log : List Event} {e : Event}

theorem Ended.append (h : Ended log) (ev : List Event) : Ended (log ++ ev) :=
  h.imp (List.mem_append_left _) (List.mem_append_left _)

theorem offers_append (log ev : List Event) : offers (log ++ ev) = offers log ++ offers ev :=
  List.filterMap_append

theorem offers_aside (h : e.aside = true) : offers [e] = [] := by
  cases e <;> first | rfl | exact Bool.noConfusion h

theorem accepted_append (call : Nat) (log ev : List Event) :
    accepted call (log ++ ev) = accepted call log ++ accepted call ev := by
  rw [accepted, offers_append, List.flatMap_append]
  rfl

/-- Of a payload that was not accepted no byte was. -/
theorem accepted_eq_nil {call : Nat} (h : call ∉ acceptedCalls log) : accepted call log = [] := by
  apply List.flatMap_eq_nil_iff.2
  intro o ho
  apply if_neg
  rintro ⟨hfull, hcall⟩
  apply h
  rw [← hcall]
  exact List.mem_map_of_mem (List.mem_filter.2 ⟨ho, by simpa using hfull⟩)

/-- What `SSL_write` accepts of one block is the block, if it says so, or nothing. -/
theorem accepted_offered (b : Block) (num : Int) (queued : Bool) (a : SslAnswer) :
    accepted b.call [.offered b num queued a] =
      if a = .full then b.bytes.take num.toNat else [] := by
  have hoffers : offers [.offered b num queued a] = [⟨b.call, b.bytes, num, a⟩] := rfl
  rw [accepted, hoffers, List.flatMap_singleton]
  simp only [and_true]

end Logs

/-! ## The books -/

/-- The payloads that wait, with the calls that brought them. -/
def view (ps : List Packet) : List (Nat × List UInt8) :=
  ps.filterMap fun p => p.data.map fun b => (b.call, b.bytes)

/-- The log against the payloads `ws` that wait, with the number of the next call.  The equivalence
is kept entry by entry: where a release is wrong, the answer before it was. -/
structure Books (tolerant : Bool) (log : List Event) (ws : List (Nat × List UInt8)) (next : Nat) :
    Prop where
  increasing : (acceptedCalls log ++ ws.map Prod.fst).Pairwise (· < ·)
  below : ∀ c ∈ acceptedCalls log ++ ws.map Prod.fst, c < next
  bytes : ∀ w ∈ ws, w.2 ≠ []
  retry : (offers log).IsChain Retried
  last : ∀ o ∈ (offers log).getLast?, o.answer = .want →
    ∃ w ∈ ws.head?, o = ⟨w.1, w.2, sslNum w.2.length, .want⟩
  right : Along (ReleasedRight tolerant) log ↔ Along (AnsweredRight tolerant) log
  kept : ∀ b type, .handed b type ∈ log →
    (∃ b' type', .released b' type' ∈ log ∧ b'.call = b.call) ∨ b.call ∈ ws.map Prod.fst

theorem books_new (tolerant : Bool) : Books tolerant [] [] 0 :=
  ⟨by simp [acceptedCalls, offers], by simp [acceptedCalls, offers], by simp, by simp [offers],
    by simp [offers], iff_of_true along_nil along_nil, by simp⟩

section Books

variable {tolerant : Bool} {log : List Event} {ws : List (Nat × List UInt8)} {next : Nat}

/-- The payload at the head has not been accepted. -/
theorem Books.head_new {w : Nat × List UInt8} (h : Books tolerant log (w :: ws) next) :
    accepted w.1 log = [] := by
  apply accepted_eq_nil
  intro hmem
  have hlt := (List.pairwise_append.1 h.increasing).2.2 w.1 hmem w.1 (List.mem_cons_self ..)
  exact Nat.lt_irrefl _ hlt

/-- An entry that does not matter. -/
theorem Books.aside (h : Books tolerant log ws next) {e : Event} (he : e.aside = true) :
    Books tolerant (log ++ [e]) ws next := by
  have hoffers : offers (log ++ [e]) = offers log := by
    rw [offers_append, offers_aside he, List.append_nil]
  have hcalls : acceptedCalls (log ++ [e]) = acceptedCalls log := by
    rw [acceptedCalls, hoffers]
    rfl
  refine ⟨by rw [hcalls]; exact h.increasing, by rw [hcalls]; exact h.below, h.bytes,
    by rw [hoffers]; exact h.retry, by rw [hoffers]; exact h.last, ?_, fun b type hb => ?_⟩
  · rw [along_concat, along_concat, h.right]
    refine and_congr_right fun _ => iff_of_true ?_ ?_
    · cases e <;> trivial
    · cases e <;> trivial
  · rcases List.mem_append.1 hb with hb | hb
    · exact (h.kept b type hb).imp_left fun ⟨b', type', hb', hcall⟩ =>
        ⟨b', type', List.mem_append_left _ hb', hcall⟩
    · rw [← List.mem_singleton.1 hb] at he
      exact Bool.noConfusion he

/-- A payload that is handed over, and waits. -/
theorem Books.hand (h : Books tolerant log ws next) {b : Block} (hcall : b.call = next)
    (hbytes : b.bytes ≠ []) (type : DataType) :
    Books tolerant (log ++ [Event.handed b type]) (ws ++ [(b.call, b.bytes)]) (next + 1) := by
  have hoffers : offers (log ++ [Event.handed b type]) = offers log := by
    rw [offers_append]
    exact List.append_nil _
  have hcalls : acceptedCalls (log ++ [Event.handed b type]) = acceptedCalls log := by
    rw [acceptedCalls, hoffers]
    rfl
  have hsplit : acceptedCalls log ++ (ws ++ [(b.call, b.bytes)]).map Prod.fst =
      (acceptedCalls log ++ ws.map Prod.fst) ++ [next] := by simp [hcall]
  refine ⟨?_, ?_, ?_, by rw [hoffers]; exact h.retry, ?_, ?_, ?_⟩
  · rw [hcalls, hsplit, List.pairwise_append]
    refine ⟨h.increasing, List.pairwise_singleton _ _, fun c hc c' hc' => ?_⟩
    rw [List.mem_singleton.1 hc']
    exact h.below c hc
  · rw [hcalls, hsplit]
    intro c hc
    rcases List.mem_append.1 hc with hc | hc
    · exact Nat.lt_succ_of_lt (h.below c hc)
    · rw [List.mem_singleton.1 hc]
      exact Nat.lt_succ_self _
  · intro w hw
    rcases List.mem_append.1 hw with hw | hw
    · exact h.bytes w hw
    · rw [List.mem_singleton.1 hw]
      exact hbytes
  · rw [hoffers]
    intro o ho hwant
    obtain ⟨w, hw, heq⟩ := h.last o ho hwant
    exact ⟨w, by rw [List.head?_append, Option.mem_def.1 hw]; rfl, heq⟩
  · rw [along_concat, along_concat, h.right]
    exact and_congr_right fun _ => iff_of_true trivial trivial
  · intro b' type' hb'
    rcases List.mem_append.1 hb' with hb' | hb'
    · refine (h.kept b' type' hb').imp (fun ⟨b'', type'', hb'', hcall'⟩ =>
        ⟨b'', type'', List.mem_append_left _ hb'', hcall'⟩) fun hmem => ?_
      rw [List.map_append]
      exact List.mem_append_left _ hmem
    · obtain ⟨rfl, -⟩ := Event.handed.inj (List.mem_singleton.1 hb')
      right
      simp

/-- A payload that is handed over and released at once: it is empty, or the socket has ended. -/
theorem Books.refuse (h : Books tolerant log ws next) {b : Block} (hcall : b.call = next)
    (hok : Ended log ∨ b.bytes = []) (type type' : DataType) :
    Books tolerant (log ++ [Event.handed b type] ++ [Event.released b type']) ws (next + 1) := by
  have hoffers : offers (log ++ [Event.handed b type] ++ [Event.released b type']) = offers log := by
    rw [offers_append, offers_append]
    exact (List.append_nil _).trans (List.append_nil _)
  have hcalls : acceptedCalls (log ++ [Event.handed b type] ++ [Event.released b type']) =
      acceptedCalls log := by
    rw [acceptedCalls, hoffers]
    rfl
  refine ⟨by rw [hcalls]; exact h.increasing, ?_, h.bytes, by rw [hoffers]; exact h.retry,
    by rw [hoffers]; exact h.last, ?_, ?_⟩
  · rw [hcalls]
    exact fun c hc => Nat.lt_succ_of_lt (h.below c hc)
  · rw [along_concat, along_concat, along_concat, along_concat, h.right]
    refine and_congr (and_congr_right fun _ => iff_of_true trivial trivial)
      (iff_of_true ?_ trivial)
    rcases hok with hended | hempty
    · exact Or.inr (Or.inl (hended.append _))
    · left
      rw [hempty, accepted_append, accepted_eq_nil]
      · rfl
      · intro hmem
        exact Nat.lt_irrefl _ (hcall ▸ h.below b.call (List.mem_append_left _ hmem))
  · intro b' type'' hb'
    rw [List.append_assoc] at hb' ⊢
    rcases List.mem_append.1 hb' with hb' | hb'
    · exact (h.kept b' type'' hb').imp_left fun ⟨b'', type₃, hb'', hcall'⟩ =>
        ⟨b'', type₃, List.mem_append_left _ hb'', hcall'⟩
    · have heq : Event.handed b' type'' = .handed b type := by simpa using hb'
      obtain ⟨rfl, -⟩ := Event.handed.inj heq
      exact Or.inl ⟨b', type', by simp, rfl⟩

/-- What an offer of the payload at the head does to the order of the offers. -/
theorem Books.retry_concat {w : Nat × List UInt8} (h : Books tolerant log (w :: ws) next)
    (a : SslAnswer) {o' : Offer} (ho' : o' = ⟨w.1, w.2, sslNum w.2.length, a⟩) :
    (offers log ++ [o']).IsChain Retried := by
  rw [List.isChain_append]
  refine ⟨h.retry, List.isChain_singleton _, fun o ho o'' ho'' hwant => ?_⟩
  obtain ⟨w', hw', heq⟩ := h.last o ho hwant
  obtain rfl : w = w' := Option.some.inj hw'
  obtain rfl : o' = o'' := Option.some.inj ho''
  rw [heq, ho']
  exact ⟨rfl, rfl, rfl⟩

/-- **The payload at the head is refused**, or `SSL_write` fails on it in the queue: it stays. -/
theorem Books.stay {b : Block} (h : Books tolerant log ((b.call, b.bytes) :: ws) next)
    {queued : Bool} {a : SslAnswer} (ha : a = .want ∨ (a = .fatal ∧ queued = true)) :
    Books tolerant (log ++ [Event.offered b (sslNum b.bytes.length) queued a])
      ((b.call, b.bytes) :: ws) next := by
  have hoffers : offers (log ++ [Event.offered b (sslNum b.bytes.length) queued a]) =
      offers log ++ [⟨b.call, b.bytes, sslNum b.bytes.length, a⟩] := by
    rw [offers_append]
    rfl
  have hnot : a ≠ .full := by
    rcases ha with rfl | ⟨rfl, -⟩ <;> simp
  have hcalls : acceptedCalls (log ++ [Event.offered b (sslNum b.bytes.length) queued a]) =
      acceptedCalls log := by
    rw [acceptedCalls, hoffers, List.filter_append]
    simp [acceptedCalls, hnot]
  refine ⟨by rw [hcalls]; exact h.increasing, by rw [hcalls]; exact h.below, h.bytes,
    by rw [hoffers]; exact h.retry_concat a rfl, ?_, ?_, ?_⟩
  · rw [hoffers, List.getLast?_append, List.getLast?_singleton]
    rintro o ho hwant
    obtain rfl : (⟨b.call, b.bytes, sslNum b.bytes.length, a⟩ : Offer) = o := Option.some.inj ho
    obtain rfl : a = .want := hwant
    exact ⟨(b.call, b.bytes), rfl, rfl⟩
  · rw [along_concat, along_concat, h.right]
    refine and_congr_right fun _ => iff_of_true trivial (Or.inr ?_)
    rcases ha with rfl | ⟨rfl, hqueued⟩
    · trivial
    · exact Or.inl hqueued
  · intro b' type hb'
    rcases List.mem_append.1 hb' with hb' | hb'
    · exact (h.kept b' type hb').imp_left fun ⟨b'', type', hb'', hcall⟩ =>
        ⟨b'', type', List.mem_append_left _ hb'', hcall⟩
    · exact Event.noConfusion (List.mem_singleton.1 hb')

/-- **The payload at the head is offered and released**: rightly so exactly when the answer was
right. -/
theorem Books.serve {b : Block} (h : Books tolerant log ((b.call, b.bytes) :: ws) next)
    {queued : Bool} {a : SslAnswer} (hwant : a ≠ .want) (hfatal : a = .fatal → queued = false)
    (type : DataType) :
    Books tolerant (log ++ [Event.offered b (sslNum b.bytes.length) queued a] ++
      [Event.released b type]) ws next := by
  have hoffers : offers (log ++ [Event.offered b (sslNum b.bytes.length) queued a] ++
      [.released b type]) = offers log ++ [⟨b.call, b.bytes, sslNum b.bytes.length, a⟩] := by
    rw [offers_append, offers_append]
    exact List.append_nil _
  have hcalls : acceptedCalls (log ++ [Event.offered b (sslNum b.bytes.length) queued a] ++
      [.released b type]) = acceptedCalls log ++ if a = .full then [b.call] else [] := by
    rw [acceptedCalls, hoffers, List.filter_append, List.map_append]
    cases a <;> rfl
  have hsub : ((acceptedCalls log ++ if a = .full then [b.call] else []) ++ ws.map Prod.fst).Sublist
      (acceptedCalls log ++ ((b.call, b.bytes) :: ws).map Prod.fst) := by
    rw [List.append_assoc]
    apply List.Sublist.append_left
    split_ifs
    · exact List.Sublist.refl _
    · exact List.sublist_cons_self ..
  refine ⟨by rw [hcalls]; exact h.increasing.sublist hsub,
    by rw [hcalls]; exact fun c hc => h.below c (hsub.subset hc),
    fun w hw => h.bytes w (List.mem_cons_of_mem _ hw), by rw [hoffers]; exact h.retry_concat a rfl, ?_,
    ?_, ?_⟩
  · rw [hoffers, List.getLast?_append, List.getLast?_singleton]
    rintro o ho hwant'
    obtain rfl : (⟨b.call, b.bytes, sslNum b.bytes.length, a⟩ : Offer) = o := Option.some.inj ho
    exact absurd hwant' hwant
  · rw [along_concat, along_concat, along_concat, along_concat, h.right]
    -- the release is right exactly when the answer was
    have hnew : accepted b.call log = [] := h.head_new
    have hbytes : b.bytes ≠ [] := h.bytes _ (List.mem_cons_self ..)
    have hended : Ended (log ++ [Event.offered b (sslNum b.bytes.length) queued a]) ↔ Ended log := by
      simp [Ended]
    have hiff : ReleasedRight tolerant (log ++ [Event.offered b (sslNum b.bytes.length) queued a])
        (.released b type) ↔
          AnsweredRight tolerant log (.offered b (sslNum b.bytes.length) queued a) := by
      simp only [ReleasedRight, AnsweredRight, hended, accepted_append, hnew, List.nil_append,
        List.getLast?_concat, accepted_offered]
      cases a with
      | full =>
        have htake : b.bytes.take (sslNum b.bytes.length).toNat = b.bytes ↔
            (b.bytes.length : Int) ≤ sslNum b.bytes.length := by
          have hpos := List.length_pos_iff.2 hbytes
          rw [List.take_eq_self_iff]
          omega
        simp [htake, or_comm]
      | want => exact absurd rfl hwant
      | fatal => simp [hbytes.symm, hfatal rfl]
      | zero => simp [hbytes.symm]
      | zeroReturn => simp [hbytes.symm]
    constructor
    · rintro ⟨⟨hlog, -⟩, hreleased⟩
      exact ⟨⟨hlog, hiff.1 hreleased⟩, trivial⟩
    · rintro ⟨⟨hlog, hanswered⟩, -⟩
      exact ⟨⟨hlog, trivial⟩, hiff.2 hanswered⟩
  · intro b' type' hb'
    rw [List.append_assoc] at hb' ⊢
    rcases List.mem_append.1 hb' with hb' | hb'
    · rcases h.kept b' type' hb' with ⟨b'', type'', hb'', hcall⟩ | hmem
      · exact Or.inl ⟨b'', type'', List.mem_append_left _ hb'', hcall⟩
      · rcases List.mem_cons.1 hmem with heq | hmem
        · exact Or.inl ⟨b, type, by simp, heq.symm⟩
        · exact Or.inr hmem
    · simp at hb'

end Books

/-! ## The functions -/

/-- The state between two calls: the packets `ps` wait, the books are right, an offline socket was
destroyed, and one on which `SSL_write` failed has ended. -/
structure SecureInv (tolerant : Bool) (s : Sock) (ps : List Packet) : Prop where
  secure : s.secure = true
  tidy : Tidy s.jobs ps
  books : Books tolerant s.log (view ps) s.written
  offline : s.online = false → .destroyed ∈ s.log
  fatal : ∀ o ∈ offers s.log, o.answer = .fatal → Ended s.log

theorem secureInv_new (tolerant : Bool) : SecureInv tolerant (Sock.new true) [] :=
  ⟨rfl, tidy_new true, books_new tolerant, fun h => Bool.noConfusion h, by simp [Sock.new, offers]⟩

theorem view_append (ps ps' : List Packet) : view (ps ++ ps') = view ps ++ view ps' :=
  List.filterMap_append

theorem view_cons {p : Packet} {b : Block} (h : p.data = some b) (ps : List Packet) :
    view (p :: ps) = (b.call, b.bytes) :: view ps := by
  simp [view, h]

/-- A copy has the call and the bytes of the payload. -/
theorem view_queued (b : Block) (offset : Nat) (type : DataType) :
    view [queuedPacket b offset type] = [(b.call, b.bytes)] := by
  unfold queuedPacket
  split_ifs <;> rfl

section Functions

variable {tolerant : Bool} {s : Sock} {ps : List Packet}

/-- An entry that does not matter. -/
theorem SecureInv.aside (h : SecureInv tolerant s ps) {s' : Sock} {e : Event} (he : e.aside = true)
    (hsecure : s'.secure = s.secure) (hjobs : s'.jobs = s.jobs) (hwritten : s'.written = s.written)
    (hlog : s'.log = s.log ++ [e]) (honline : s'.online = s.online ∨ e = .destroyed) :
    SecureInv tolerant s' ps := by
  refine ⟨hsecure.trans h.secure, by rw [hjobs]; exact h.tidy,
    by rw [hlog, hwritten]; exact h.books.aside he, fun hoffline => ?_, ?_⟩
  · rw [hlog]
    rcases honline with hsame | rfl
    · exact List.mem_append_left _ (h.offline (hsame ▸ hoffline))
    · exact List.mem_append_right _ (List.mem_singleton_self _)
  · rw [hlog, offers_append, offers_aside he, List.append_nil]
    exact fun o ho hfatal => (h.fatal o ho hfatal).append _

/-- Fields that are not named may change. -/
theorem SecureInv.same (h : SecureInv tolerant s ps) {s' : Sock} (hsecure : s'.secure = s.secure)
    (hjobs : s'.jobs = s.jobs) (hwritten : s'.written = s.written) (hlog : s'.log = s.log)
    (honline : s'.online = s.online) : SecureInv tolerant s' ps :=
  ⟨hsecure.trans h.secure, by rw [hjobs]; exact h.tidy, by rw [hlog, hwritten]; exact h.books,
    by rw [honline, hlog]; exact h.offline, by rw [hlog]; exact h.fatal⟩

/-- **A failure ends the socket.** -/
theorem SecureInv.fail {sys : System} (hsecure : s.secure = true) (htidy : Tidy s.jobs ps)
    (hbooks : Books tolerant s.log (view ps) s.written)
    (hoffline : s.online = false → .destroyed ∈ s.log) :
    SecureInv tolerant (shutdownForce sys s) ps := by
  obtain ⟨hs, hjobs, hwritten, honline, hlog⟩ := shutdownForce_fields sys s
  have hended : Ended (shutdownForce sys s).log := by
    rw [hlog]
    cases hs : s.online with
    | true => exact Or.inl (List.mem_append_right _ (List.mem_singleton_self _))
    | false => exact Or.inr (List.mem_append_left _ (hoffline hs))
  refine ⟨hs.trans hsecure, by rw [hjobs]; exact htidy, ?_, fun hnot => ?_, fun _ _ _ => hended⟩
  · rw [hlog, hwritten]
    split_ifs
    · exact hbooks.aside rfl
    · rwa [List.append_nil]
  · rw [hlog]
    exact List.mem_append_left _ (hoffline (honline ▸ hnot))

/-- **`ape_socket_queue_data`** of a payload that is in hand. -/
theorem SecureInv.queueData (hsecure : s.secure = true) (htidy : Tidy s.jobs ps) {b : Block}
    (hbytes : b.bytes ≠ []) (hbooks : Books tolerant s.log (view ps ++ [(b.call, b.bytes)]) s.written)
    (hoffline : s.online = false → .destroyed ∈ s.log)
    (hfatal : ∀ o ∈ offers s.log, o.answer = .fatal → Ended s.log) (type : DataType) :
    SecureInv tolerant (queueData b 0 type s) (ps ++ [queuedPacket b 0 type]) := by
  have hview : view (ps ++ [queuedPacket b 0 type]) = view ps ++ [(b.call, b.bytes)] := by
    rw [view_append, view_queued]
  have htidy' := queueData_tidy htidy type (List.length_pos_iff.2 hbytes)
  by_cases hcopy : type.queued = .copy
  · have hlog : (Ownership.queueData b 0 type s).log = s.log ++ [.copied { b with copy := true }] := by
      simp [Ownership.queueData, Sock.note, hcopy]
    refine ⟨hsecure, htidy', ?_, fun hnot => ?_, ?_⟩
    · rw [hlog, hview]
      exact hbooks.aside rfl
    · rw [hlog]
      exact List.mem_append_left _ (hoffline hnot)
    · rw [hlog, offers_append, offers_aside rfl, List.append_nil]
      exact fun o ho hf => (hfatal o ho hf).append _
  · have hlog : (Ownership.queueData b 0 type s).log = s.log := by
      simp [Ownership.queueData, Sock.note, hcopy]
    exact ⟨hsecure, htidy', by rw [hlog, hview]; exact hbooks, by rw [hlog]; exact hoffline,
      by rw [hlog]; exact hfatal⟩

/-- The offers behind an `SSL_write` that did not fail. -/
theorem fatal_of_offers {log : List Event} (h : ∀ o ∈ offers log, o.answer = .fatal → Ended log)
    {b : Block} {num : Int} {queued : Bool} {a : SslAnswer} (ha : a ≠ .fatal) (ev : List Event)
    (hev : offers ev = []) :
    ∀ o ∈ offers (log ++ [Event.offered b num queued a] ++ ev), o.answer = .fatal →
      Ended (log ++ [Event.offered b num queued a] ++ ev) := by
  intro o ho hfatal
  rw [offers_append, offers_append, hev, List.append_nil] at ho
  rcases List.mem_append.1 ho with ho | ho
  · exact ((h o ho hfatal).append _).append _
  · obtain rfl : o = ⟨b.call, b.bytes, num, a⟩ := by simpa [offers] using ho
    exact absurd hfatal ha

/-- **`APE_socket_write` on a secure socket** with nothing to wait for. -/
theorem SecureInv.writeSecure (sys : System) (hsecure : s.secure = true) (htidy : Tidy s.jobs [])
    {b : Block} (hbytes : b.bytes ≠ []) (hbooks : Books tolerant s.log [(b.call, b.bytes)] s.written)
    (hoffline : s.online = false → .destroyed ∈ s.log)
    (hfatal : ∀ o ∈ offers s.log, o.answer = .fatal → Ended s.log) (type : DataType) :
    ∃ ps, SecureInv tolerant (writeSecure sys b type s) ps := by
  unfold Ownership.writeSecure sslWrite
  simp only
  generalize (sys.ssl s.calls).clip (sslNum b.bytes.length) = a
  have hkeep : ∀ {ev : List Event}, s.online = false → .destroyed ∈ s.log ++ ev :=
    fun hnot => List.mem_append_left _ (hoffline hnot)
  -- any answer but a refusal and a failure releases the payload
  have hserve : a ≠ .want → a ≠ .fatal → SecureInv tolerant (releaseData b type.direct
      { s.note [.offered b (sslNum b.bytes.length) false a] with calls := s.calls + 1 }) [] := by
    intro hwant hnot
    refine ⟨hsecure, htidy, hbooks.serve hwant (fun hf => absurd hf hnot) _, fun hoff => ?_, ?_⟩
    · exact List.mem_append_left _ (hkeep hoff)
    · exact fatal_of_offers hfatal hnot _ rfl
  cases a with
  | full => exact ⟨[], hserve (by simp) (by simp)⟩
  | zero => exact ⟨[], hserve (by simp) (by simp)⟩
  | zeroReturn => exact ⟨[], hserve (by simp) (by simp)⟩
  | want =>
    have hstay := @Books.stay _ _ _ _ _ hbooks false .want (Or.inl rfl)
    have hnot := @fatal_of_offers s.log hfatal b (sslNum b.bytes.length) false .want (by simp) [] rfl
    rw [List.append_nil] at hnot
    let s₁ : Sock := { s.note [.offered b (sslNum b.bytes.length) false .want] with
      calls := s.calls + 1 }
    exact ⟨_, @SecureInv.queueData tolerant s₁.block [] hsecure htidy b hbytes hstay hkeep hnot type⟩
  | fatal =>
    refine ⟨[], SecureInv.fail hsecure htidy ?_ fun hoff => List.mem_append_left _ (hkeep hoff)⟩
    exact hbooks.serve (by simp) (fun _ => rfl) _

/-- **`APE_socket_write`** keeps the account of a secure socket. -/
theorem SecureInv.write (sys : System) (h : SecureInv tolerant s ps) (data : Payload)
    (type : DataType) : ∃ ps', SecureInv tolerant (apeSocketWrite sys data type s) ps' := by
  set b : Block := ⟨s.written, false, data⟩ with hb
  have hoff : s.online = false → .destroyed ∈ s.log ++ [Event.handed b type] :=
    fun hnot => List.mem_append_left _ (h.offline hnot)
  have hfatal : ∀ o ∈ offers (s.log ++ [Event.handed b type]), o.answer = .fatal →
      Ended (s.log ++ [Event.handed b type]) := by
    rw [offers_append, show offers [.handed b type] = [] from rfl, List.append_nil]
    exact fun o ho hf => (h.fatal o ho hf).append _
  unfold apeSocketWrite
  simp only [← hb]
  by_cases hrefuse : (handed b type s).online = false ∨ data.bytes = []
  · rw [if_pos hrefuse]
    have hok : Ended s.log ∨ b.bytes = [] := hrefuse.imp (fun hnot => Or.inr (h.offline hnot)) id
    refine ⟨ps, h.secure, h.tidy, h.books.refuse rfl hok type _,
      fun hnot => List.mem_append_left _ (hoff hnot), ?_⟩
    show ∀ o ∈ offers (s.log ++ [Event.handed b type] ++ [Event.released b type.direct]), _ → Ended _
    rw [offers_append, show offers [.released b type.direct] = [] from rfl, List.append_nil]
    exact fun o ho hf => (hfatal o ho hf).append _
  rw [if_neg hrefuse]
  have hbytes : b.bytes ≠ [] := fun hempty => hrefuse (Or.inr hempty)
  have hhand := h.books.hand (b := b) rfl hbytes type
  by_cases hqueued : (handed b type s).mustQueue = true
  · rw [if_pos hqueued]
    exact ⟨_, SecureInv.queueData (s := handed b type s) h.secure h.tidy hbytes hhand hoff hfatal type⟩
  · rw [if_neg hqueued, if_pos (show (handed b type s).secure = true from h.secure)]
    -- nothing waits, since the head is idle
    have hidle : s.jobs.head.active = false := by
      have hnot : ¬ (s.wouldBlock || s.jobs.head.active) = true := hqueued
      simp only [Bool.or_eq_true, not_or, Bool.not_eq_true] at hnot
      exact hnot.2
    obtain rfl := h.tidy.nothing hidle
    exact SecureInv.writeSecure sys (s := handed b type s) h.secure h.tidy hbytes hhand hoff hfatal
      type

/-! ## Working the jobs off -/

/-- What the loop over the packets of a secure socket leaves, with the packets `ps` in the queue. -/
structure SslRun (tolerant : Bool) (s s' : Sock) (outcome : Outcome) (ps : List Packet) : Prop where
  secure : s'.secure = s.secure
  jobs : s'.jobs = s.jobs
  written : s'.written = s.written
  books : Books tolerant s'.log (view ps) s'.written
  offline : s'.online = false → .destroyed ∈ s'.log
  fatal : outcome ≠ .failed → ∀ o ∈ offers s'.log, o.answer = .fatal → Ended s'.log
  done : outcome = .done → ps = []

/-- **The loop over the packets**: each is offered as a whole, and taken off unless it is refused or
`SSL_write` fails on it. -/
theorem sslLoop_run (sys : System) {fuel : Nat} {q : PoolList Packet} (hq : Lined q ps)
    (hfuel : ps.length ≤ fuel) (hbooks : Books tolerant s.log (view ps) s.written)
    (hoffline : s.online = false → .destroyed ∈ s.log)
    (hfatal : ∀ o ∈ offers s.log, o.answer = .fatal → Ended s.log) :
    ∃ ps', Lined (sslLoop sys fuel q s).2.1 ps' ∧
      SslRun tolerant s (sslLoop sys fuel q s).2.2 (sslLoop sys fuel q s).1 ps' := by
  induction fuel generalizing q s ps with
  | zero =>
    obtain rfl : ps = [] := List.length_eq_zero_iff.1 (Nat.le_zero.1 hfuel)
    exact ⟨[], hq, rfl, rfl, rfl, hbooks, hoffline, fun _ => hfatal, fun _ => rfl⟩
  | succ fuel ih =>
    cases ps with
    | nil =>
      rw [sslLoop, hq.backlog.head_nil]
      exact ⟨[], hq, rfl, rfl, rfl, hbooks, hoffline, fun _ => hfatal, fun _ => rfl⟩
    | cons p ps =>
      obtain ⟨b, hdata, hlen, -⟩ := hq.pending p (List.mem_cons_self ..)
      rw [view_cons hdata] at hbooks
      rw [sslLoop, hq.backlog.head_cons]
      simp only [hdata, hlen, sslWrite]
      generalize (sys.ssl s.calls).clip (sslNum b.bytes.length) = a
      let s₁ : Sock := { s.note [.offered b (sslNum b.bytes.length) true a] with
        calls := s.calls + 1 }
      have hkeep : ∀ {ev : List Event}, s.online = false → .destroyed ∈ s.log ++ ev :=
        fun hnot => List.mem_append_left _ (hoffline hnot)
      -- any answer but a refusal and a failure takes the packet off
      have hserve : a ≠ .want → a ≠ .fatal → ∃ ps',
          Lined (sslLoop sys fuel (pop q) (releaseData b p.type s₁)).2.1 ps' ∧
            SslRun tolerant s (sslLoop sys fuel (pop q) (releaseData b p.type s₁)).2.2
              (sslLoop sys fuel (pop q) (releaseData b p.type s₁)).1 ps' := by
        intro hwant hnot
        obtain ⟨ps', hlined, hrun⟩ := ih (s := releaseData b p.type s₁) hq.pop (by simpa using hfuel)
          (hbooks.serve hwant (fun hf => absurd hf hnot) _)
          (fun hoff => List.mem_append_left _ (hkeep hoff))
          (fatal_of_offers hfatal hnot [.released b p.type] rfl)
        exact ⟨ps', hlined, hrun.secure, hrun.jobs, hrun.written, hrun.books, hrun.offline,
          hrun.fatal, hrun.done⟩
      cases a with
      | full => exact hserve (by simp) (by simp)
      | zero => exact hserve (by simp) (by simp)
      | zeroReturn => exact hserve (by simp) (by simp)
      | want =>
        have hnot := @fatal_of_offers s.log hfatal b (sslNum b.bytes.length) true .want (by simp) []
          rfl
        rw [List.append_nil] at hnot
        refine ⟨p :: ps, hq, rfl, rfl, rfl, ?_, hkeep, fun _ => hnot, fun h => Outcome.noConfusion h⟩
        rw [view_cons hdata]
        exact hbooks.stay (Or.inl rfl)
      | fatal =>
        refine ⟨p :: ps, hq, rfl, rfl, rfl, ?_, hkeep, fun h => absurd rfl h,
          fun h => Outcome.noConfusion h⟩
        rw [view_cons hdata]
        exact hbooks.stay (Or.inr ⟨rfl, rfl⟩)

/-- A round of `ape_socket_do_jobs`. -/
theorem SecureInv.doJob (sys : System) (h : SecureInv tolerant s ps)
    (hactive : s.jobs.head.active = true) :
    ∃ ps', SecureInv tolerant (doJob sys s).2 ps' ∧ ((doJob sys s).1 = true → ps' = []) := by
  obtain ⟨hwritev, q, hqueue, hlined⟩ := h.tidy.lined hactive
  obtain ⟨ps', hq', hrun⟩ := sslLoop_run sys hlined hlined.backlog.length_le h.books h.offline h.fatal
  simp only [Ownership.doJob, hwritev, hqueue, doWritev, h.secure, if_true]
  revert hq' hrun
  generalize sslLoop sys q.nodes.length q s = r
  obtain ⟨outcome, q', s'⟩ := r
  intro hq' hrun
  have htidy : Tidy s'.jobs ps := by
    rw [hrun.jobs]
    exact h.tidy
  have htidy' : Tidy (setQueue q' s').jobs ps' :=
    setQueue_tidy htidy (by rw [hrun.jobs]; exact hactive) hq'
  have hsecure := hrun.secure.trans h.secure
  cases outcome with
  | done =>
    exact ⟨ps', ⟨hsecure, htidy', hrun.books, hrun.offline, hrun.fatal (by simp)⟩,
      fun _ => hrun.done rfl⟩
  | again =>
    exact ⟨ps', ⟨hsecure, htidy', hrun.books, hrun.offline, hrun.fatal (by simp)⟩,
      fun hd => Bool.noConfusion hd⟩
  | failed =>
    exact ⟨ps', SecureInv.fail (s := setQueue q' s') hsecure htidy' hrun.books hrun.offline,
      fun hd => Bool.noConfusion hd⟩

/-- **`ape_socket_do_jobs`** keeps the account of a secure socket. -/
theorem SecureInv.doJobs (sys : System) (h : SecureInv tolerant s ps) :
    ∃ ps', SecureInv tolerant (doJobs sys s) ps' := by
  by_cases hidle : s.jobs.head.active = false
  · refine ⟨ps, ?_⟩
    rw [Ownership.doJobs, doJobsLoop, if_pos hidle]
    exact h
  have hactive : s.jobs.head.active = true := by simpa using hidle
  obtain ⟨ps', hinv, hempty⟩ := h.doJob sys hactive
  rw [doJobs_eq sys h.tidy ⟨ps', hinv.tidy, hempty⟩, if_neg hidle]
  split_ifs with hfinished
  · obtain rfl := hempty hfinished
    exact ⟨[], hinv.secure, finishJob_tidy hinv.tidy, hinv.books, hinv.offline, hinv.fatal⟩
  · exact ⟨ps', hinv⟩

/-! ## Runs -/

/-- **One step** of a secure socket keeps its account. -/
theorem SecureInv.step (sys : System) (h : SecureInv tolerant s ps) (l : Label) :
    ∃ ps', SecureInv tolerant (step sys s l) ps' := by
  cases l with
  | write data type => exact h.write sys data type
  | clear => exact ⟨ps, h.same rfl rfl rfl rfl rfl⟩
  | doJobs =>
    simp only [Ownership.step]
    split_ifs
    · exact h.doJobs sys
    · exact ⟨ps, h⟩
  | destroy =>
    refine ⟨ps, ?_⟩
    simp only [Ownership.step, Ownership.destroy]
    split_ifs
    · exact h.same rfl rfl rfl rfl rfl
    · exact h
  | destroyed =>
    refine ⟨ps, ?_⟩
    simp only [Ownership.step, Ownership.destroyed]
    split_ifs
    · exact h
    · exact h.aside (e := .destroyed) rfl rfl rfl rfl rfl (Or.inr rfl)

/-- The account of a secure socket holds behind every run. -/
theorem secureInv_run (tolerant : Bool) (sys : System) (ls : List Label) :
    ∃ ps, SecureInv tolerant (run sys (Sock.new true) ls) ps := by
  have hrun : ∀ s ps, SecureInv tolerant s ps → ∃ ps', SecureInv tolerant (run sys s ls) ps' := by
    induction ls with
    | nil => exact fun s ps h => ⟨ps, h⟩
    | cons l ls ih =>
      intro s ps h
      obtain ⟨ps', hstep⟩ := h.step sys l
      exact ih _ ps' hstep
  exact hrun _ [] (secureInv_new tolerant)

/-- The payloads in the queue of the socket. -/
theorem mem_queuedCalls (h : SecureInv tolerant s ps) {c : Nat} (hc : c ∈ (view ps).map Prod.fst) :
    c ∈ queuedCalls s := by
  have hne : ps ≠ [] := by
    rintro rfl
    exact List.not_mem_nil hc
  have hactive : s.jobs.head.active = true := by
    cases hidle : s.jobs.head.active with
    | true => rfl
    | false => exact absurd (h.tidy.nothing hidle) hne
  obtain ⟨-, q, hqueue, hlined⟩ := h.tidy.lined hactive
  refine List.mem_flatMap.2 ⟨s.jobs.head, s.jobs.head_mem, ?_⟩
  rw [hqueue]
  simp only [hlined.backlog.waiting]
  obtain ⟨w, hw, rfl⟩ := List.mem_map.1 hc
  obtain ⟨p, hp, hdata⟩ := List.mem_filterMap.1 hw
  refine List.mem_filterMap.2 ⟨p, hp, ?_⟩
  obtain ⟨b, hb, rfl⟩ := Option.map_eq_some_iff.1 hdata
  rw [hb]
  rfl

end Functions

/-- **No payload of a secure socket is lost silently exactly when `SSL_write` gives the right
answers**: until the socket is shut down or destroyed, it takes a payload as a whole, asks for
another try, or fails; and, in the strict reading, it fails on queued payloads only. -/
theorem delivered_iff (tolerant : Bool) (sys : System) (ls : List Label) :
    Delivered tolerant (run sys (Sock.new true) ls) ↔
      Along (AnsweredRight tolerant) (run sys (Sock.new true) ls).log := by
  obtain ⟨ps, h⟩ := secureInv_run tolerant sys ls
  refine ⟨fun hdelivered => h.books.right.1 hdelivered.released, fun hright => ?_⟩
  refine ⟨h.books.right.2 hright, fun b type hb => ?_, ?_, h.books.retry, h.fatal⟩
  · exact (h.books.kept b type hb).imp_right (mem_queuedCalls h)
  · exact (List.pairwise_append.1 h.books.increasing).1

/-- A system whose `SSL_write` always answers 0. -/
def answersZero : System := ⟨fun _ => .again, fun _ => .zero, fun _ => false, 16⟩

/-- **A payload that `SSL_write` answers with 0** is released. -/
theorem delivered_fails : ¬ ∃ tolerant, Delivered tolerant
    (run answersZero (Sock.new true) [.write ⟨[1], by decide⟩ .autorelease]) := by
  rintro ⟨tolerant, h⟩
  have hright := (h.released [.handed ⟨0, false, ⟨[1], by decide⟩⟩ .autorelease,
    .offered ⟨0, false, ⟨[1], by decide⟩⟩ 1 false .zero] _ [] rfl)
  rcases hright with haccepted | hended | ⟨-, num, queued, hlast⟩
  · exact absurd haccepted (by decide)
  · exact absurd hended (by simp [Ended])
  · simp at hlast

end Ape.Ownership
