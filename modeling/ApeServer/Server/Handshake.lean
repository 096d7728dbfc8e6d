import ApeServer.Server.Callback

/-!
# The WebSocket handshake

The parser keeps the blank behind the colon in the value of a header, and `ape_server_http_ready`
skips the first byte of the value of `Sec-WebSocket-Key`, whatever it is and if there is one or not.

* `Upgrades` — a request that is to be answered by a handshake;
* `Handshake` — what is promised of the answer;
* `sameKey_iff` — the values of which just the blanks are skipped;
* `handshake_iff` — **the promise is kept exactly when at most 32 bytes are left and they have the
  digest of the key**;
* `handshake_plain_iff` — **collisions apart, these are the values of one blank and a short key**.
-/

namespace Ape.Server

open Codec (ascii base64 base64EncodeB base64EncodeB_eq base64_injective)
open Http (HttpParser feed)
open Table (ApeArray)

/-! ## What is promised -/

/-- The key: the value without the optional blanks in front. -/
def stripped (value : List UInt8) : List UInt8 := value.dropWhile fun b => b = 32

/-- A request for an upgrade to WebSocket with this value of `Sec-WebSocket-Key`. -/
structure Upgrades (c : Client) (value : List UInt8) : Prop where
  headers : ∃ list, c.list = some list ∧
    list.lookup (ascii "upgrade") = some (ascii " websocket") ∧
    list.lookup (ascii "Sec-WebSocket-Key") = some value
  unharmed : c.crashed = false

/-- The answer is the handshake for the key, or nothing is sent; and no `NULL` is used. -/
structure Handshake (sha1 : List UInt8 → List UInt8) (value : List UInt8) (c c' : Client) : Prop where
  answer : c'.sent = c.sent ∨
    c'.sent = c.sent ++ acceptHead ++ base64 (sha1 (stripped value ++ wsGuid)) ++ acceptTail
  unharmed : c'.crashed = false

/-! ## The key -/

/-- **Just the blanks are skipped** of a value that begins with exactly one and has no more than 32
bytes behind it. -/
theorem sameKey_iff {value : List UInt8} (hlength : value.length ≤ 2 ^ 32) :
    keyLen value ≤ 32 ∧ keyOf value = stripped value ↔
      ∃ k, value = 32 :: k ∧ k.length ≤ 32 ∧ k.head? ≠ some 32 := by
  cases value with
  | nil => simp [keyLen]
  | cons a k =>
    have hlen : keyLen (a :: k) = k.length := by
      simp only [keyLen, List.length_cons, reduceCtorEq, if_false] at hlength ⊢
      omega
    have hkey : keyOf (a :: k) = k := by
      rw [keyOf, hlen]
      exact List.take_length
    rw [hlen, hkey]
    constructor
    · rintro ⟨hle, hsame⟩
      have hblank : a = 32 := by
        by_contra hne
        rw [stripped, List.dropWhile_cons_of_neg (by simpa using hne)] at hsame
        exact absurd (congrArg List.length hsame) (by simp)
      subst hblank
      refine ⟨k, rfl, hle, fun hhead => ?_⟩
      obtain ⟨k', rfl⟩ : ∃ k', k = 32 :: k' := by
        cases k with
        | nil => simp at hhead
        | cons b k' => exact ⟨k', by rw [Option.some.inj hhead]⟩
      have hshort : (stripped (32 :: 32 :: k')).length ≤ k'.length := by
        simp only [stripped, decide_true, List.dropWhile_cons_of_pos]
        exact (List.dropWhile_suffix _).length_le
      rw [← hsame] at hshort
      simp at hshort
    · rintro ⟨k', heq, hle, hhead⟩
      obtain ⟨rfl, rfl⟩ := List.cons.inj heq
      refine ⟨hle, ?_⟩
      cases k with
      | nil => rfl
      | cons b k =>
        have hne : b ≠ 32 := by simpa using hhead
        simp [stripped, hne]

/-! ## The answer -/

section Answer

variable (sha1 : List UInt8 → List UInt8) {c : Client} {value : List UInt8}

/-- The answer to such a request; what is read of a protocol in front of it changes nothing. -/
theorem apeServerHttpReady_upgrades (h : Upgrades c value) (p : HttpParser) :
    ∃ c', (apeServerHttpReady sha1 (p, c)).2 = answerUpgrade sha1 value c' ∧ c'.sent = c.sent ∧
      c'.crashed = false := by
  obtain ⟨list, hlist, hupgrade, hkey⟩ := h.headers
  refine ⟨readProtocol list { c with transport := .ws }, ?_, ?_, ?_⟩
  · simp only [apeServerHttpReady, hlist, if_pos hupgrade, hkey]
  · rw [readProtocol_eq]
  · rw [readProtocol_eq]
    exact h.unharmed

/-- A key that is refused: `NULL` is used as a string. -/
theorem handshake_refused (h : Upgrades c value) (p : HttpParser) (hlen : 32 < keyLen value) :
    ¬ Handshake sha1 value c (apeServerHttpReady sha1 (p, c)).2 := by
  obtain ⟨c', hanswer, -, -⟩ := apeServerHttpReady_upgrades sha1 h p
  have hnull : apeWsComputeKey sha1 value = none := if_pos hlen
  intro hright
  have hcrashed := hright.unharmed
  simp [hanswer, answerUpgrade, hnull] at hcrashed

/-- A key that is taken: the answer has the digest of what is left behind the first byte. -/
theorem handshake_taken (h : Upgrades c value) (p : HttpParser) (hlen : keyLen value ≤ 32) :
    Handshake sha1 value c (apeServerHttpReady sha1 (p, c)).2 ↔
      sha1 (keyOf value ++ wsGuid) = sha1 (stripped value ++ wsGuid) := by
  obtain ⟨c', hanswer, hbefore, hfine⟩ := apeServerHttpReady_upgrades sha1 h p
  rw [hanswer]
  have hkey : apeWsComputeKey sha1 value = some (base64 (sha1 (keyOf value ++ wsGuid))) := by
    rw [apeWsComputeKey, if_neg (Nat.not_lt.2 hlen), base64EncodeB_eq]
  have hsent : (answerUpgrade sha1 value c').sent =
      c.sent ++ acceptHead ++ base64 (sha1 (keyOf value ++ wsGuid)) ++ acceptTail := by
    simp only [answerUpgrade, hkey, Client.send, hbefore]
  have hunharmed : (answerUpgrade sha1 value c').crashed = false := by
    simp only [answerUpgrade, hkey]
    exact hfine
  constructor
  · intro hright
    refine base64_injective ?_
    rcases hright.answer with hnothing | hanswered
    · -- a handshake was sent
      rw [hsent] at hnothing
      have hlength := congrArg List.length hnothing
      have hpos : 0 < acceptTail.length := by decide
      simp only [List.length_append] at hlength
      omega
    · rw [hsent] at hanswered
      exact List.append_cancel_left (List.append_cancel_right hanswered)
  · intro hsame
    exact ⟨Or.inr (by rw [hsent, hsame]), hunharmed⟩

/-- **The handshake is right exactly when** what is left of the value behind its first byte has at
most 32 bytes, counted in an `unsigned int`, and the digest of the key. -/
theorem handshake_iff (h : Upgrades c value) (p : HttpParser) :
    Handshake sha1 value c (apeServerHttpReady sha1 (p, c)).2 ↔
      keyLen value ≤ 32 ∧ sha1 (keyOf value ++ wsGuid) = sha1 (stripped value ++ wsGuid) := by
  by_cases hlen : 32 < keyLen value
  · exact iff_of_false (handshake_refused sha1 h p hlen) fun hcond =>
      absurd hcond.1 (Nat.not_le.2 hlen)
  · rw [handshake_taken sha1 h p (Nat.not_lt.1 hlen), and_iff_right (Nat.not_lt.1 hlen)]

/-- **Which values are answered right**, when the digest tells the two keys apart: those of one blank
and at most 32 bytes that do not begin with one. -/
theorem handshake_plain_iff (h : Upgrades c value) (p : HttpParser) (hlength : value.length ≤ 2 ^ 32)
    (hdigest : sha1 (keyOf value ++ wsGuid) = sha1 (stripped value ++ wsGuid) →
      keyOf value = stripped value) :
    Handshake sha1 value c (apeServerHttpReady sha1 (p, c)).2 ↔
      ∃ k, value = 32 :: k ∧ k.length ≤ 32 ∧ k.head? ≠ some 32 := by
  rw [← sameKey_iff hlength]
  by_cases hlen : 32 < keyLen value
  · exact iff_of_false (handshake_refused sha1 h p hlen) fun hcond =>
      absurd hcond.1 (Nat.not_le.2 hlen)
  · rw [handshake_taken sha1 h p (Nat.not_lt.1 hlen), and_iff_right (Nat.not_lt.1 hlen)]
    exact ⟨hdigest, fun hsame => by rw [hsame]⟩

end Answer

/-- A request with the value `" dGhlIHNhbXBsZSBub25jZQ=="`. -/
def sampleRequest : Client :=
  { Client.new with list := some ((ApeArray.new 16).addAll [(ascii "Upgrade", ascii " websocket"),
      (ascii "Sec-WebSocket-Key", ascii " dGhlIHNhbXBsZSBub25jZQ==")]) }

/-- The digest of its key with the GUID. -/
def sampleDigest : List UInt8 := [0xb3, 0x7a, 0x4f, 0x2c, 0xc0, 0x62, 0x4f, 0x16, 0x90, 0xf6, 0x46,
  0x06, 0xcf, 0x38, 0x59, 0x45, 0xb2, 0xbe, 0xc4, 0xea]

/-- The sample request is answered with the handshake of its key. -/
theorem handshake_iff_sample :
    Handshake (fun _ => sampleDigest) (ascii " dGhlIHNhbXBsZSBub25jZQ==") sampleRequest
      (apeServerHttpReady (fun _ => sampleDigest) (.reset, sampleRequest)).2 := by
  have hupgrades : Upgrades sampleRequest (ascii " dGhlIHNhbXBsZSBub25jZQ==") :=
    ⟨⟨_, rfl, by decide, by decide⟩, rfl⟩
  exact (handshake_iff (fun _ => sampleDigest) hupgrades .reset).2 ⟨by decide, rfl⟩

/-- The client when the last byte of a request calls `ape_server_http_ready`. -/
def atReady (sha1 : List UInt8 → List UInt8) (libc : Json.Libc) (bs : List UInt8) : Client :=
  onReady (feed (apeHttpCallback sha1 libc) bs.dropLast (.reset, .new)).2.2

/-- A request whose key is empty. -/
def emptyKey : List UInt8 :=
  ascii "GET / HTTP/1.1\r\nUpgrade: websocket\r\nSec-WebSocket-Key:\r\n\r\n"

/-- **An empty key**: `NULL` is used as a string. -/
theorem handshake_fails : ¬ ∀ sha1 libc value, Upgrades (atReady sha1 libc emptyKey) value →
    Handshake sha1 value (atReady sha1 libc emptyKey)
      (feed (apeHttpCallback sha1 libc) emptyKey (.reset, .new)).2.2 := by
  intro h
  have hheaders : (atReady (fun _ => []) ⟨fun _ => 0, 46⟩ emptyKey).list.map (fun list =>
      (list.lookup (ascii "upgrade"), list.lookup (ascii "Sec-WebSocket-Key"))) =
        some (some (ascii " websocket"), some []) := by decide
  obtain ⟨list, hlist, hlookups⟩ := Option.map_eq_some_iff.1 hheaders
  obtain ⟨hupgrade, hkey⟩ := Prod.mk.inj hlookups
  have hright := h (fun _ => []) ⟨fun _ => 0, 46⟩ [] ⟨⟨list, hlist, hupgrade, hkey⟩, by decide⟩
  exact absurd hright.unharmed (by decide)

end Ape.Server
