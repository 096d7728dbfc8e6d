import ApeServer.Json.Escape

/-!
# Keys that are misread

`json_to_string` copies a key between two quotes.  A quote in it ends it; behind a backslash the
parser has fewer bytes than it has read, until the string ends, and if the key ends with a backslash
the string does not end there but behind the colon.

* `InKey`, `Shrunk` — the parser in a key, and behind an escape;
* `keyChar`, `keyChars` — one character of a key, and any number of them;
* `key_misread` — **a key is read as it was printed only if it needs no escapes**.
-/

namespace Ape.Json

/-- The length of the buffer, behind `n` characters of a string of which one began an escape. -/
def InString (n length : Nat) : States → Prop
  | .st => length < n
  | .es | .d1 | .d2 => length ≤ n ∧ 1 ≤ n
  | .u1 => length ≤ n ∧ 2 ≤ n
  | .u2 => length ≤ n ∧ 3 ≤ n
  | .u3 => length ≤ n ∧ 4 ≤ n
  | .u4 => length ≤ n ∧ 5 ≤ n
  | _ => False

/-- The parser in a key. -/
structure InKey (jc : Parser) : Prop where
  type : jc.type = .string
  comment : jc.comment = false
  callback : jc.callback = true
  mode : jc.stack.head? = some .key
  escaped : jc.escaped = decide (jc.state = .es)

/-- The parser in a key, behind `n` characters of it of which one began an escape. -/
structure Shrunk (n : Nat) (jc : Parser) : Prop extends InKey jc where
  length : InString n jc.parseBuffer.length jc.state

section Keys

variable {libc : Libc} {stack : List Modes} {n : Nat} {jc : Parser} {c : UInt8} {k : Classes}

/-- A character for one of fewer bytes. -/
theorem decodeUnicodeChar_cases (jc : Parser) : (decodeUnicodeChar jc).ok = false ∨
    ∃ b h, decodeUnicodeChar jc =
        ⟨true, { jc with parseBuffer := b, utf16HighSurrogate := h }, [], false⟩ ∧
      b.length ≤ jc.parseBuffer.length - 6 + 4 := by
  have hwrite : ∀ uc trailBytes, trailBytes ≤ 3 → ∀ pre : List UInt8,
      pre.length ≤ jc.parseBuffer.length - 6 →
        (pre ++ encodeUtf8 uc trailBytes).length ≤ jc.parseBuffer.length - 6 + 4 := by
    intro uc trailBytes htrail pre hpre
    rw [List.length_append, encodeUtf8, List.length_cons, List.length_map, List.length_reverse,
      List.length_range]
    omega
  have hpre : (jc.parseBuffer.take (jc.parseBuffer.length - 6)).length ≤
      jc.parseBuffer.length - 6 := List.length_take_le ..
  by_cases hdecodable : ¬ jc.Decodable
  · rw [decodeUnicodeChar, if_neg hdecodable]
    exact .inl rfl
  rw [decodeUnicodeChar, if_pos (not_not.1 hdecodable), decodeDigits]
  simp only
  generalize jc.digits.foldl (fun uc c => uc <<< 4 ||| hexValue c) 0 = uc
  split
  · split
    · exact .inr ⟨_, 0, rfl, hwrite _ 3 (by decide) _ hpre⟩
    · exact .inl rfl
  · split
    · exact .inr ⟨_, jc.utf16HighSurrogate, rfl, hwrite _ 0 (by decide) _ hpre⟩
    · split
      · exact .inr ⟨_, jc.utf16HighSurrogate, rfl, hwrite _ 1 (by decide) _ hpre⟩
      · split
        · exact .inr ⟨_, uc, rfl, by omega⟩
        · split
          · exact .inl rfl
          · exact .inr ⟨_, jc.utf16HighSurrogate, rfl, hwrite _ 2 (by decide) _ hpre⟩

/-- What a character of a string does. -/
def KeyChar (libc : Libc) (n : Nat) (jc : Parser) (c : UInt8) : Prop :=
  (jsonParserChar libc c.toNat jc).ok = false ∨
    (∃ jc', jsonParserChar libc c.toNat jc = ⟨true, jc', [], false⟩ ∧ Shrunk (n + 1) jc' ∧
      (jc'.state = .es → c = 92)) ∨
    ∃ jc', jsonParserChar libc c.toNat jc = ⟨true, jc', [.key jc.parseBuffer], false⟩ ∧
      jc.parseBuffer.length < n

/-- A character outside an escape goes into the buffer, and the table says what follows. -/
theorem char_outside (libc : Libc) (h : InKey jc) (hes : jc.state ≠ .es) (hk : classOf c.toNat = some k) :
    jsonParserChar libc c.toNat jc = match stateTransitionTable jc.state k with
      | .goto state => proceed { jc.bufferPush (toByte c.toNat) with state }
      | .act action => act libc action (jc.bufferPush (toByte c.toNat))
      | .xx => refuse (jc.bufferPush (toByte c.toNat)) := by
  have hadd : addChar c.toNat k jc = ⟨true, jc.bufferPush (toByte c.toNat), [], false⟩ := by
    unfold addChar
    rw [h.escaped, decide_eq_false hes, if_neg (by simp), h.comment, if_neg (by simp),
      if_pos (.inl (by simp [h.type]))]
    rfl
  unfold jsonParserChar
  rw [if_neg (by omega), hk]
  show (addChar c.toNat k jc).andThen _ = _
  rw [hadd]
  exact (Outcome.andThen_mk ..).trans rfl

/-- A character outside an escape that moves to a state. -/
theorem keyChar_goto {state : States} (h : Shrunk n jc) (hes : jc.state ≠ .es)
    (hk : classOf c.toNat = some k) (ht : stateTransitionTable jc.state k = .goto state)
    (hstate : state ≠ .es) (hlen : InString (n + 1) (jc.parseBuffer.length + 1) state) :
    KeyChar libc n jc c := by
  have hchar := char_outside libc h.toInKey hes hk
  rw [ht] at hchar
  refine .inr (.inl ⟨_, hchar, ?_, fun h => absurd h hstate⟩)
  refine ⟨⟨h.type, h.comment, h.callback, h.mode, ?_⟩, ?_⟩
  · show jc.escaped = decide (state = .es)
    rw [h.escaped, decide_eq_false hes, decide_eq_false hstate]
  · show InString (n + 1) (jc.parseBuffer ++ [toByte c.toNat]).length state
    rwa [List.length_append]

/-- Two letters that are no others. -/
theorem classOf_escape (hc : c.toNat < 128) :
    (classOf c.toNat = some .backs ↔ c = 92) ∧ (classOf c.toNat = some .quote ↔ c = 34) ∧
      (classOf c.toNat = some .lowU ↔ c = 117) := by
  revert c
  apply CString.forall_ascii
  decide

/-- The quote behind a key ends the key and tells it as it was read. -/
theorem stringEnd_key (libc : Libc) (h : InKey jc) (c : UInt8) :
    stringEnd libc (jc.bufferPush c) =
      ⟨true, { jc with type := .none, state := .co, parseBuffer := [] }, [.key jc.parseBuffer], false⟩ := by
  have hpop : (jc.bufferPush c).bufferPop = jc := by
    simp [Parser.bufferPush, Parser.bufferPop]
  unfold stringEnd
  simp only [hpop, h.mode, emit, h.callback, if_true, Outcome.andThen_mk]
  rfl

/-- A character of a string that is in no escape. -/
theorem keyChar_st (h : Shrunk n jc) (hst : jc.state = .st) (hc : c.toNat < 128)
    (hk : classOf c.toNat = some k) : KeyChar libc n jc c := by
  have hrow : ∀ k, stateTransitionTable .st k = .goto .st ∨
      k = .quote ∧ stateTransitionTable .st k = .act .m4 ∨
      k = .backs ∧ stateTransitionTable .st k = .act .ex ∨ stateTransitionTable .st k = .xx := by
    intro k
    cases k <;> decide
  have hchar := char_outside libc h.toInKey (by simp [hst]) hk
  have hlen : jc.parseBuffer.length < n := by
    have hlen := h.length
    rwa [hst] at hlen
  rw [hst] at hchar
  rcases hrow k with ht | ⟨-, ht⟩ | ⟨rfl, ht⟩ | ht
  · have hnext : InString (n + 1) (jc.parseBuffer.length + 1) .st := Nat.succ_lt_succ hlen
    exact keyChar_goto h (by simp [hst]) hk (hst ▸ ht) (by simp) hnext
  · -- the quote behind the key
    rw [ht] at hchar
    exact .inr (.inr ⟨_, hchar.trans (stringEnd_key libc h.toInKey _), hlen⟩)
  · rw [ht] at hchar
    refine .inr (.inl ⟨_, hchar, ?_, fun _ => (classOf_escape hc).1.1 hk⟩)
    refine ⟨⟨h.type, h.comment, h.callback, h.mode, rfl⟩, ?_, Nat.le_add_left 1 n⟩
    show (jc.parseBuffer ++ [toByte c.toNat]).length ≤ n + 1
    rw [List.length_append]
    exact Nat.succ_le_succ hlen.le
  · rw [ht] at hchar
    exact .inl (by rw [hchar]; rfl)

/-- A character behind a backslash in a key is unescaped before its cell is looked up. -/
theorem char_behind (libc : Libc) (h : InKey jc) (hes : jc.state = .es)
    (hk : classOf c.toNat = some k) :
    jsonParserChar libc c.toNat jc = (addEscapedChar c.toNat jc).andThen fun jc =>
      match stateTransitionTable jc.state k with
      | .goto state => proceed { jc with state }
      | .act action => act libc action jc
      | .xx => refuse jc := by
  have hescaped : jc.escaped = true := by rw [h.escaped, hes]; rfl
  unfold jsonParserChar addChar
  rw [if_neg (by omega), hk, hescaped]
  rfl

/-- What an escape other than of a character's number leaves. -/
theorem addEscapedChar_eq (hu : c ≠ 117) (jc : Parser) :
    (unescape c.toNat = none ∧ (addEscapedChar c.toNat jc).ok = false) ∨
      ∃ x, unescape c.toNat = some x ∧ addEscapedChar c.toNat jc =
        ⟨true, { jc with escaped := false, parseBuffer := jc.parseBuffer.dropLast ++ [x] }, [], false⟩ := by
  have hcode : (c.toNat : Int) ≠ 117 := by
    intro hcode
    refine hu (UInt8.toNat_inj.1 ?_)
    exact_mod_cast hcode
  unfold addEscapedChar
  cases unescape c.toNat with
  | none =>
    rw [if_neg hcode]
    exact .inl ⟨rfl, rfl⟩
  | some x =>
    rw [if_neg hcode]
    exact .inr ⟨x, rfl, rfl⟩

/-- The character behind a backslash. -/
theorem keyChar_es (h : Shrunk n jc) (hes : jc.state = .es) (hc : c.toNat < 128)
    (hk : classOf c.toNat = some k) : KeyChar libc n jc c := by
  have hrow : ∀ k, stateTransitionTable .es k = .goto .st ∧ k ≠ .lowU ∨
      k = .lowU ∧ stateTransitionTable .es k = .goto .u1 ∨ stateTransitionTable .es k = .xx := by
    intro k
    cases k <;> decide
  have hlen : jc.parseBuffer.length ≤ n ∧ 1 ≤ n := by
    have hlen := h.length
    rwa [hes] at hlen
  have hlast : jc.parseBuffer.dropLast.length + 1 ≤ n := by
    rw [List.length_dropLast]
    omega
  have hchar := char_behind libc h.toInKey hes hk
  by_cases hu : c = 117
  · obtain rfl : k = .lowU := Option.some.inj (hk.symm.trans ((classOf_escape hc).2.2.2 hu))
    have hadd : addEscapedChar c.toNat jc = ⟨true, { jc with
        escaped := false, parseBuffer := jc.parseBuffer.dropLast ++ [92] ++ [117] }, [], false⟩ := by
      rw [hu]
      rfl
    have ht : stateTransitionTable .es .lowU = .goto .u1 := rfl
    rw [hadd, Outcome.andThen_mk] at hchar
    simp only [hes, ht] at hchar
    refine .inr (.inl ⟨_, hchar, ?_, fun h => absurd (show States.u1 = .es from h) (by decide)⟩)
    refine ⟨⟨h.type, h.comment, h.callback, h.mode, rfl⟩, ?_, Nat.succ_le_succ hlen.2⟩
    show (jc.parseBuffer.dropLast ++ [92] ++ [117]).length ≤ n + 1
    rw [List.length_append, List.length_append]
    exact Nat.succ_le_succ hlast
  · rcases addEscapedChar_eq hu jc with ⟨-, hadd⟩ | ⟨x, -, hadd⟩
    · refine .inl ?_
      rw [hchar, Outcome.andThen, hadd]
      exact hadd
    · rw [hadd, Outcome.andThen_mk] at hchar
      rcases hrow k with ⟨ht, -⟩ | ⟨rfl, -⟩ | ht
      · simp only [hes, ht] at hchar
        refine .inr (.inl ⟨_, hchar, ?_, fun h => absurd (show States.st = .es from h) (by decide)⟩)
        refine ⟨⟨h.type, h.comment, h.callback, h.mode, rfl⟩, ?_⟩
        show (jc.parseBuffer.dropLast ++ [x]).length < n + 1
        rw [List.length_append]
        exact Nat.lt_succ_of_le hlast
      · exact absurd ((classOf_escape hc).2.2.1 hk) hu
      · simp only [hes, ht] at hchar
        exact .inl (by rw [hchar]; rfl)

/-- A character in a state with one way on. -/
theorem keyChar_next {state : States} (h : Shrunk n jc) (hes : jc.state ≠ .es)
    (hrow : ∀ k, stateTransitionTable jc.state k = .goto state ∨ stateTransitionTable jc.state k = .xx)
    (hstate : state ≠ .es) (hlen : InString (n + 1) (jc.parseBuffer.length + 1) state)
    (hk : classOf c.toNat = some k) : KeyChar libc n jc c := by
  rcases hrow k with ht | ht
  · exact keyChar_goto h hes hk ht hstate hlen
  · refine .inl ?_
    rw [char_outside libc h.toInKey hes hk, ht]
    rfl

/-- The last digit of an escape in a key is refused, or leaves the buffer shorter than its characters. -/
theorem keyChar_u4 (h : Shrunk n jc) (hu4 : jc.state = .u4) (hk : classOf c.toNat = some k) :
    KeyChar libc n jc c := by
  have hrow : ∀ k, stateTransitionTable .u4 k = .act .uc ∨ stateTransitionTable .u4 k = .xx := by
    intro k
    cases k <;> decide
  have hlen : jc.parseBuffer.length ≤ n ∧ 5 ≤ n := by
    have hlen := h.length
    rwa [hu4] at hlen
  have hchar := char_outside libc h.toInKey (by simp [hu4]) hk
  rw [hu4] at hchar
  rcases hrow k with ht | ht
  · rw [ht] at hchar
    have hpushed : (jc.bufferPush (toByte c.toNat)).parseBuffer.length =
        jc.parseBuffer.length + 1 := List.length_append
    rcases decodeUnicodeChar_cases (jc.bufferPush (toByte c.toNat)) with hdecode | ⟨b, h', hdecode, hb⟩
    · refine .inl ?_
      rw [hchar]
      show ((decodeUnicodeChar _).andThen _).ok = false
      rw [Outcome.andThen, hdecode]
      exact hdecode
    · rw [hpushed] at hb
      have hact : act libc .uc (jc.bufferPush (toByte c.toNat)) =
          ⟨true, { jc.bufferPush (toByte c.toNat) with
            parseBuffer := b, utf16HighSurrogate := h', state := if h' ≠ 0 then .d1 else .st }, [], false⟩ := by
        unfold act
        simp only [hdecode, Outcome.andThen_mk]
        rfl
      have hnext : (if h' ≠ 0 then States.d1 else .st) ≠ .es := by
        split <;> decide
      refine .inr (.inl ⟨_, hchar.trans hact, ?_, fun h => absurd h hnext⟩)
      refine ⟨⟨h.type, h.comment, h.callback, h.mode, ?_⟩, ?_⟩
      · show jc.escaped = decide ((if h' ≠ 0 then States.d1 else .st) = .es)
        rw [h.escaped, hu4, decide_eq_false hnext]
        rfl
      · show InString (n + 1) b.length (if h' ≠ 0 then .d1 else .st)
        split
        · exact ⟨by omega, Nat.le_add_left 1 n⟩
        · show b.length < n + 1
          omega
  · rw [ht] at hchar
    exact .inl (by rw [hchar]; rfl)

/-- **A character of a key** behind an escape: the parser stays in the string with a shorter buffer,
or tells of a shorter key. -/
theorem keyChar (libc : Libc) (h : Shrunk n jc) (hc : c.toNat < 128) : KeyChar libc n jc c := by
  cases hk : classOf c.toNat with
  | none =>
    refine .inl ?_
    unfold jsonParserChar
    rw [if_neg (by omega), hk]
    rfl
  | some k =>
    have hlen := h.length
    cases hstate : jc.state with
    | st => exact keyChar_st h hstate hc hk
    | es => exact keyChar_es h hstate hc hk
    | u4 => exact keyChar_u4 h hstate hk
    | u1 =>
      rw [hstate] at hlen
      have hnext : InString (n + 1) (jc.parseBuffer.length + 1) .u2 :=
        ⟨Nat.succ_le_succ hlen.1, Nat.succ_le_succ hlen.2⟩
      refine keyChar_next h (by simp [hstate]) (fun k => ?_) (by simp) hnext hk
      rw [hstate]
      cases k <;> decide
    | u2 =>
      rw [hstate] at hlen
      have hnext : InString (n + 1) (jc.parseBuffer.length + 1) .u3 :=
        ⟨Nat.succ_le_succ hlen.1, Nat.succ_le_succ hlen.2⟩
      refine keyChar_next h (by simp [hstate]) (fun k => ?_) (by simp) hnext hk
      rw [hstate]
      cases k <;> decide
    | u3 =>
      rw [hstate] at hlen
      have hnext : InString (n + 1) (jc.parseBuffer.length + 1) .u4 :=
        ⟨Nat.succ_le_succ hlen.1, Nat.succ_le_succ hlen.2⟩
      refine keyChar_next h (by simp [hstate]) (fun k => ?_) (by simp) hnext hk
      rw [hstate]
      cases k <;> decide
    | d1 =>
      rw [hstate] at hlen
      have hnext : InString (n + 1) (jc.parseBuffer.length + 1) .d2 :=
        ⟨Nat.succ_le_succ hlen.1, Nat.le_add_left 1 n⟩
      refine keyChar_next h (by simp [hstate]) (fun k => ?_) (by simp) hnext hk
      rw [hstate]
      cases k <;> decide
    | d2 =>
      rw [hstate] at hlen
      have hnext : InString (n + 1) (jc.parseBuffer.length + 1) .u1 :=
        ⟨Nat.succ_le_succ hlen.1, Nat.succ_le_succ hlen.2⟩
      refine keyChar_next h (by simp [hstate]) (fun k => ?_) (by simp) hnext hk
      rw [hstate]
      cases k <;> decide
    | _ =>
      rw [hstate] at hlen
      exact hlen.elim

/-- **The characters of a key** behind an escape. -/
theorem keyChars (libc : Libc) (cs : List UInt8) (hcs : ∀ c ∈ cs, c.toNat < 128) {b : UInt8}
    (h : Shrunk n jc) (hb : jc.state = .es → b = 92) :
    (feed libc (codes cs) jc).ok = false ∨
      (∃ jc', feed libc (codes cs) jc = ⟨true, jc', [], false⟩ ∧ Shrunk (n + cs.length) jc' ∧
        (jc'.state = .es → (b :: cs).getLast? = some 92)) ∨
      ∃ key es, (feed libc (codes cs) jc).events = .key key :: es ∧ key.length < n + cs.length := by
  induction cs generalizing n jc b with
  | nil => exact .inr (.inl ⟨jc, rfl, h, fun hes => congrArg some (hb hes)⟩)
  | cons c cs ih =>
    have hfeed : feed libc (codes (c :: cs)) jc =
        (jsonParserChar libc c.toNat jc).andThen (feed libc (codes cs)) := rfl
    rw [hfeed, List.length_cons]
    rcases keyChar libc h (hcs c (List.mem_cons_self ..)) with hno | ⟨jc', hchar, hnext, hc⟩ |
      ⟨jc', hchar, hlen⟩
    · refine .inl ?_
      rw [Outcome.andThen, hno]
      exact hno
    · rw [hchar, Outcome.andThen_mk, List.nil_append, Nat.add_comm cs.length, ← Nat.add_assoc]
      exact ih (fun x hx => hcs x (List.mem_cons_of_mem _ hx)) hnext hc
    · refine .inr (.inr ⟨jc.parseBuffer, (feed libc (codes cs) jc').events, ?_,
        Nat.lt_add_right _ hlen⟩)
      rw [hchar]
      rfl

/-- The quote behind the text of a key, outside an escape. -/
theorem quote_outside (libc : Libc) (h : Shrunk n jc) (hes : jc.state ≠ .es) :
    (jsonParserChar libc 34 jc).ok = false ∨
      ∃ jc', jsonParserChar libc 34 jc = ⟨true, jc', [.key jc.parseBuffer], false⟩ ∧
        jc.parseBuffer.length < n := by
  have hchar : jsonParserChar libc 34 jc = _ := char_outside (c := 34) libc h.toInKey hes rfl
  have hlen := h.length
  cases hstate : jc.state with
  | st =>
    rw [hstate] at hchar hlen
    exact .inr ⟨_, hchar.trans (stringEnd_key libc h.toInKey _), hlen⟩
  | es => exact absurd hstate hes
  | u1 | u2 | u3 | u4 | d1 | d2 =>
    rw [hstate] at hchar
    exact .inl (by rw [hchar]; rfl)
  | _ =>
    rw [hstate] at hlen
    exact hlen.elim

/-- A key that ends with a backslash goes on behind its text, and ends with a colon. -/
theorem quote_behind (libc : Libc) (h : InKey jc) (hes : jc.state = .es) :
    ∃ jc', feed libc (codes [34, 58, 34]) jc =
      ⟨true, jc', [.key (jc.parseBuffer.dropLast ++ [34] ++ [58])], false⟩ := by
  have hfirst : jsonParserChar libc 34 jc = ⟨true, { jc with
      escaped := false, parseBuffer := jc.parseBuffer.dropLast ++ [34], state := .st }, [], false⟩ := by
    have hadd : addEscapedChar 34 jc = ⟨true, { jc with
        escaped := false, parseBuffer := jc.parseBuffer.dropLast ++ [34] }, [], false⟩ := rfl
    refine (char_behind (c := 34) libc h hes rfl).trans ?_
    show (addEscapedChar 34 jc).andThen _ = _
    rw [hadd, Outcome.andThen_mk]
    simp only [hes]
    rfl
  have hinKey : ∀ b, InKey { jc with escaped := false, parseBuffer := b, state := .st } :=
    fun b => ⟨h.type, h.comment, h.callback, h.mode, rfl⟩
  have hcolon : ∀ b, jsonParserChar libc 58 { jc with
      escaped := false, parseBuffer := b, state := .st } =
        ⟨true, { jc with escaped := false, parseBuffer := b ++ [58], state := .st }, [], false⟩ :=
    fun b => char_outside (c := 58) libc (hinKey b) (by simp) rfl
  have hquote : ∀ b, ∃ jc', jsonParserChar libc 34 { jc with
      escaped := false, parseBuffer := b, state := .st } = ⟨true, jc', [.key b], false⟩ :=
    fun b => ⟨_, (char_outside (c := 34) libc (hinKey b) (by simp) rfl).trans
      (stringEnd_key libc (hinKey b) _)⟩
  obtain ⟨jc', hend⟩ := hquote (jc.parseBuffer.dropLast ++ [34] ++ [58])
  refine ⟨jc', ?_⟩
  show (jsonParserChar libc 34 jc).andThen (fun jc => (jsonParserChar libc 58 jc).andThen fun jc =>
    (jsonParserChar libc 34 jc).andThen proceed) = _
  rw [hfirst, Outcome.andThen_mk, hcolon, Outcome.andThen_mk, hend, Outcome.andThen_mk]
  rfl

/-- A key with a backslash: what is told of is shorter, or does not end as the key does. -/
theorem backslash_misread {before behind rest : List UInt8} (hbehind : ∀ c ∈ behind, c.toNat < 128)
    {es : List Event} {jc' : Parser} : ¬ Reads libc (reading .st .string (.key :: stack) before)
      (92 :: (behind ++ (34 :: 58 :: 34 :: rest))) jc' (.key (before ++ 92 :: behind) :: es) := by
  intro hreads
  have hbackslash : Reads libc (reading .st .string (.key :: stack) before) [92]
      { reading .es .string (.key :: stack) (before ++ [92]) with escaped := true } [] :=
    char_act (by decide) rfl (.inl (by simp)) rfl rfl
  obtain ⟨es', hes, hreads⟩ := Reads.behind (a := [92]) hreads hbackslash
  rw [List.nil_append] at hes
  subst hes
  have hshrunk : Shrunk (before.length + 1)
      { reading .es .string (.key :: stack) (before ++ [92]) with escaped := true } := by
    refine ⟨⟨rfl, rfl, rfl, rfl, rfl⟩, ?_, Nat.le_add_left 1 _⟩
    exact (List.length_append).le
  have hlength : (before ++ 92 :: behind).length = before.length + 1 + behind.length := by
    rw [List.length_append, List.length_cons]
    omega
  obtain ⟨jc₂, es₁, es₂, hinside, hreads, hes⟩ := Reads.split (a := behind) hreads
  rcases keyChars libc behind hbehind (b := 92) hshrunk (fun _ => rfl) with hno |
    ⟨jc₃, hrun, hshrunk₂, hlast⟩ | ⟨key, es', hevents, hlt⟩
  · rw [hinside.2] at hno
    exact Bool.noConfusion hno
  · obtain ⟨-, rfl, rfl, -⟩ := Outcome.mk.inj (hinside.2.symm.trans hrun)
    rw [List.nil_append] at hes
    subst hes
    by_cases hstate : jc₂.state = .es
    · -- the quote is escaped
      obtain ⟨jc₄, hquote⟩ := quote_behind libc hshrunk₂.toInKey hstate
      have hquote : Reads libc jc₂ [34, 58, 34] jc₄ _ := ⟨by decide, hquote⟩
      obtain ⟨es', hes, -⟩ := Reads.behind (a := [34, 58, 34]) hreads hquote
      have hkey := Event.key.inj (List.cons.inj hes).1
      have hends := congrArg List.getLast? hkey
      rw [List.getLast?_append, hlast hstate, List.getLast?_concat, Option.some_or] at hends
      exact absurd (Option.some.inj hends) (by decide)
    · obtain ⟨jc₄, es₃, es₄, hquote, -, hes⟩ := Reads.split (a := [34]) hreads
      have hquote : (jsonParserChar libc 34 jc₂).andThen proceed = ⟨true, jc₄, es₃, false⟩ := hquote.2
      rcases quote_outside libc hshrunk₂ hstate with hno | ⟨jc₅, hchar, hlt⟩
      · rw [Outcome.andThen, hno] at hquote
        rw [show jsonParserChar libc 34 jc₂ = _ from hquote] at hno
        exact Bool.noConfusion hno
      · rw [hchar, Outcome.andThen_mk] at hquote
        obtain ⟨-, -, rfl, -⟩ := Outcome.mk.inj hquote
        have hkey := congrArg List.length (Event.key.inj (List.cons.inj hes).1)
        omega
  · rw [hinside.2] at hevents
    obtain rfl : es₁ = .key key :: es' := hevents
    have hkey := congrArg List.length (Event.key.inj (List.cons.inj hes).1)
    omega

/-- **A key with a byte that is not plain is not read as it was printed.** -/
theorem key_misread {key rest : List UInt8} (hkey : ¬ ∀ c ∈ key, PlainByte c) (es : List Event)
    (jc' : Parser) : ¬ Reads libc (reading .st .string (.key :: stack) [])
      (key ++ (34 :: 58 :: 34 :: rest)) jc' (.key key :: es) := by
  intro hreads
  obtain ⟨c, hfind⟩ : ∃ c, (key.find? fun c => !decide (PlainByte c)) = some c := by
    rw [← Option.isSome_iff_exists, List.find?_isSome]
    push Not at hkey
    simpa using hkey
  obtain ⟨hc, before, behind, rfl, hbefore⟩ := List.find?_eq_some_iff_append.1 hfind
  have hplain : ∀ x ∈ before, PlainByte x := fun x hx => by simpa using hbefore x hx
  have hbyte : c ≠ 0 ∧ c.toNat < 128 := hreads.1 c (by simp)
  have hcs : ∀ x ∈ behind, x.toNat < 128 := fun x hx => (hreads.1 x (by simp [hx])).2
  rw [List.append_assoc] at hreads
  obtain ⟨es', hes, hreads⟩ := hreads.behind (reads_plain hplain [])
  rw [List.nil_append] at hes hreads
  subst hes
  rw [List.cons_append] at hreads
  by_cases hlow : c.toNat < 32
  · exact ((rejects_control hbyte.1 hlow before).append _).not_reads hreads
  · have hcases : c = 34 ∨ c = 92 := by
      by_contra hne
      obtain ⟨hquote, hbackslash⟩ := not_or.1 hne
      have hplain : PlainByte c := ⟨Nat.le_of_not_lt hlow, hbyte.2, hquote, hbackslash⟩
      simp [hplain] at hc
    rcases hcases with rfl | rfl
    · -- the key ends here
      have hquote : Reads libc (reading .st .string (.key :: stack) before) [34] _ [.key before] :=
        reads_key_end libc stack before
      obtain ⟨es', hes, -⟩ := Reads.behind (a := [34]) hreads hquote
      have hsame := congrArg List.length (Event.key.inj (List.cons.inj hes).1)
      simp at hsame
    · exact backslash_misread hcs hreads

end Keys

end Ape.Json
