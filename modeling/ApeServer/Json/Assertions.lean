import ApeServer.Json.Spent

/-!
# The assertions of the parser

`decode_unicode_char` asserts that the buffer holds `\u` and four digits, and the code behind a comma
reads the top of the stack.  A parser that has taken all its characters is safe from both; one that has
refused a character may lack a part of `\u`, and one that has come to its end has no stack.

* `Outside`, `outside_jsonParserChar` — outside of an escape only a backslash can do harm;
* `Unbroken`, `unbroken_feed` — **up to the first character that is refused no assertion fails**.
-/

namespace Ape.Json

/-! ## The table -/

/-- A state that is not inside an escape. -/
def States.Open : States → Bool
  | .es | .u1 | .u2 | .u3 | .u4 | .d1 | .d2 => false
  | _ => true

/-- The numbers of the classes of hexadecimal digits. -/
def hexClass (n : Nat) : Bool := (14 ≤ n && n ≤ 21) || n == 28 || n == 29

/-- What a cell of the table says about escapes: they are entered with a backslash, and each of their
states is left with the character it waits for. -/
def escapeOk (s : States) (n : Nat) : Cell → Bool
  | .xx => true
  | .goto .es | .goto .d1 => false
  | .goto .d2 => s == .d1 && n == 9
  | .goto .u1 => (s == .es || s == .d2) && n == 27
  | .goto .u2 => s == .u1 && hexClass n
  | .goto .u3 => s == .u2 && hexClass n
  | .goto .u4 => s == .u3 && hexClass n
  | .goto _ => true
  | .act .uc => s == .u4 && hexClass n
  | .act .ex => s == .st && n == 9
  | .act _ => s.Open

theorem escapeOk_table (s : States) (k : Classes) :
    escapeOk s k.ctorIdx (stateTransitionTable s k) = true := by
  have hlt : k.ctorIdx < 32 := by cases k <;> decide
  have hall : ∀ n < 32, escapeOk s n ((tableRow s).getD n .xx) = true := by
    cases s <;> decide
  exact hall k.ctorIdx hlt

/-- The characters of the classes that escapes are made of. -/
theorem class_char {c : Int} (hc : ¬ c < 0) {k : Classes} (h : classOf c = some k) :
    (k.ctorIdx = 9 → c = 92) ∧ (k.ctorIdx = 27 → c = 117) ∧
      (hexClass k.ctorIdx = true → hexValue (toByte c) < 16) := by
  by_cases hlarge : 128 ≤ c
  · rw [classOf, if_pos hlarge] at h
    obtain rfl := Option.some.inj h
    exact ⟨fun h => absurd h (by decide), fun h => absurd h (by decide), fun h => absurd h (by decide)⟩
  · obtain ⟨n, rfl⟩ : ∃ n : Nat, c = n := ⟨c.toNat, by omega⟩
    have hall : ∀ n < 128, ∀ i, (classOf (n : Nat)).map Classes.ctorIdx = some i →
        (i = 9 → n = 92) ∧ (i = 27 → n = 117) ∧
          (hexClass i = true → hexValue (toByte (n : Nat)) < 16) := by
      intro n hn i hi
      have hfound : ∀ n < 128, ((classOf (n : Nat)).map Classes.ctorIdx).all (fun i =>
          (i != 9 || n == 92) && (i != 27 || n == 117) &&
            (!hexClass i || decide (hexValue (toByte (n : Nat)) < 16))) = true := by decide
      have hone := hfound n hn
      rw [hi] at hone
      simp only [Option.all_some, Bool.and_eq_true, Bool.or_eq_true, bne_iff_ne, ne_eq, beq_iff_eq,
        Bool.not_eq_true', decide_eq_true_eq] at hone
      obtain ⟨⟨hbacks, hlow⟩, hhex⟩ := hone
      exact ⟨fun h => hbacks.resolve_left (not_not.2 h), fun h => hlow.resolve_left (not_not.2 h),
        fun h => hhex.resolve_left (by simp [h])⟩
    obtain ⟨hbacks, hlow, hhex⟩ := hall n (by omega) _ (by rw [h]; rfl)
    exact ⟨fun h => by exact_mod_cast hbacks h, fun h => by exact_mod_cast hlow h, hhex⟩

/-! ## Outside of escapes -/

/-- A parser in no comment that has not come to its end. -/
structure Grounded (jc : Parser) : Prop where
  comment : jc.comment = false
  refuses : jc.allowComments = false
  before : jc.beforeCommentState = .go
  bottom : 1 ≤ jc.ends

/-- A parser outside of escapes. -/
structure Outside (jc : Parser) : Prop extends Grounded jc where
  escaped : jc.escaped = false
  state : jc.state.Open = true

/-- A call in which the process is not lost, and which leaves such a parser whatever it returns. -/
def Spares (P : Parser → Prop) (o : Outcome) : Prop := o.lost = false ∧ P o.parser

section Calls

variable {P Q : Parser → Prop} {o : Outcome} {jc : Parser}

theorem Spares.andThen {f : Parser → Outcome} (h : Spares P o) (hP : ∀ jc, P jc → Q jc)
    (hf : ∀ jc, P jc → Spares Q (f jc)) : Spares Q (o.andThen f) := by
  obtain ⟨hlost, hparser⟩ := h
  obtain ⟨hrest, hleft⟩ := hf _ hparser
  unfold Outcome.andThen
  split_ifs
  · exact ⟨by simp [hlost, hrest], hleft⟩
  · exact ⟨hlost, hP _ hparser⟩

theorem Outside.top (h : Outside jc) : ∃ mode, jc.stack.head? = some mode := by
  have hbottom := h.bottom
  unfold Parser.ends at hbottom
  cases hstack : jc.stack with
  | nil => simp [hstack] at hbottom
  | cons mode stack => exact ⟨mode, rfl⟩

/-- A parser outside of an escape may move to another buffer and type and to another open state. -/
theorem Outside.move (h : Outside jc) (parseBuffer : List UInt8) (type : JsonType) {state : States}
    (hstate : state.Open = true) : Outside { jc with parseBuffer, type, state } :=
  ⟨⟨h.comment, h.refuses, h.before, h.bottom⟩, h.escaped, hstate⟩

theorem Outside.buffer (h : Outside jc) (parseBuffer : List UInt8) :
    Outside { jc with parseBuffer } := h.move parseBuffer jc.type h.state

theorem spares_push {mode : Modes} (h : Outside jc) : Spares Outside (push mode jc) := by
  unfold push
  split_ifs
  · exact ⟨rfl, h⟩
  · refine ⟨rfl, ⟨h.comment, h.refuses, h.before, h.bottom.trans ?_⟩, h.escaped, h.state⟩
    exact (List.sublist_cons_self mode jc.stack).count_le _

theorem spares_pop {mode : Modes} (hmode : mode ≠ .done) (h : Outside jc) :
    Spares Outside (pop mode jc) := by
  unfold pop
  split_ifs with htop
  · refine ⟨rfl, ⟨h.comment, h.refuses, h.before, ?_⟩, h.escaped, h.state⟩
    -- the mode that goes is not the one at the bottom
    have hbottom := h.bottom
    unfold Parser.ends at hbottom ⊢
    cases hstack : jc.stack with
    | nil => simp [hstack] at htop
    | cons top stack =>
      rw [hstack, List.head?_cons, Option.some.injEq] at htop
      rw [hstack, List.count_cons_of_ne (htop ▸ hmode)] at hbottom
      exact hbottom
  · exact ⟨rfl, h⟩

theorem spares_emit (e : Event) (h : Outside jc) : Spares Outside (emit e jc) := ⟨rfl, h⟩

variable (libc : Libc)

theorem spares_parseParseBuffer (h : Outside jc) : Spares Outside (parseParseBuffer libc jc) := by
  unfold parseParseBuffer
  refine Spares.andThen (P := Outside) ?_ (fun _ h => h) fun jc h => ⟨rfl, h.buffer []⟩
  cases jc.scalar libc with
  | none => exact ⟨rfl, h⟩
  | some value => exact spares_emit _ h

theorem spares_stringEnd (h : Outside jc) : Spares Outside (stringEnd libc jc) := by
  have hpop : Outside jc.bufferPop := h.buffer _
  unfold stringEnd
  simp only
  split
  · refine (spares_emit _ (hpop.move _ .none rfl)).andThen (fun _ h => h) fun jc h => ?_
    exact ⟨rfl, h.buffer []⟩
  · refine (spares_parseParseBuffer libc hpop).andThen (fun _ h => h) fun jc h => ?_
    exact ⟨rfl, h.move jc.parseBuffer .none rfl⟩
  · refine (spares_parseParseBuffer libc hpop).andThen (fun _ h => h) fun jc h => ?_
    exact ⟨rfl, h.move jc.parseBuffer .none rfl⟩
  · exact ⟨rfl, hpop⟩
  · next hnone =>
    obtain ⟨mode, hmode⟩ := hpop.top
    exact absurd (hmode.symm.trans hnone) (by simp)

theorem spares_nextMember (h : Outside jc) : Spares Outside (nextMember jc) := by
  unfold nextMember
  split
  · refine (spares_pop (by decide) h).andThen (fun _ h => h) fun jc h => ?_
    refine (spares_push h).andThen (fun _ h => h) fun jc h => ?_
    exact ⟨rfl, h.move jc.parseBuffer .none rfl⟩
  · exact ⟨rfl, h.move jc.parseBuffer .none rfl⟩
  · exact ⟨rfl, h⟩
  · next hnone =>
    obtain ⟨mode, hmode⟩ := h.top
    exact absurd (hmode.symm.trans hnone) (by simp)

theorem spares_closing (kind : Kind) {mode : Modes} (hmode : mode ≠ .done) (h : Outside jc) :
    Spares Outside (closing libc kind mode jc) := by
  refine (spares_parseParseBuffer libc (h.buffer _)).andThen (fun _ h => h) fun jc h => ?_
  refine (spares_emit _ h).andThen (fun _ h => h) fun jc h => ?_
  refine (spares_pop hmode h).andThen (fun _ h => h) fun jc h => ?_
  exact ⟨rfl, h.move jc.parseBuffer .none rfl⟩

theorem spares_opening (kind : Kind) (mode : Modes) {state : States} (hstate : state.Open = true)
    (h : Outside jc) : Spares Outside (opening kind mode state jc) := by
  refine (spares_emit _ (h.buffer _)).andThen (fun _ h => h) fun jc h => ?_
  refine (spares_push h).andThen (fun _ h => h) fun jc h => ?_
  exact ⟨rfl, h.move jc.parseBuffer jc.type hstate⟩

theorem spares_closingEmpty (h : Outside jc) : Spares Outside (closingEmpty jc) := by
  refine (spares_emit _ (h.buffer _)).andThen (fun _ h => h) fun jc h => ?_
  refine (spares_pop (by decide) h).andThen (fun _ h => h) fun jc h => ?_
  exact ⟨rfl, h.move jc.parseBuffer jc.type rfl⟩

theorem spares_colon (h : Outside jc) : Spares Outside (colon jc) := by
  have hpop : Outside jc.bufferPop := h.buffer _
  refine (spares_pop (by decide) hpop).andThen (fun _ h => h) fun jc h => ?_
  refine (spares_push h).andThen (fun _ h => h) fun jc h => ?_
  exact ⟨rfl, h.move jc.parseBuffer jc.type rfl⟩

/-- **Every action** but those of escapes. -/
theorem spares_act {action : Actions} (huc : action ≠ .uc) (hex : action ≠ .ex) (h : Outside jc) :
    Spares Outside (act libc action jc) := by
  cases action with
  | uc => exact absurd rfl huc
  | ex => exact absurd rfl hex
  | cb =>
    have hno : ¬ jc.allowComments = true := by simp [h.refuses]
    exact ⟨by simp [act, commentBegin, hno, refuse], by simpa [act, commentBegin, hno, refuse] using h⟩
  | ce =>
    exact ⟨rfl, ⟨rfl, h.refuses, h.before, h.bottom⟩, h.escaped,
      (congrArg States.Open h.before).trans rfl⟩
  | m9 => exact spares_closingEmpty h
  | m8 => exact spares_closing libc _ (by decide) h
  | m7 => exact spares_closing libc _ (by decide) h
  | m6 => exact spares_opening _ _ rfl h
  | m5 => exact spares_opening _ _ rfl h
  | m4 => exact spares_stringEnd libc h
  | m3 =>
    refine (spares_parseParseBuffer libc (h.buffer _)).andThen (fun _ h => h) fun jc h => ?_
    exact spares_nextMember h
  | m2 => exact spares_colon h
  | sb => exact ⟨rfl, h.move [] .string rfl⟩
  | df => exact ⟨rfl, h.move _ .float rfl⟩
  | mx => exact ⟨rfl, h.move _ .integer rfl⟩
  | zx => exact ⟨rfl, h.move _ .integer rfl⟩
  | ix => exact ⟨rfl, h.move _ .integer rfl⟩
  | de => exact ⟨rfl, h.move _ .float rfl⟩
  | nu => exact ⟨rfl, h.move _ .null rfl⟩
  | fa => exact ⟨rfl, h.move _ .false rfl⟩
  | tr => exact ⟨rfl, h.move _ .true rfl⟩

/-- A character is put into the buffer, or not. -/
theorem addChar_outside (hescaped : jc.escaped = false) (hcomment : jc.comment = false) (c : Int)
    (k : Classes) : ∃ buffer, addChar c k jc = proceed { jc with parseBuffer := buffer } ∧
      (¬ (k = .space ∨ k = .white) → buffer = jc.parseBuffer ++ [toByte c]) := by
  rw [addChar, if_neg (by simp [hescaped]), if_neg (by simp [hcomment])]
  split_ifs with hput
  · exact ⟨_, rfl, fun _ => rfl⟩
  · exact ⟨jc.parseBuffer, rfl, fun hsolid => absurd (Or.inr hsolid) hput⟩

/-- **One character** that is no backslash. -/
theorem outside_jsonParserChar (h : Outside jc) {c : Int} (hc : c ≠ 92) :
    Spares Outside (jsonParserChar libc c jc) := by
  unfold jsonParserChar
  split_ifs with hneg
  · exact ⟨rfl, h⟩
  cases hclass : classOf c with
  | none => exact ⟨rfl, h⟩
  | some k =>
    obtain ⟨buffer, hadd, -⟩ := addChar_outside h.escaped h.comment c k
    have hadded : Outside { jc with parseBuffer := buffer } := h.buffer buffer
    have hopen := h.state
    have hcell := escapeOk_table jc.state k
    simp only [hadd]
    refine Spares.andThen (P := fun jc' => jc' = { jc with parseBuffer := buffer }) ⟨rfl, rfl⟩
      (by rintro _ rfl; exact hadded) ?_
    rintro _ rfl
    simp only
    cases htable : stateTransitionTable jc.state k with
    | xx => exact ⟨rfl, hadded⟩
    | goto state =>
      refine ⟨rfl, hadded.move buffer jc.type ?_⟩
      rw [htable] at hcell
      cases state <;> first
        | rfl
        | (cases hs : jc.state <;> simp [escapeOk, hs, States.Open] at hcell hopen)
    | act action =>
      rw [htable] at hcell
      refine spares_act libc ?_ ?_ hadded
      · rintro rfl
        cases hs : jc.state <;> simp [escapeOk, hs, States.Open] at hcell hopen
      · rintro rfl
        simp only [escapeOk, Bool.and_eq_true, beq_iff_eq] at hcell
        exact hc ((class_char hneg hclass).1 hcell.2)

/-! ## Without a refusal -/

/-- The buffer ends with `\u` and `n` digits. -/
def EndsWithUnit (n : Nat) (buffer : List UInt8) : Prop :=
  ∃ front ds, buffer = front ++ 92 :: 117 :: ds ∧ ds.length = n ∧ ∀ c ∈ ds, hexValue c < 16

/-- What the buffer ends with in the states of an escape. -/
def Escaping (buffer : List UInt8) : States → Prop
  | .es | .d2 => ∃ front, buffer = front ++ [92]
  | .u1 => EndsWithUnit 0 buffer
  | .u2 => EndsWithUnit 1 buffer
  | .u3 => EndsWithUnit 2 buffer
  | .u4 => EndsWithUnit 3 buffer
  | _ => True

/-- **A parser that has taken every character so far.** -/
structure Unbroken (jc : Parser) : Prop extends Grounded jc where
  escaped : jc.escaped = decide (jc.state = .es)
  escape : Escaping jc.parseBuffer jc.state

theorem escaping_open {state : States} (h : state.Open = true) (buffer : List UInt8) :
    Escaping buffer state := by
  cases state <;> trivial

theorem Outside.unbroken (h : Outside jc) : Unbroken jc := by
  refine ⟨h.toGrounded, h.escaped.trans (decide_eq_false ?_).symm, escaping_open h.state _⟩
  intro hes
  exact absurd (hes ▸ h.state) (by decide)

/-- One more digit behind the digits of an escape. -/
theorem EndsWithUnit.push {n : Nat} {buffer : List UInt8} (h : EndsWithUnit n buffer) {c : UInt8}
    (hc : hexValue c < 16) : EndsWithUnit (n + 1) (buffer ++ [c]) := by
  obtain ⟨front, ds, rfl, hlen, hds⟩ := h
  refine ⟨front, ds ++ [c], by simp, by simp [hlen], ?_⟩
  intro d hd
  rcases List.mem_append.1 hd with hd | hd
  · exact hds d hd
  · rw [List.mem_singleton.1 hd]
    exact hc

/-- A buffer that ends with an escape of four digits passes the assertions. -/
theorem EndsWithUnit.decodable (h : EndsWithUnit 4 jc.parseBuffer) : jc.Decodable := by
  obtain ⟨front, ds, hbuffer, hlen, hds⟩ := h
  have hdrop : jc.digits = ds := by
    have hcut : jc.parseBuffer = (front ++ [92, 117]) ++ ds := by simp [hbuffer]
    rw [Parser.digits, hcut, List.length_append, hlen, Nat.add_sub_cancel, List.drop_left]
  exact ⟨by simp [hbuffer, hlen], hdrop ▸ hds⟩

/-- What `decode_unicode_char` leaves alone behind its assertions. -/
theorem decodeDigits_keeps (jc : Parser) : (decodeDigits jc).lost = false ∧
    ∃ buffer high, (decodeDigits jc).parser =
      { jc with parseBuffer := buffer, utf16HighSurrogate := high } := by
  unfold decodeDigits
  simp only
  split_ifs <;> exact ⟨rfl, _, _, rfl⟩

/-- A character is put behind those that have been taken; behind a backslash it may be refused. -/
theorem Unbroken.addChar (h : Unbroken jc) {c : Int} (hc : ¬ c < 0) {k : Classes}
    (hclass : classOf c = some k) : (Json.addChar c k jc).ok = false ∧
        (Json.addChar c k jc).lost = false ∨
      ∃ buffer, Json.addChar c k jc = proceed { jc with escaped := false, parseBuffer := buffer } ∧
        (jc.state = .es → k.ctorIdx = 27 → EndsWithUnit 0 buffer) ∧
        (jc.state ≠ .es → 2 ≤ k.ctorIdx → buffer = jc.parseBuffer ++ [toByte c]) := by
  have hclasses := class_char hc hclass
  have hescaped := h.escaped
  by_cases hes : jc.state = .es
  · rw [decide_eq_true hes] at hescaped
    obtain ⟨front, hfront⟩ : ∃ front, jc.parseBuffer = front ++ [92] := by
      have hescape := h.escape
      rwa [hes] at hescape
    rw [Json.addChar, if_pos hescaped, addEscapedChar]
    by_cases hu : c = 117
    · rw [if_pos hu]
      refine .inr ⟨_, rfl, fun _ _ => ⟨front, [], ?_, rfl, by simp⟩, fun hne => absurd hes hne⟩
      simp [Parser.bufferPop, Parser.bufferPush, hfront]
    · rw [if_neg hu]
      cases unescape c with
      | none => exact .inl ⟨rfl, rfl⟩
      | some b =>
        exact .inr ⟨_, rfl, fun _ hk => absurd (hclasses.2.1 hk) hu, fun hne => absurd hes hne⟩
  · rw [decide_eq_false hes] at hescaped
    obtain ⟨buffer, hadd, hput⟩ := addChar_outside hescaped h.comment c k
    refine .inr ⟨buffer, ?_, fun hstate => absurd hstate hes, fun _ hk => hput ?_⟩
    · rw [hadd, ← hescaped]
    · rintro (rfl | rfl) <;> exact absurd hk (by decide)

theorem two_le_of_hexClass {n : Nat} (h : hexClass n = true) : 2 ≤ n := by
  simp only [hexClass, Bool.or_eq_true, Bool.and_eq_true, decide_eq_true_eq, beq_iff_eq] at h
  omega

/-- Where the table moves to, the buffer ends with what belongs there. -/
theorem Unbroken.goto (h : Unbroken jc) {state : States} {n : Nat} {buffer : List UInt8} {b : UInt8}
    (hcell : escapeOk jc.state n (.goto state) = true)
    (hes : jc.state = .es → n = 27 → EndsWithUnit 0 buffer)
    (hput : jc.state ≠ .es → 2 ≤ n → buffer = jc.parseBuffer ++ [b])
    (hdigit : ∀ m, EndsWithUnit m jc.parseBuffer → jc.state ≠ .es → hexClass n = true →
      EndsWithUnit (m + 1) buffer)
    (hbacks : n = 9 → b = 92) (hlow : n = 27 → b = 117) : Escaping buffer state := by
  have hescape := h.escape
  cases state <;> simp only [escapeOk, Bool.and_eq_true, Bool.or_eq_true, beq_iff_eq,
    Bool.false_eq_true] at hcell <;> try trivial
  case u1 =>
    obtain ⟨hstate | hstate, rfl⟩ := hcell
    · exact hes hstate rfl
    · rw [hstate] at hescape
      obtain ⟨front, hfront⟩ := hescape
      refine ⟨front, [], ?_, rfl, by simp⟩
      rw [hput (by simp [hstate]) (by decide), hfront, hlow rfl]
      simp
  case u2 =>
    rw [hcell.1] at hescape
    exact hdigit 0 hescape (by simp [hcell.1]) hcell.2
  case u3 =>
    rw [hcell.1] at hescape
    exact hdigit 1 hescape (by simp [hcell.1]) hcell.2
  case u4 =>
    rw [hcell.1] at hescape
    exact hdigit 2 hescape (by simp [hcell.1]) hcell.2
  case d2 =>
    obtain ⟨hstate, rfl⟩ := hcell
    exact ⟨jc.parseBuffer, by rw [hput (by simp [hstate]) (by decide), hbacks rfl]⟩

/-- The last digit: four of them are decoded. -/
theorem Unbroken.decoded (h : Unbroken jc) {buffer : List UInt8} (hunit : EndsWithUnit 4 buffer) :
    (act libc .uc { jc with escaped := false, parseBuffer := buffer }).lost = false ∧
      ((act libc .uc { jc with escaped := false, parseBuffer := buffer }).ok = true →
        Unbroken (act libc .uc { jc with escaped := false, parseBuffer := buffer }).parser) := by
  have hdecodable : Parser.Decodable { jc with escaped := false, parseBuffer := buffer } :=
    hunit.decodable
  obtain ⟨hlost, buffer', high, hparser⟩ :=
    decodeDigits_keeps { jc with escaped := false, parseBuffer := buffer }
  rw [act, decodeUnicodeChar, if_pos hdecodable]
  unfold Outcome.andThen
  split_ifs with hok
  · refine ⟨by simp [hlost, proceed], fun _ => ?_⟩
    simp only [hparser, proceed]
    refine ⟨⟨h.comment, h.refuses, h.before, h.bottom⟩, ?_, ?_⟩
    · simp only
      split_ifs <;> rfl
    · simp only
      split_ifs <;> trivial
  · exact ⟨hlost, fun hyes => absurd hyes hok⟩

/-- **One character**: unless it is refused the parser is unbroken, and no assertion fails. -/
theorem Unbroken.jsonParserChar (h : Unbroken jc) (c : Int) :
    (Json.jsonParserChar libc c jc).lost = false ∧
      ((Json.jsonParserChar libc c jc).ok = true → Unbroken (Json.jsonParserChar libc c jc).parser) := by
  have hrefused : ∀ {o : Outcome}, o.ok = false → o.lost = false →
      o.lost = false ∧ (o.ok = true → Unbroken o.parser) :=
    fun hok hlost => ⟨hlost, fun hyes => absurd (hok.symm.trans hyes) Bool.false_ne_true⟩
  unfold Json.jsonParserChar
  split_ifs with hneg
  · exact hrefused rfl rfl
  cases hclass : classOf c with
  | none => exact hrefused rfl rfl
  | some k =>
    obtain ⟨hbacks, hlow, hhex⟩ := class_char hneg hclass
    rcases h.addChar hneg hclass with ⟨hno, hlost⟩ | ⟨buffer, hadd, hes, hput⟩
    · simp only
      rw [Outcome.andThen, if_neg (by simp [hno])]
      exact hrefused hno hlost
    have hcell := escapeOk_table jc.state k
    simp only [hadd, proceed, Outcome.andThen, if_true, List.nil_append, Bool.false_or]
    -- a digit of an escape is put behind those that are there
    have hdigit : ∀ n, EndsWithUnit n jc.parseBuffer → jc.state ≠ .es →
        hexClass k.ctorIdx = true → EndsWithUnit (n + 1) buffer := by
      intro n hunit hne hclass
      rw [hput hne (two_le_of_hexClass hclass)]
      exact hunit.push (hhex hclass)
    cases htable : stateTransitionTable jc.state k with
    | xx => exact hrefused rfl rfl
    | goto state =>
      rw [htable] at hcell
      refine ⟨rfl, fun _ => ⟨⟨h.comment, h.refuses, h.before, h.bottom⟩, ?_, ?_⟩⟩
      · refine (decide_eq_false ?_).symm
        rintro rfl
        exact absurd hcell Bool.false_ne_true
      · exact h.goto hcell hes hput hdigit (fun hk => congrArg toByte (hbacks hk))
          (fun hk => congrArg toByte (hlow hk))
    | act action =>
      rw [htable] at hcell
      by_cases huc : action = .uc
      · subst huc
        simp only [escapeOk, Bool.and_eq_true, beq_iff_eq] at hcell
        have hunit : EndsWithUnit 3 jc.parseBuffer := by
          have hescape := h.escape
          rwa [hcell.1] at hescape
        exact h.decoded libc (hdigit 3 hunit (by simp [hcell.1]) hcell.2)
      by_cases hex : action = .ex
      · subst hex
        simp only [escapeOk, Bool.and_eq_true, beq_iff_eq] at hcell
        refine ⟨rfl, fun _ => ⟨⟨h.comment, h.refuses, h.before, h.bottom⟩, rfl, jc.parseBuffer, ?_⟩⟩
        have hbyte : toByte c = 92 := congrArg toByte (hbacks hcell.2)
        show buffer = jc.parseBuffer ++ [92]
        rw [hput (by simp [hcell.1]) (by omega), hbyte]
      · have hopen : jc.state.Open = true := by
          cases action <;> first | exact hcell | contradiction
        have houtside : Outside { jc with escaped := false, parseBuffer := buffer } :=
          ⟨⟨h.comment, h.refuses, h.before, h.bottom⟩, rfl, hopen⟩
        obtain ⟨hlost, hparser⟩ := spares_act libc huc hex houtside
        exact ⟨hlost, fun _ => hparser.unbroken⟩

/-- **Up to the first character that is refused** no assertion fails. -/
theorem unbroken_feed (h : Unbroken jc) (cs : List Int) :
    (feed libc cs jc).lost = false ∧
      ((feed libc cs jc).ok = true → Unbroken (feed libc cs jc).parser) := by
  induction cs generalizing jc with
  | nil => exact ⟨rfl, fun _ => h⟩
  | cons c cs ih =>
    obtain ⟨hlost, hnext⟩ := h.jsonParserChar libc c
    rw [feed]
    unfold Outcome.andThen
    split_ifs with hok
    · obtain ⟨hrest, hlast⟩ := ih (hnext hok)
      exact ⟨by simp [hlost, hrest], hlast⟩
    · exact ⟨hlost, fun hyes => absurd hyes hok⟩

/-- A new parser is outside of an escape. -/
theorem outside_newParser (callback : Bool) (depth : Int) :
    Outside (newParser callback depth false) :=
  ⟨⟨rfl, rfl, rfl, Nat.le_refl 1⟩, rfl, rfl⟩

theorem lost_jsonParserDone (jc : Parser) : (jsonParserDone jc).lost = false := by
  unfold jsonParserDone pop
  split_ifs <;> rfl

/-- **No assertion fails in a text that is read up to the first character that is refused.** -/
theorem lost_text (callback : Bool) (depth : Int) (cs : List Int) :
    ((feed libc cs (newParser callback depth false)).andThen jsonParserDone).lost = false := by
  obtain ⟨hlost, -⟩ := unbroken_feed libc (outside_newParser callback depth).unbroken cs
  unfold Outcome.andThen
  split_ifs
  · simp [hlost, lost_jsonParserDone]
  · exact hlost

end Calls

end Ape.Json
