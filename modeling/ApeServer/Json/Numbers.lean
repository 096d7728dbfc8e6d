import ApeServer.Json.Tokens

/-!
# Numbers and literals

The parser finds the end of a number, or of a literal, only when the next token begins, and tells it
then.

* `finishes_stop` — **what is at hand is told at the next token**;
* `NumberText.finishes`, `number_of_finishes` — **a number**;
* `Literal.finishes`, `Literal.of_finishes` — `null`, `true` and `false`;
* `ScalarText.finishes`, `scalar_of_finishes` — **a scalar** in the place of a value.
-/

namespace Ape.Json

section Numbers

variable {libc : Libc} {state : States} {type : JsonType} {kind : Kind} {stack : List Modes}
  {buffer : List UInt8} {c : UInt8} {t ws r : List UInt8} {es : List Event}

/-! ## The end of a value -/

/-- The next token, behind a value. -/
def Stop (c : UInt8) : Prop := c = 44 ∨ c = 93 ∨ c = 125

instance (c : UInt8) : Decidable (Stop c) := inferInstanceAs (Decidable (_ ∨ _))

/-- A character that is refused, be it as the beginning of a comment. -/
def Refused (state : States) (c : UInt8) : Prop :=
  cellAt state c = .xx ∨ cellAt state c = .act .cb

instance (state : States) (c : UInt8) : Decidable (Refused state c) :=
  inferInstanceAs (Decidable (_ ∨ _))

theorem Refused.not_finishes (h : Refused state c) :
    ¬ Finishes libc (reading state type stack buffer) (c :: t) es := by
  rcases h with h | h
  · exact not_finishes_xx rfl rfl h
  · exact not_finishes_cb h

/-- The states in which a number or a literal may end. -/
def Last (state : States) : Prop :=
  state = .ok ∨ state = .ze ∨ state = .it ∨ state = .fr ∨ state = .e3 ∨ state = .fx

/-- In each of them a blank or another token is taken as it is behind a value. -/
theorem Last.cells (h : Last state) : (∀ c, IsBlank c → cellAt state c = .goto .ok) ∧
    cellAt state 44 = .act .m3 ∧ cellAt state 93 = .act .m7 ∧ cellAt state 125 = .act .m8 := by
  refine ⟨?_, ?_⟩
  · rintro c (rfl | rfl | rfl | rfl) <;> rcases h with rfl | rfl | rfl | rfl | rfl | rfl <;> rfl
  · rcases h with rfl | rfl | rfl | rfl | rfl | rfl <;> decide

/-- The blanks behind a number are kept in its buffer and change nothing else. -/
theorem finishes_trailing (h : Last state) (htype : type ≠ .none) (hws : Blank ws) :
    ∃ state', Last state' ∧ ∀ t es, Finishes libc (reading state type stack buffer) (ws ++ t) es ↔
      Finishes libc (reading state' type stack (buffer ++ ws)) t es := by
  induction ws generalizing state buffer with
  | nil =>
    refine ⟨state, h, fun t es => ?_⟩
    rw [List.append_nil]
    exact Iff.rfl
  | cons c ws ih =>
    have hc := h.cells.1 c (hws c List.mem_cons_self)
    obtain ⟨state', hlast, hrest⟩ := @ih .ok (buffer ++ [c]) (.inl rfl)
      fun x hx => hws x (List.mem_cons_of_mem c hx)
    refine ⟨state', hlast, fun t es => ?_⟩
    rw [List.cons_append, finishes_goto hc, kept_typed htype, hrest, List.append_assoc]
    rfl

/-- A token behind a value: the value is told first. -/
theorem finishes_token (h : Last state) (hc : Stop c) (hlen : stack.length ≤ 16) :
    Finishes libc (reading state type stack buffer) (c :: r) es ↔
      ∃ es', es = told libc type buffer ++ es' ∧
        Finishes libc (reading .ok .none stack []) (c :: r) es' := by
  have hcloses : ∀ kind : Kind,
      (cellAt state kind.closes = .act (if kind = .object then .m8 else .m7)) ∧
      (cellAt .ok kind.closes = .act (if kind = .object then .m8 else .m7)) := by
    intro kind
    cases kind with
    | object => exact ⟨h.cells.2.2.2, by decide⟩
    | array => exact ⟨h.cells.2.2.1, by decide⟩
  have hbracket : ∀ kind : Kind, c = kind.closes →
      (Finishes libc (reading state type stack buffer) (c :: r) es ↔
        ∃ es', es = told libc type buffer ++ es' ∧
          Finishes libc (reading .ok .none stack []) (c :: r) es') := by
    rintro kind rfl
    rw [finishes_closes (hcloses kind).1]
    simp only [finishes_closes (hcloses kind).2]
    constructor
    · rintro ⟨stack', es', hstack, rfl, hrest⟩
      exact ⟨_, rfl, stack', es', hstack, rfl, hrest⟩
    · rintro ⟨_, rfl, stack', es', hstack, rfl, hrest⟩
      exact ⟨stack', es', hstack, rfl, hrest⟩
  rcases hc with rfl | rfl | rfl
  · have hok : cellAt .ok 44 = .act .m3 := by decide
    rw [finishes_comma h.cells.2.1 hlen]
    simp only [finishes_comma hok hlen]
    constructor
    · rintro ⟨kind, stack', es', hstack, rfl, hrest⟩
      exact ⟨_, rfl, kind, stack', es', hstack, rfl, hrest⟩
    · rintro ⟨_, rfl, kind, stack', es', hstack, hes, hrest⟩
      exact ⟨kind, stack', es', hstack, congrArg _ hes, hrest⟩
  · exact hbracket .array rfl
  · exact hbracket .object rfl

/-- **What is at hand is told at the next token**, with the blanks in front of it in the buffer. -/
theorem finishes_stop (h : Last state) (htype : type ≠ .none) (hws : Blank ws) (hc : Stop c)
    (hlen : stack.length ≤ 16) :
    Finishes libc (reading state type stack buffer) (ws ++ c :: r) es ↔
      ∃ es', es = told libc type (buffer ++ ws) ++ es' ∧
        Finishes libc (reading .ok .none stack []) (c :: r) es' := by
  obtain ⟨state', hlast, hblank⟩ :=
    @finishes_trailing libc state type stack buffer ws h htype hws
  rw [hblank, finishes_token hlast hc hlen]

/-- Blanks and another token have to follow. -/
theorem stop_of_finishes
    (h : Finishes libc (reading .ok type (kind.mode :: stack) buffer) t es) :
    ∃ ws c r, t = ws ++ c :: r ∧ Blank ws ∧ Stop c := by
  have hrow : ∀ c : UInt8, Refused .ok c ∨ IsBlank c ∨ Stop c :=
    CString.forall_byte (by decide) (by decide)
  induction t generalizing buffer with
  | nil =>
    obtain ⟨-, hhead, -⟩ := finishes_nil.1 h
    cases kind <;> cases hhead
  | cons c t ih =>
    rcases hrow c with hrefused | hblank | hstop
    · exact absurd h hrefused.not_finishes
    · have hcell : cellAt .ok c = .goto .ok := cellAt_blank (.inr (.inl rfl)) hblank
      obtain ⟨ws, d, r, rfl, hws, hd⟩ := ih ((finishes_goto hcell).1 h)
      refine ⟨c :: ws, d, r, rfl, ?_, hd⟩
      intro x hx
      rcases List.mem_cons.1 hx with rfl | hx
      · exact hblank
      · exact hws x hx
    · exact ⟨[], c, t, rfl, by simp [Blank], hstop⟩

/-! ## Digits -/

/-- The states in which further digits are taken. -/
def Going (state : States) : Prop := state = .it ∨ state = .fr ∨ state = .e3

/-- Further digits of a number are kept in its buffer. -/
theorem finishes_digits {ds : List UInt8} (h : Going state) (htype : type ≠ .none)
    (hds : Digits ds) : Finishes libc (reading state type stack buffer) (ds ++ t) es ↔
      Finishes libc (reading state type stack (buffer ++ ds)) t es := by
  have hall : ∀ c : UInt8, isDigit c = true → cellAt .it c = .goto .it ∧ cellAt .fr c = .goto .fr ∧
      cellAt .e3 c = .goto .e3 := CString.forall_byte (by decide) (by decide)
  induction ds generalizing buffer with
  | nil =>
    rw [List.append_nil]
    exact Iff.rfl
  | cons c ds ih =>
    have hc := hall c (hds c List.mem_cons_self)
    have hcell : cellAt state c = .goto state := by
      rcases h with rfl | rfl | rfl
      · exact hc.1
      · exact hc.2.1
      · exact hc.2.2
    have hrest := @ih (buffer ++ [c]) fun x hx => hds x (List.mem_cons_of_mem c hx)
    rw [List.append_assoc] at hrest
    rw [List.cons_append, finishes_goto hcell, kept_typed htype]
    exact hrest

/-- Every text begins with as many digits as there are. -/
theorem digits_span (t : List UInt8) : ∃ ds r, t = ds ++ r ∧ Digits ds ∧
    ∀ c r', r = c :: r' → ¬ isDigit c = true := by
  refine ⟨t.takeWhile isDigit, t.dropWhile isDigit, List.takeWhile_append_dropWhile.symm,
    fun c hc => List.mem_takeWhile_imp hc, fun c r' hr => ?_⟩
  have hhead := List.head?_dropWhile_not isDigit t
  rw [hr] at hhead
  simpa using hhead

/-- Behind the digits comes what else the state allows. -/
theorem digits_of_finishes (h : Going state) (htype : type ≠ .none)
    (hrest : Finishes libc (reading state type stack buffer) t es) :
    ∃ ds c r, t = ds ++ c :: r ∧ Digits ds ∧ ¬ isDigit c = true ∧
      Finishes libc (reading state type stack (buffer ++ ds)) (c :: r) es := by
  obtain ⟨ds, r, rfl, hds, hhead⟩ := digits_span t
  rw [finishes_digits h htype hds] at hrest
  cases r with
  | nil =>
    have hend := (finishes_nil.1 hrest).1
    have hsame : (reading state type stack (buffer ++ ds)).state = state := rfl
    rw [hsame] at hend
    rcases h with rfl | rfl | rfl <;> rcases hend with hend | hend <;> cases hend
  | cons c r => exact ⟨ds, c, r, rfl, hds, hhead c r rfl, hrest⟩

/-- One digit that has to follow. -/
theorem finishes_sole {c : UInt8} (h : state = .e1 ∨ state = .e2) (htype : type ≠ .none)
    (hc : isDigit c = true) : Finishes libc (reading state type stack buffer) (c :: t) es ↔
      Finishes libc (reading .e3 type stack (buffer ++ [c])) t es := by
  have hall : ∀ c : UInt8, isDigit c = true → cellAt .e1 c = .goto .e3 ∧ cellAt .e2 c = .goto .e3 :=
    CString.forall_byte (by decide) (by decide)
  have hcell : cellAt state c = .goto .e3 := by
    rcases h with rfl | rfl
    · exact (hall c hc).1
    · exact (hall c hc).2
  rw [finishes_goto hcell, kept_typed htype]

/-! ## Exponents and points -/

/-- The states in front of an exponent, each with its type. -/
def Mantissa (state : States) (type : JsonType) : Prop :=
  state = .it ∧ type = .integer ∨ state = .fr ∧ type = .float

/-- An `e` behind a mantissa begins an exponent. -/
theorem finishes_letter {e : UInt8} (h : Mantissa state type) (he : e = 101 ∨ e = 69) :
    Finishes libc (reading state type stack buffer) (e :: t) es ↔
      Finishes libc (reading .e1 .float stack (buffer ++ [e])) t es := by
  rcases h with ⟨rfl, rfl⟩ | ⟨rfl, rfl⟩
  · have hcell : cellAt .it e = .act .de := by rcases he with rfl | rfl <;> decide
    rw [finishes_act hcell, kept_typed (by simp)]
    exact Outcome.leads_proceed
  · have hcell : cellAt .fr e = .goto .e1 := by rcases he with rfl | rfl <;> decide
    rw [finishes_goto hcell, kept_typed (by simp)]

/-- **An exponent** makes a number of it that is a float. -/
theorem Exponent.finishes {e : List UInt8} (he : Exponent e) (h : Mantissa state type) :
    Finishes libc (reading state type stack buffer) (e ++ t) es ↔
      Finishes libc (reading .e3 .float stack (buffer ++ e)) t es := by
  obtain ⟨l, sign, d, ds, rfl, hl, hsign, hd, hds⟩ := he
  have hdigits : ∀ b : List UInt8, Finishes libc (reading .e3 .float stack (b ++ [d])) (ds ++ t) es ↔
      Finishes libc (reading .e3 .float stack (b ++ d :: ds)) t es := by
    intro b
    rw [finishes_digits (.inr (.inr rfl)) (by simp) hds, List.append_assoc]
    exact Iff.rfl
  rw [List.cons_append, finishes_letter h hl, List.append_assoc, List.cons_append]
  rcases hsign with rfl | hsign
  · rw [List.nil_append, finishes_sole (.inl rfl) (by simp) hd, hdigits, List.append_assoc]
    exact Iff.rfl
  · obtain ⟨s, rfl, hcell⟩ : ∃ s, sign = [s] ∧ cellAt .e1 s = .goto .e2 := by
      rcases hsign with rfl | rfl
      · exact ⟨43, rfl, by decide⟩
      · exact ⟨45, rfl, by decide⟩
    rw [List.singleton_append, finishes_goto hcell, kept_typed (by simp),
      finishes_sole (.inr rfl) (by simp) hd, hdigits, List.append_assoc, List.append_assoc]
    exact Iff.rfl

/-- What follows the letter is the rest of an exponent. -/
theorem exponent_of_finishes {e : UInt8} (h : Mantissa state type) (he : e = 101 ∨ e = 69)
    (hrest : Finishes libc (reading state type (kind.mode :: stack) buffer) (e :: t) es) :
    ∃ x r, e :: t = x ++ r ∧ Exponent x ∧ ∃ ws c r', r = ws ++ c :: r' ∧ Blank ws ∧ Stop c := by
  have hfirst : ∀ c : UInt8, Refused .e1 c ∨ c = 43 ∨ c = 45 ∨ isDigit c = true :=
    CString.forall_byte (by decide) (by decide)
  have hsecond : ∀ c : UInt8, Refused .e2 c ∨ isDigit c = true :=
    CString.forall_byte (by decide) (by decide)
  have hlast : ∀ c : UInt8, Refused .e3 c ∨ isDigit c = true ∨ IsBlank c ∨ Stop c :=
    CString.forall_byte (by decide) (by decide)
  -- the digits from the second one on, and what follows them
  have hbehind : ∀ (b t : List UInt8), Finishes libc (reading .e3 .float (kind.mode :: stack) b) t es →
      ∃ ds r, t = ds ++ r ∧ Digits ds ∧ ∃ ws c r', r = ws ++ c :: r' ∧ Blank ws ∧ Stop c := by
    intro b t h
    obtain ⟨ds, c, r, rfl, hds, hc, h⟩ := digits_of_finishes (.inr (.inr rfl)) (by simp) h
    rcases hlast c with hrefused | hdigit | hblank | hstop
    · exact absurd h hrefused.not_finishes
    · exact absurd hdigit hc
    · have hcell : cellAt .e3 c = .goto .ok := (Last.cells (.inr (.inr (.inr (.inr (.inl rfl)))))).1 c hblank
      obtain ⟨ws, d, r', rfl, hws, hd⟩ := stop_of_finishes ((finishes_goto hcell).1 h)
      exact ⟨ds, _, rfl, hds, c :: ws, d, r', rfl, by simpa [Blank, hblank] using hws, hd⟩
    · exact ⟨ds, _, rfl, hds, [], c, r, rfl, by simp [Blank], hstop⟩
  rw [finishes_letter h he] at hrest
  cases t with
  | nil => rcases (finishes_nil.1 hrest).1 with hend | hend <;> cases hend
  | cons s t =>
    by_cases hdigit : isDigit s = true
    · obtain ⟨ds, r, rfl, hds, hr⟩ := hbehind _ _ ((finishes_sole (.inl rfl) (by simp) hdigit).1 hrest)
      exact ⟨e :: ([] ++ s :: ds), r, rfl, ⟨e, [], s, ds, rfl, he, .inl rfl, hdigit, hds⟩, hr⟩
    · obtain ⟨hsign, hcell⟩ : (s = 43 ∨ s = 45) ∧ cellAt .e1 s = .goto .e2 := by
        rcases hfirst s with hrefused | rfl | rfl | hdigit'
        · exact absurd hrest hrefused.not_finishes
        · exact ⟨.inl rfl, by decide⟩
        · exact ⟨.inr rfl, by decide⟩
        · exact absurd hdigit' hdigit
      rw [finishes_goto hcell] at hrest
      cases t with
      | nil => rcases (finishes_nil.1 hrest).1 with hend | hend <;> cases hend
      | cons d t =>
        rcases hsecond d with hrefused | hd
        · exact absurd hrest hrefused.not_finishes
        · obtain ⟨ds, r, rfl, hds, hr⟩ := hbehind _ _ ((finishes_sole (.inr rfl) (by simp) hd).1 hrest)
          have hsigns : [s] = [] ∨ [s] = [43] ∨ [s] = [45] := by
            rcases hsign with rfl | rfl
            · exact .inr (.inl rfl)
            · exact .inr (.inr rfl)
          exact ⟨e :: ([s] ++ d :: ds), r, rfl, ⟨e, [s], d, ds, rfl, he, hsigns, hd, hds⟩, hr⟩

/-- Behind the point digits may follow, or not. -/
theorem finishes_fx (hlen : stack.length ≤ 16) :
    Finishes libc (reading .fx .float stack buffer) t es ↔
      Finishes libc (reading .fr .float stack buffer) t es := by
  have hcells : ∀ c : UInt8, (∃ s ∈ [States.ok, .fr, .e1], cellAt .fx c = .goto s ∧
      cellAt .fr c = .goto s) ∨ Stop c ∨ Refused .fx c ∧ Refused .fr c :=
    CString.forall_byte (by decide) (by decide)
  cases t with
  | nil =>
    rw [finishes_nil, finishes_nil]
    exact iff_of_false (fun h => by rcases h.1 with hend | hend <;> cases hend)
      fun h => by rcases h.1 with hend | hend <;> cases hend
  | cons c t =>
    rcases hcells c with ⟨s, -, hx, hr⟩ | hstop | ⟨hx, hr⟩
    · rw [finishes_goto hx, finishes_goto hr]
    · rw [finishes_token (.inr (.inr (.inr (.inr (.inr rfl))))) hstop hlen,
        finishes_token (.inr (.inr (.inr (.inl rfl)))) hstop hlen]
    · exact iff_of_false hx.not_finishes hr.not_finishes

/-- **A point**, and the bytes that are kept for it. -/
theorem finishes_dot (h : state = .ze ∨ state = .it) (hlen : stack.length ≤ 16) :
    Finishes libc (reading state .integer stack buffer) (46 :: t) es ↔
      Finishes libc (reading .fr .float stack (buffer ++ [libc.decimalPoint])) t es := by
  have hcell : cellAt state 46 = .act .df := by rcases h with rfl | rfl <;> decide
  have hact : act libc .df (reading state .integer stack (buffer ++ [46])) =
      proceed (reading .fx .float stack (buffer ++ [libc.decimalPoint])) := by
    rw [act, bufferPop_reading]
    rfl
  rw [finishes_act hcell, kept_solid (by decide), hact, Outcome.leads_proceed, finishes_fx hlen]

/-! ## Numbers -/

/-- The state behind the digits in front of a point. -/
def wholeState (whole : List UInt8) : States := if whole = [48] then .ze else .it

/-- A digit other than zero begins an integer, wherever a value is expected or behind a minus. -/
theorem cellAt_digit {d : UInt8} (hd : isDigit d = true) (hzero : d ≠ 48) :
    cellAt .va d = .act .ix ∧ cellAt .ar d = .act .ix ∧ cellAt .mi d = .goto .it ∧ ¬ IsBlank d := by
  have hall : ∀ d : UInt8, isDigit d = true → d ≠ 48 → cellAt .va d = .act .ix ∧
      cellAt .ar d = .act .ix ∧ cellAt .mi d = .goto .it ∧ ¬ IsBlank d :=
    CString.forall_byte (by decide) (by decide)
  exact hall d hd hzero

/-- **The digits in front of a point**, behind a sign or without one. -/
theorem Whole.finishes {sign whole : List UInt8} (hsign : Sign sign) (hwhole : Whole whole)
    (h : state = .va ∨ state = .ar) :
    Finishes libc (reading state .none stack []) (sign ++ (whole ++ t)) es ↔
      Finishes libc (reading (wholeState whole) .integer stack (sign ++ whole)) t es := by
  have hminus : cellAt state 45 = .act .mx := by rcases h with rfl | rfl <;> decide
  rcases hwhole with rfl | ⟨d, ds, rfl, hd, hzero, hds⟩
  · have hstate : wholeState [48] = .ze := rfl
    rw [hstate]
    rcases hsign with rfl | rfl
    · have hcell : cellAt state 48 = .act .zx := by rcases h with rfl | rfl <;> decide
      rw [List.nil_append, List.singleton_append, finishes_act hcell, kept_solid (by decide)]
      exact Outcome.leads_proceed
    · have hcell : cellAt .mi 48 = .goto .ze := by decide
      have hmi : Finishes libc (reading .mi .integer stack [45]) ([48] ++ t) es ↔
          Finishes libc (reading .ze .integer stack ([45] ++ [48])) t es := by
        rw [List.singleton_append, finishes_goto hcell, kept_typed (by simp)]
      rw [List.singleton_append, finishes_act hminus, kept_solid (by decide), ← hmi]
      exact Outcome.leads_proceed
  · have hstate : wholeState (d :: ds) = .it := by
      rw [wholeState, if_neg]
      rintro ⟨rfl, -⟩
      exact hzero rfl
    obtain ⟨hva, har, hmi, hblank⟩ := cellAt_digit hd hzero
    have hrest : ∀ b : List UInt8, Finishes libc (reading .it .integer stack (b ++ [d])) (ds ++ t) es ↔
        Finishes libc (reading .it .integer stack (b ++ d :: ds)) t es := by
      intro b
      rw [finishes_digits (.inl rfl) (by simp) hds, List.append_assoc]
      exact Iff.rfl
    rw [hstate]
    rcases hsign with rfl | rfl
    · have hcell : cellAt state d = .act .ix := by
        rcases h with rfl | rfl
        · exact hva
        · exact har
      rw [List.nil_append, List.cons_append, finishes_act hcell, kept_solid hblank, ← hrest]
      exact Outcome.leads_proceed
    · have hmi' : Finishes libc (reading .mi .integer stack [45]) (d :: ds ++ t) es ↔
          Finishes libc (reading .it .integer stack ([45] ++ [d])) (ds ++ t) es := by
        rw [List.cons_append, finishes_goto hmi, kept_typed (by simp)]
      rw [List.singleton_append, finishes_act hminus, kept_solid (by decide), ← hrest, ← hmi']
      exact Outcome.leads_proceed

/-- `sscanf` finds the number that a sign and digits stand for. -/
theorem scanInteger_whole {sign whole : List UInt8} (hsign : Sign sign) (hwhole : Whole whole)
    (hws : Blank ws) : scanInteger (sign ++ whole ++ ws) = integerOf sign whole := by
  have hdigit : ∀ d : UInt8, isDigit d = true → isSpace d = false ∧ d ≠ 45 ∧ d ≠ 43 :=
    CString.forall_byte (by decide) (by decide)
  have hblank : ∀ c : UInt8, IsBlank c → isDigit c = false :=
    CString.forall_byte (by decide) (by decide)
  obtain ⟨d, ds, rfl, hd, hds⟩ : ∃ d ds, whole = d :: ds ∧ isDigit d = true ∧ Digits ds := by
    rcases hwhole with rfl | ⟨d, ds, rfl, hd, -, hds⟩
    · exact ⟨48, [], rfl, by decide, by simp [Digits]⟩
    · exact ⟨d, ds, rfl, hd, hds⟩
  have hall : (d :: ds ++ ws).takeWhile isDigit = d :: ds := by
    rw [List.takeWhile_append_of_pos]
    · cases ws with
      | nil => rw [List.takeWhile_nil, List.append_nil]
      | cons c ws =>
        rw [List.takeWhile_cons_of_neg (by simp [hblank c (hws c List.mem_cons_self)]),
          List.append_nil]
    · intro c hc
      rcases List.mem_cons.1 hc with rfl | hc
      · exact hd
      · exact hds c hc
  obtain ⟨hspace, hminus, hplus⟩ := hdigit d hd
  rcases hsign with rfl | rfl
  · have hdrop : (d :: ds ++ ws).dropWhile isSpace = d :: ds ++ ws :=
      List.dropWhile_cons_of_neg (by simp [hspace])
    rw [List.nil_append, scanInteger, hdrop, integerOf, if_neg (by simp)]
    split
    case h_1 ds' heq => exact absurd (List.cons.inj heq).1 hminus
    case h_2 ds' heq => exact absurd (List.cons.inj heq).1 hplus
    case h_3 => simp only [hall]
  · have hdrop : ([45] ++ d :: ds ++ ws).dropWhile isSpace = 45 :: (d :: ds ++ ws) := rfl
    rw [scanInteger, hdrop, integerOf, if_pos rfl]
    simp only [hall]

/-- A number may end behind the digits in front of its point. -/
theorem last_wholeState (whole : List UInt8) : Last (wholeState whole) := by
  unfold wholeState
  split_ifs
  · exact .inr (.inl rfl)
  · exact .inr (.inr (.inl rfl))

/-- **A number** is told with its value behind the blanks that follow it. -/
theorem NumberText.finishes {n : List UInt8} {value : Scalar} (h : NumberText libc n ws value)
    (hws : Blank ws) (hc : Stop c) (hlen : stack.length ≤ 16) (hstate : state = .va ∨ state = .ar) :
    Finishes libc (reading state .none stack []) (n ++ (ws ++ c :: r)) es ↔
      ∃ es', es = .value value :: es' ∧ Finishes libc (reading .ok .none stack []) (c :: r) es' := by
  cases h with
  | @integer sign whole _ hsign hwhole =>
    have htold : told libc .integer (sign ++ whole ++ ws) =
        [.value (.integer (integerOf sign whole))] :=
      congrArg (fun i => [Event.value (.integer i)]) (scanInteger_whole hsign hwhole hws)
    rw [List.append_assoc, hwhole.finishes hsign hstate,
      finishes_stop (last_wholeState whole) (by simp) hws hc hlen, htold]
    rfl
  | @fraction sign whole ds e _ hsign hwhole hds he =>
    have hpoint : wholeState whole = .ze ∨ wholeState whole = .it := by
      unfold wholeState
      split_ifs
      · exact .inl rfl
      · exact .inr rfl
    have hstop : ∀ s, Last s → (Finishes libc (reading s .float stack
        (sign ++ whole ++ libc.decimalPoint :: (ds ++ e))) (ws ++ c :: r) es ↔
          ∃ es', es = .value (.float (libc.strtod
            (sign ++ whole ++ libc.decimalPoint :: (ds ++ e) ++ ws))) :: es' ∧
            Finishes libc (reading .ok .none stack []) (c :: r) es') := by
      intro s hs
      rw [finishes_stop hs (by simp) hws hc hlen]
      exact Iff.rfl
    rw [List.append_assoc, List.append_assoc, hwhole.finishes hsign hstate, List.cons_append,
      finishes_dot hpoint hlen, List.append_assoc ds, finishes_digits (.inr (.inl rfl)) (by simp) hds]
    rcases he with rfl | he
    · have hstop' := hstop .fr (.inr (.inr (.inr (.inl rfl))))
      simpa using hstop'
    · have hstop' := hstop .e3 (.inr (.inr (.inr (.inr (.inl rfl)))))
      rw [he.finishes (.inr ⟨rfl, rfl⟩)]
      simpa using hstop'
  | @power sign whole e _ hsign hwhole hzero he =>
    have hstate' : wholeState whole = .it := if_neg hzero
    rw [List.append_assoc, List.append_assoc, hwhole.finishes hsign hstate, hstate',
      he.finishes (.inl ⟨rfl, rfl⟩),
      finishes_stop (.inr (.inr (.inr (.inr (.inl rfl))))) (by simp) hws hc hlen]
    exact Iff.rfl

/-- The digits in front of a point have to come. -/
theorem whole_of_finishes {d : UInt8} (hfirst : d = 45 ∨ isDigit d = true)
    (hstate : state = .va ∨ state = .ar)
    (h : Finishes libc (reading state .none stack []) (d :: t) es) :
    ∃ sign whole r, d :: t = sign ++ (whole ++ r) ∧ Sign sign ∧ Whole whole ∧
      (whole ≠ [48] → ∀ c r', r = c :: r' → ¬ isDigit c = true) ∧
      Finishes libc (reading (wholeState whole) .integer stack (sign ++ whole)) r es := by
  -- a digit, and the ones behind it unless it is zero
  have hwhole : ∀ (sign t : List UInt8) (x : UInt8), Sign sign → isDigit x = true →
      Finishes libc (reading state .none stack []) (sign ++ x :: t) es →
      ∃ whole r, x :: t = whole ++ r ∧ Whole whole ∧
        (whole ≠ [48] → ∀ c r', r = c :: r' → ¬ isDigit c = true) ∧
        Finishes libc (reading (wholeState whole) .integer stack (sign ++ whole)) r es := by
    intro sign t x hsign hx h
    by_cases hzero : x = 48
    · subst hzero
      exact ⟨[48], t, rfl, .inl rfl, fun hne => absurd rfl hne,
        (Whole.finishes hsign (.inl rfl) hstate).1 h⟩
    · obtain ⟨ds, r, rfl, hds, hhead⟩ := digits_span t
      have hdigits : Whole (x :: ds) := .inr ⟨x, ds, rfl, hx, hzero, hds⟩
      exact ⟨x :: ds, r, rfl, hdigits, fun _ => hhead, (hdigits.finishes hsign hstate).1 h⟩
  by_cases hminus : d = 45
  · subst hminus
    have hrow : ∀ c : UInt8, Refused .mi c ∨ isDigit c = true :=
      CString.forall_byte (by decide) (by decide)
    have hcell : cellAt state 45 = .act .mx := by rcases hstate with rfl | rfl <;> decide
    have hmi : Finishes libc (reading .mi .integer stack [45]) t es := by
      rw [finishes_act hcell, kept_solid (by decide)] at h
      exact Outcome.leads_proceed.1 h
    cases t with
    | nil => rcases (finishes_nil.1 hmi).1 with hend | hend <;> cases hend
    | cons x t =>
      rcases hrow x with hrefused | hx
      · exact absurd hmi hrefused.not_finishes
      · obtain ⟨whole, r, ht, hdigits, hhead, hrest⟩ := hwhole [45] t x (.inr rfl) hx h
        exact ⟨[45], whole, r, congrArg _ ht, .inr rfl, hdigits, hhead, hrest⟩
  · obtain ⟨whole, r, ht, hdigits, hhead, hrest⟩ :=
      hwhole [] t d (.inl rfl) (hfirst.resolve_left hminus) h
    exact ⟨[], whole, r, ht, .inl rfl, hdigits, hhead, hrest⟩

/-- **What begins as a number is one**, with blanks and another token behind it. -/
theorem number_of_finishes {d : UInt8} (hfirst : d = 45 ∨ isDigit d = true)
    (hstate : state = .va ∨ state = .ar) (hlen : (kind.mode :: stack).length ≤ 16)
    (h : Finishes libc (reading state .none (kind.mode :: stack) []) (d :: t) es) :
    ∃ n ws value c r, d :: t = n ++ (ws ++ c :: r) ∧ NumberText libc n ws value ∧ Blank ws ∧
      Stop c := by
  obtain ⟨sign, whole, r, ht, hsign, hwhole, hhead, hrest⟩ := whole_of_finishes hfirst hstate h
  rw [ht]
  have hfr : ∀ c : UInt8, Refused .fr c ∨ isDigit c = true ∨ IsBlank c ∨ Stop c ∨ (c = 101 ∨ c = 69) :=
    CString.forall_byte (by decide) (by decide)
  have hze : ∀ c : UInt8, Refused .ze c ∨ IsBlank c ∨ Stop c ∨ c = 46 :=
    CString.forall_byte (by decide) (by decide)
  have hit : ∀ c : UInt8, Refused .it c ∨ isDigit c = true ∨ IsBlank c ∨ Stop c ∨ c = 46 ∨
      (c = 101 ∨ c = 69) := CString.forall_byte (by decide) (by decide)
  have hpoint : wholeState whole = .ze ∨ wholeState whole = .it := by
    unfold wholeState
    split_ifs
    · exact .inl rfl
    · exact .inr rfl
  cases r with
  | nil =>
    have hend := (finishes_nil.1 hrest).1
    have hsame : (reading (wholeState whole) .integer (kind.mode :: stack) (sign ++ whole)).state =
      wholeState whole := rfl
    rw [hsame] at hend
    rcases hpoint with hs | hs <;> rw [hs] at hend <;> rcases hend with hend | hend <;> cases hend
  | cons c r =>
    -- what may follow the digits in front of a point
    have hcases : IsBlank c ∨ Stop c ∨ c = 46 ∨ whole ≠ [48] ∧ (c = 101 ∨ c = 69) := by
      by_cases hzero : whole = [48]
      · rw [wholeState, if_pos hzero] at hrest
        rcases hze c with hrefused | hblank | hstop | hdot
        · exact absurd hrest hrefused.not_finishes
        · exact .inl hblank
        · exact .inr (.inl hstop)
        · exact .inr (.inr (.inl hdot))
      · have hdigit := hhead hzero c r rfl
        rw [wholeState, if_neg hzero] at hrest
        rcases hit c with hrefused | hdigit' | hblank | hstop | hdot | he
        · exact absurd hrest hrefused.not_finishes
        · exact absurd hdigit' hdigit
        · exact .inl hblank
        · exact .inr (.inl hstop)
        · exact .inr (.inr (.inl hdot))
        · exact .inr (.inr (.inr ⟨hzero, he⟩))
    rcases hcases with hblank | hstop | rfl | ⟨hzero, he⟩
    · rw [finishes_goto ((last_wholeState whole).cells.1 c hblank)] at hrest
      obtain ⟨ws, x, r, rfl, hws, hx⟩ := stop_of_finishes hrest
      exact ⟨sign ++ whole, c :: ws, _, x, r, by simp, .integer hsign hwhole,
        by simpa [Blank, hblank] using hws, hx⟩
    · exact ⟨sign ++ whole, [], _, c, r, by simp, .integer hsign hwhole, by simp [Blank], hstop⟩
    · obtain ⟨ds, x, r, rfl, hds, hx, hrest⟩ :=
        digits_of_finishes (.inr (.inl rfl)) (by simp) ((finishes_dot hpoint hlen).1 hrest)
      rcases hfr x with hrefused | hdigit | hblank | hstop | he
      · exact absurd hrest hrefused.not_finishes
      · exact absurd hdigit hx
      · have hcell : cellAt .fr x = .goto .ok := (Last.cells (.inr (.inr (.inr (.inl rfl))))).1 x hblank
        obtain ⟨ws, y, r, rfl, hws, hy⟩ := stop_of_finishes ((finishes_goto hcell).1 hrest)
        exact ⟨_, x :: ws, _, y, r, by simp, .fraction hsign hwhole hds (.inl rfl),
          by simpa [Blank, hblank] using hws, hy⟩
      · exact ⟨_, [], _, x, r, by simp, .fraction hsign hwhole hds (.inl rfl), by simp [Blank], hstop⟩
      · obtain ⟨e, r', hr, hexp, ws, y, r, rfl, hws, hy⟩ :=
          exponent_of_finishes (.inr ⟨rfl, rfl⟩) he hrest
        exact ⟨_, ws, _, y, r, by simp [hr], .fraction hsign hwhole hds (.inr hexp), hws, hy⟩
    · have hstate' : wholeState whole = .it := if_neg hzero
      rw [hstate'] at hrest
      obtain ⟨e, r', hr, hexp, ws, y, r, rfl, hws, hy⟩ :=
        exponent_of_finishes (.inl ⟨rfl, rfl⟩) he hrest
      exact ⟨_, ws, _, y, r, by simp [hr], .power hsign hwhole hzero hexp, hws, hy⟩

/-! ## Literals -/

/-- From a state on only this word is taken. -/
def Letters : States → List UInt8 → Prop
  | state, [] => state = .ok
  | state, x :: w => ∃ state', cellAt state x = .goto state' ∧ (∀ c, Refused state c ∨ c = x) ∧
      ¬ (state = .ok ∨ state = .go) ∧ Letters state' w

/-- A literal: its first letter, what it is read as, and the letters behind the first one. -/
structure Literal (x : UInt8) (type : JsonType) (w : List UInt8) : Prop where
  solid : ¬ IsBlank x
  typed : type ≠ .none
  entry : ∃ action state', (cellAt .va x = .act action ∧ cellAt .ar x = .act action) ∧
    (∀ libc jc, act libc action jc = proceed { jc with type, state := state' }) ∧ Letters state' w

theorem literal_null : Literal 110 .null [117, 108, 108] where
  solid := by decide
  typed := by simp
  entry := ⟨.nu, .n1, by decide, fun _ _ => rfl,
    .n2, by decide, CString.forall_byte (by decide) (by decide), by simp,
    .n3, by decide, CString.forall_byte (by decide) (by decide), by simp,
    .ok, by decide, CString.forall_byte (by decide) (by decide), by simp, rfl⟩

theorem literal_true : Literal 116 .true [114, 117, 101] where
  solid := by decide
  typed := by simp
  entry := ⟨.tr, .t1, by decide, fun _ _ => rfl,
    .t2, by decide, CString.forall_byte (by decide) (by decide), by simp,
    .t3, by decide, CString.forall_byte (by decide) (by decide), by simp,
    .ok, by decide, CString.forall_byte (by decide) (by decide), by simp, rfl⟩

theorem literal_false : Literal 102 .false [97, 108, 115, 101] where
  solid := by decide
  typed := by simp
  entry := ⟨.fa, .f1, by decide, fun _ _ => rfl,
    .f2, by decide, CString.forall_byte (by decide) (by decide), by simp,
    .f3, by decide, CString.forall_byte (by decide) (by decide), by simp,
    .f4, by decide, CString.forall_byte (by decide) (by decide), by simp,
    .ok, by decide, CString.forall_byte (by decide) (by decide), by simp, rfl⟩

/-- The letters that are missing of a literal are taken. -/
theorem Letters.finishes {w : List UInt8} (h : Letters state w) (htype : type ≠ .none) :
    Finishes libc (reading state type stack buffer) (w ++ t) es ↔
      Finishes libc (reading .ok type stack (buffer ++ w)) t es := by
  induction w generalizing state buffer with
  | nil =>
    obtain rfl : state = .ok := h
    rw [List.append_nil]
    exact Iff.rfl
  | cons x w ih =>
    obtain ⟨state', hcell, -, -, hrest⟩ := h
    rw [List.cons_append, finishes_goto hcell, kept_typed htype, ih hrest, List.append_assoc]
    exact Iff.rfl

/-- A text that is taken from the middle of a literal begins with the letters that are missing. -/
theorem Letters.of_finishes {w : List UInt8} (h : Letters state w)
    (hrest : Finishes libc (reading state type stack buffer) t es) : ∃ r, t = w ++ r := by
  induction w generalizing state buffer t with
  | nil => exact ⟨t, rfl⟩
  | cons x w ih =>
    obtain ⟨state', hcell, hrow, hinner, hletters⟩ := h
    cases t with
    | nil => exact absurd (finishes_nil.1 hrest).1 hinner
    | cons c t =>
      rcases hrow c with hrefused | rfl
      · exact absurd hrest hrefused.not_finishes
      · obtain ⟨r, rfl⟩ := ih hletters ((finishes_goto hcell).1 hrest)
        exact ⟨r, rfl⟩

/-- The first letter of a literal fixes its type and the letters that are missing. -/
theorem Literal.first {x : UInt8} {w : List UInt8} (h : Literal x type w)
    (hstate : state = .va ∨ state = .ar) : ∃ state', Letters state' w ∧ ∀ t es,
      Finishes libc (reading state .none stack []) (x :: t) es ↔
        Finishes libc (reading state' type stack [x]) t es := by
  obtain ⟨action, state', hcells, hact, hletters⟩ := h.entry
  have hcell : cellAt state x = .act action := by
    rcases hstate with rfl | rfl
    · exact hcells.1
    · exact hcells.2
  refine ⟨state', hletters, fun t es => ?_⟩
  rw [finishes_act hcell, kept_solid h.solid, hact]
  exact Outcome.leads_proceed

/-- **A literal** is taken with its type. -/
theorem Literal.finishes {x : UInt8} {w : List UInt8} (h : Literal x type w)
    (hstate : state = .va ∨ state = .ar) :
    Finishes libc (reading state .none stack []) (x :: (w ++ t)) es ↔
      Finishes libc (reading .ok type stack (x :: w)) t es := by
  obtain ⟨state', hletters, hfirst⟩ := h.first hstate
  rw [hfirst, hletters.finishes h.typed]
  exact Iff.rfl

/-- **What begins as a literal is one.** -/
theorem Literal.of_finishes {x : UInt8} {w : List UInt8} (h : Literal x type w)
    (hstate : state = .va ∨ state = .ar)
    (hrest : Finishes libc (reading state .none (kind.mode :: stack) []) (x :: t) es) :
    ∃ ws c r, t = w ++ (ws ++ c :: r) ∧ Blank ws ∧ Stop c := by
  obtain ⟨state', hletters, hfirst⟩ := h.first hstate
  obtain ⟨r, rfl⟩ := hletters.of_finishes ((hfirst _ _).1 hrest)
  obtain ⟨ws, c, r, rfl, hws, hc⟩ := stop_of_finishes ((h.finishes hstate).1 hrest)
  exact ⟨ws, c, r, rfl, hws, hc⟩

/-! ## Scalars -/

/-- **A scalar** is told, and the next token read behind it. -/
theorem ScalarText.finishes {v : List UInt8} {value : Scalar} (h : ScalarText libc v value)
    (hc : Stop c) (hlen : (kind.mode :: stack).length ≤ 16) (hstate : state = .va ∨ state = .ar) :
    Finishes libc (reading state .none (kind.mode :: stack) []) (v ++ c :: r) es ↔
      ∃ es', es = .value value :: es' ∧
        Finishes libc (reading .ok .none (kind.mode :: stack) []) (c :: r) es' := by
  have hstop : ∀ (type : JsonType) (value : Scalar) (buffer ws : List UInt8), type ≠ .none →
      Blank ws → told libc type (buffer ++ ws) = [.value value] →
      (Finishes libc (reading .ok type (kind.mode :: stack) buffer) (ws ++ c :: r) es ↔
        ∃ es', es = .value value :: es' ∧
          Finishes libc (reading .ok .none (kind.mode :: stack) []) (c :: r) es') := by
    intro type value buffer ws htype hws htold
    rw [finishes_stop (.inl rfl) htype hws hc hlen, htold]
    rfl
  cases h with
  | @string i s ws hinside hws =>
    have hquote : cellAt state 34 = .act .sb := by rcases hstate with rfl | rfl <;> decide
    rw [List.cons_append, finishes_quote hquote, List.append_assoc, hinside.finishes, List.nil_append,
      List.cons_append, finishes_string]
    simp only [finishes_blank (show Between .ok from .inr (.inl rfl)) hws]
  | @number n ws _ htext hws =>
    rw [List.append_assoc]
    exact htext.finishes hws hc hlen hstate
  | @null ws hws =>
    rw [← hstop .null .null _ ws (by simp) hws rfl]
    exact literal_null.finishes hstate
  | @true ws hws =>
    rw [← hstop .true .true _ ws (by simp) hws rfl]
    exact literal_true.finishes hstate
  | @false ws hws =>
    rw [← hstop .false .false _ ws (by simp) hws rfl]
    exact literal_false.finishes hstate

/-- **What stands in the place of a value** is a scalar, with another token behind it, if it is no
bracket. -/
theorem scalar_of_finishes {d : UInt8} (hstate : state = .va ∨ state = .ar) (hblank : ¬ IsBlank d)
    (hopens : ∀ inner : Kind, d ≠ inner.opens) (hcloses : d ≠ 93)
    (hlen : (kind.mode :: stack).length ≤ 16)
    (h : Finishes libc (reading state .none (kind.mode :: stack) []) (d :: t) es) :
    ∃ v value c r, d :: t = v ++ c :: r ∧ ScalarText libc v value ∧ Stop c := by
  have hrow : ∀ d : UInt8, (Refused .va d ∧ Refused .ar d) ∨ IsBlank d ∨ d = 123 ∨ d = 91 ∨ d = 93 ∨
      d = 34 ∨ (d = 45 ∨ isDigit d = true) ∨ d = 110 ∨ d = 116 ∨ d = 102 :=
    CString.forall_byte (by decide) (by decide)
  rcases hrow d with hrefused | hd | rfl | rfl | rfl | rfl | hnumber | rfl | rfl | rfl
  · rcases hstate with rfl | rfl
    · exact absurd h hrefused.1.not_finishes
    · exact absurd h hrefused.2.not_finishes
  · exact absurd hd hblank
  · exact absurd rfl (hopens .object)
  · exact absurd rfl (hopens .array)
  · exact absurd rfl hcloses
  · have hquote : cellAt state 34 = .act .sb := by rcases hstate with rfl | rfl <;> decide
    obtain ⟨i, s, r, rfl, hinside, hrest⟩ := quoted_of_finishes ((finishes_quote hquote).1 h)
    obtain ⟨es', -, hbehind⟩ := finishes_string.1 hrest
    obtain ⟨ws, c, r, rfl, hws, hc⟩ := stop_of_finishes hbehind
    exact ⟨_, _, c, r, by simp, .string hinside hws, hc⟩
  · obtain ⟨n, ws, value, c, r, ht, htext, hws, hc⟩ := number_of_finishes hnumber hstate hlen h
    exact ⟨n ++ ws, value, c, r, by rw [ht, List.append_assoc], .number htext hws, hc⟩
  · obtain ⟨ws, c, r, rfl, hws, hc⟩ := literal_null.of_finishes hstate h
    exact ⟨_, _, c, r, rfl, .null hws, hc⟩
  · obtain ⟨ws, c, r, rfl, hws, hc⟩ := literal_true.of_finishes hstate h
    exact ⟨_, _, c, r, rfl, .true hws, hc⟩
  · obtain ⟨ws, c, r, rfl, hws, hc⟩ := literal_false.of_finishes hstate h
    exact ⟨_, _, c, r, rfl, .false hws, hc⟩

end Numbers

end Ape.Json
