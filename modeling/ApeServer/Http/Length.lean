import ApeServer.Http.Stream
import ApeServer.Lib.CString

/-!
# The declared length of a body

The parser reads the digits of `Content-Length` into `cl` and never sets `cl` back at the start of a
value, so with several such headers it holds the digits of all of them, one behind the other.

* `contentLengths` — the values of the `Content-Length` headers of a header section;
* `reading_parse` — what the parser knows of the line it is in;
* `declared_length_iff` — **`cl` is the value of each `Content-Length` header exactly when there is
  at most one, or all of them are 0**; it never wraps and never exceeds `MAX_CL`.
-/

namespace Ape.Http

open CString (lower)

/-! ## Decimal values -/

/-- The value of a string of digits. -/
def decimal (ds : List UInt8) : Nat := ds.foldl (fun n d => 10 * n + (d.toNat - 48)) 0

theorem decimal_snoc (ds : List UInt8) (d : UInt8) :
    decimal (ds ++ [d]) = 10 * decimal ds + (d.toNat - 48) := by
  simp [decimal]

theorem decimal_append (ds es : List UInt8) :
    decimal (ds ++ es) = decimal ds * 10 ^ es.length + decimal es := by
  induction es using List.reverseRecOn with
  | nil => simp [decimal]
  | append_singleton es e ih =>
    rw [← List.append_assoc, decimal_snoc, decimal_snoc, ih, List.length_append, List.length_singleton,
      pow_succ]
    ring

/-- The values of several strings, one behind the other. -/
theorem decimal_flatten_zero {vs : List (List UInt8)} (h : ∀ v ∈ vs, decimal v = 0) :
    decimal vs.flatten = 0 := by
  induction vs with
  | nil => rfl
  | cons v vs ih =>
    rw [List.flatten_cons, decimal_append, h v (List.mem_cons_self ..),
      ih fun x hx => h x (List.mem_cons_of_mem _ hx)]
    simp

/-- **Digits behind each other have the value of each of the strings** only if there is one, or all
are 0. -/
theorem decimal_flatten_iff (vs : List (List UInt8)) :
    (∀ v ∈ vs, decimal vs.flatten = decimal v) ↔ vs.length ≤ 1 ∨ ∀ v ∈ vs, decimal v = 0 := by
  constructor
  · intro h
    match vs with
    | [] => exact .inl (Nat.zero_le _)
    | [v] => exact .inl (Nat.le_refl _)
    | v₁ :: v₂ :: vs =>
      refine .inr ?_
      have h₁ := h v₁ (by simp)
      have h₂ := h v₂ (by simp)
      have hzero : decimal v₁ = 0 := by
        by_contra hpos
        have hlen : v₂ ≠ [] := by
          rintro rfl
          rw [h₁] at h₂
          exact hpos h₂
        have hpow : 10 ≤ 10 ^ (v₂ :: vs).flatten.length := by
          have hone : 1 ≤ (v₂ :: vs).flatten.length := by
            rw [List.flatten_cons, List.length_append]
            have := List.length_pos_iff.2 hlen
            omega
          calc 10 = 10 ^ 1 := rfl
            _ ≤ 10 ^ (v₂ :: vs).flatten.length := Nat.pow_le_pow_right (by omega) hone
        rw [List.flatten_cons, decimal_append] at h₁
        have := Nat.mul_le_mul_left (decimal v₁) hpow
        omega
      intro v hv
      rw [← h v hv, h₁, hzero]
  · rintro (hlen | hzero) v hv
    · match vs, hlen, hv with
      | [w], _, hv =>
        rw [List.mem_singleton.1 hv]
        simp
    · rw [decimal_flatten_zero hzero, hzero v hv]

/-! ## The header section -/

/-- `content-length:`. -/
def lengthName : List UInt8 := [99, 111, 110, 116, 101, 110, 116, 45, 108, 101, 110, 103, 116, 104, 58]

/-- The value of a `Content-Length` line, without blanks and `\r`; the name is read in any case. -/
def lengthValue (line : List UInt8) : Option (List UInt8) :=
  if lengthName.isPrefixOf (line.map lower) then
    some ((line.drop lengthName.length).filter fun c => c ≠ 32 ∧ c ≠ 13)
  else none

/-- The values of the `Content-Length` headers of a request, whose first line is no header. -/
def contentLengths (bs : List UInt8) : List (List UInt8) :=
  (bs.splitOn 10).tail.filterMap lengthValue

/-- `bs` is a request up to the byte with which the parser reports the end of the headers. -/
def HeaderSection (bs : List UInt8) (p : HttpParser) : Prop :=
  ∃ pre c q log evs, bs = pre ++ [c] ∧ feed record pre (.reset, []) = (true, q, log) ∧
    (∀ e ∈ log, e.type ≠ .headerEnd) ∧ parseHttpChar record c (q, []) = (true, p, evs) ∧
    ∃ e ∈ evs, e.type = .headerEnd

/-- What the length the parser has read must be. -/
structure DeclaredLength (bs : List UInt8) (p : HttpParser) : Prop where
  each : ∀ v ∈ contentLengths bs, p.cl.toNat = decimal v
  none : contentLengths bs = [] → p.cl = 0
  capped : p.cl.toNat ≤ 1048576
  unwrapped : ∀ pre q log, pre <+: bs → feed record pre (.reset, []) = (true, q, log) →
    q.cl.toNat * 10 + 9 < 2 ^ 32

/-! ## Lines -/

/-- Nothing but a line feed ends a line. -/
theorem splitOn_snoc {bs cur : List UInt8} {done : List (List UInt8)} {c : UInt8}
    (h : bs.splitOn 10 = done ++ [cur]) (hc : c ≠ 10) :
    (bs ++ [c]).splitOn 10 = done ++ [cur ++ [c]] := by
  induction bs generalizing done cur with
  | nil =>
    have hnil : done ++ [cur] = [] ++ [[]] := h.symm.trans (List.splitOn_nil (10 : UInt8))
    obtain ⟨rfl, hcur⟩ := List.append_inj' hnil rfl
    obtain rfl := (List.cons.inj hcur).1
    exact List.splitOn_eq_singleton (by simpa using Ne.symm hc)
  | cons b bs ih =>
    rw [List.splitOn_cons_eq_if_modifyHead] at h
    rw [List.cons_append, List.splitOn_cons_eq_if_modifyHead]
    obtain ⟨hd, tl, hsplit⟩ := List.exists_cons_of_ne_nil (List.splitOn_ne_nil 10 bs)
    by_cases hb : (b == 10) = true
    · rw [if_pos hb] at h ⊢
      cases done with
      | nil =>
        rw [hsplit] at h
        exact absurd (List.cons.inj h).2 (by simp)
      | cons d done =>
        obtain ⟨rfl, htail⟩ := List.cons.inj h
        rw [ih htail]
        rfl
    · rw [if_neg hb] at h ⊢
      rw [hsplit, List.modifyHead_cons] at h
      cases done with
      | nil =>
        obtain ⟨rfl, rfl⟩ := List.cons.inj h
        rw [ih (show bs.splitOn 10 = [] ++ [hd] from hsplit)]
        rfl
      | cons d done =>
        obtain ⟨rfl, rfl⟩ := List.cons.inj h
        rw [ih (show bs.splitOn 10 = (hd :: done) ++ [cur] from hsplit)]
        rfl

/-- A line feed ends a line and begins an empty one. -/
theorem splitOn_snoc_lf {bs : List UInt8} {lines : List (List UInt8)}
    (h : bs.splitOn 10 = lines) : (bs ++ [10]).splitOn 10 = lines ++ [[]] := by
  rw [List.splitOn_append_cons_self, h, List.splitOn_nil]

/-- The line is not, and will not become, one of `Content-Length`. -/
def Off (cur : List UInt8) : Prop := ∀ rest, ¬ lengthName <+: (cur ++ rest).map lower

theorem Off.snoc {cur : List UInt8} (h : Off cur) (c : UInt8) : Off (cur ++ [c]) := by
  intro rest
  rw [List.append_assoc]
  exact h _

theorem Off.value {cur : List UInt8} (h : Off cur) : lengthValue cur = none := by
  have hnot := h []
  rw [List.append_nil] at hnot
  exact if_neg (by simpa using hnot)

/-- A byte that is not the next one of `content-length` puts the name off. -/
theorem off_of_mismatch {cur : List UInt8} {n : Nat} {c k : UInt8}
    (hcur : cur.map lower = lengthName.take n) (hk : lengthName[n]? = some k) (hc : lower c ≠ k) :
    Off (cur ++ [c]) := by
  rintro rest ⟨t, ht⟩
  have hn : n < lengthName.length := (List.getElem?_eq_some_iff.1 hk).1
  have hlen : (cur.map lower).length = n := by
    rw [hcur, List.length_take]
    omega
  have hget := congrArg (fun l => l[n]?) ht
  simp only [List.map_append, List.append_assoc, List.map_cons] at hget
  rw [List.getElem?_append_left hn, hk, List.getElem?_append_right (by omega), hlen, Nat.sub_self]
    at hget
  exact hc (Option.some.inj hget).symm

/-- A name that is not complete has no value. -/
theorem lengthValue_name {cur : List UInt8} {n : Nat} (hcur : cur.map lower = lengthName.take n) :
    (lengthValue cur).getD [] = [] := by
  unfold lengthValue
  split
  · have hlen : cur.length ≤ lengthName.length := by
      have := congrArg List.length hcur
      rw [List.length_map, List.length_take] at this
      omega
    rw [List.drop_of_length_le hlen]
    rfl
  · rfl

/-- The value of a `Content-Length` line. -/
theorem lengthValue_append {nm : List UInt8} (hnm : nm.map lower = lengthName) (v : List UInt8) :
    lengthValue (nm ++ v) = some (v.filter fun c => c ≠ 32 ∧ c ≠ 13) := by
  have hlen : nm.length = lengthName.length := by
    rw [← hnm, List.length_map]
  unfold lengthValue
  rw [if_pos (by simp [hnm]), ← hlen, List.drop_left]

/-! ## The line the parser is in -/

/-- Where the parser is in a line. -/
inductive LineState where
  | first
  | eol
  | name (n : Nat)
  | other
  | value
  | digits
  | fin
  | body
  deriving DecidableEq, Repr

/-- The line state of a parser state. -/
def ParserState.line : ParserState → LineState
  | .er => .eol
  | .c1 => .name 0
  | .c2 => .name 1
  | .c3 => .name 2
  | .c4 => .name 3
  | .c5 => .name 4
  | .c6 => .name 5
  | .c7 => .name 6
  | .c8 => .name 7
  | .c9 => .name 8
  | .ca => .name 9
  | .cb => .name 10
  | .cc => .name 11
  | .cd => .name 12
  | .ce => .name 13
  | .cf => .name 14
  | .cg => .name 15
  | .cv => .digits
  | .hh => .other
  | .hi => .value
  | .fi => .fin
  | .bt => .body
  | _ => .first

/-- The classes of the letters of `content-length:`. -/
def nameClasses : List ParserClass :=
  [.c, .o, .n, .t, .e, .n, .t, .minus, .l, .e, .n, .g, .t, .h, .colon]

/-- What the table may do with a class in a line state. -/
def LineState.Reads (l : LineState) (k : ParserClass) : Cell → Bool
  | .xx => true
  | .goto s =>
    match l with
    | .first => (s.line = .first && k ≠ .lf) || (s = .er && k = .cr) || (s = .c1 && k = .lf)
    | .eol => s = .c1 && k = .lf
    | .name n => (s.line = .name (n + 1) && nameClasses[n]? = some k) || (n = 0 && s = .fi && k = .cr)
    | .body => true
    | _ => false
  | .act a =>
    match l with
    | .first => k ≠ .lf && a ∈ [.mg, .mp, .pe, .ha, .hb, .ea, .eb, .pc, .qs]
    | .name n =>
      ((a = .hk || a = .kh) && k ≠ .lf && (nameClasses[n]?).any (· ≠ k)) ||
        (n = 0 && a = .eh && k = .lf) || (n = 15 && a = .kc && k = .space)
    | .other => (a = .hk || a = .kh) && k ≠ .lf
    | .value => (a = .hv && k ≠ .lf) || (a = .vh && (k = .cr || k = .lf))
    | .digits => (a = .vc && k = .digit) || (a = .ve && (k = .cr || k = .lf))
    | .fin => a = .eh && k = .lf
    | .body => true
    | .eol => false

/-- Every entry of the table reads its line as it should. -/
theorem stateTransitionTable_reads (s : ParserState) (k : ParserClass) :
    s.line.Reads k (stateTransitionTable s k) = true := by
  cases s <;> cases k <;> rfl

/-- The letter of the name that a class stands for. -/
def letterOf : ParserClass → Option UInt8
  | .c => some 99
  | .o => some 111
  | .n => some 110
  | .t => some 116
  | .e => some 101
  | .minus => some 45
  | .l => some 108
  | .g => some 103
  | .h => some 104
  | .colon => some 58
  | _ => none

/-- The class of a byte stands for the byte in lower case, if that is in the name. -/
theorem letterOf_classOf (c : UInt8) : letterOf (classOf c) = some (lower c) ∨
    letterOf (classOf c) = none ∧ lower c ∉ lengthName := by
  revert c
  apply CString.forall_byte <;> decide

theorem classOf_of_letterOf {k : ParserClass} {x : UInt8} (h : letterOf k = some x) :
    classOf x = k := by
  cases k <;> simp only [letterOf, Option.some.injEq, reduceCtorEq] at h <;> subst h <;> decide

/-- The letters of the name and their classes. -/
theorem nameClasses_iff (n : Nat) (c : UInt8) :
    nameClasses[n]? = some (classOf c) ↔ lengthName[n]? = some (lower c) := by
  have hmap : nameClasses.map letterOf = lengthName.map some := by decide
  have hat : nameClasses[n]?.map letterOf = lengthName[n]?.map some := by
    rw [← List.getElem?_map, hmap, List.getElem?_map]
  constructor
  · intro h
    rw [h, Option.map_some] at hat
    rcases letterOf_classOf c with hletter | ⟨hnone, -⟩
    · rw [hletter] at hat
      obtain ⟨x, hx, hxc⟩ := Option.map_eq_some_iff.1 hat.symm
      rw [hx, Option.some.inj hxc]
    · rw [hnone] at hat
      obtain ⟨x, -, hx⟩ := Option.map_eq_some_iff.1 hat.symm
      exact absurd hx (Option.some_ne_none x)
  · intro h
    rw [h, Option.map_some] at hat
    obtain ⟨k, hk, hletter⟩ := Option.map_eq_some_iff.1 hat
    rcases letterOf_classOf c with hown | ⟨-, hnot⟩
    · rw [hk, ← classOf_of_letterOf hletter, classOf_of_letterOf hown]
    · exact absurd (List.mem_of_getElem? h) hnot
/-- The bytes that stand alone in their class, and the digits. -/
theorem classOf_cases (c : UInt8) :
    (classOf c = .lf ↔ c = 10) ∧ (classOf c = .cr ↔ c = 13) ∧ (classOf c = .space ↔ c = 32) ∧
      (classOf c = .digit → c ≠ 32 ∧ c ≠ 13 ∧ 48 ≤ c.toNat ∧ c.toNat ≤ 57) := by
  revert c
  apply CString.forall_byte <;> decide

/-- What has been read: the lines `done`, and `cur` of the line behind them. -/
def LineState.Holds (done : List (List UInt8)) (cur : List UInt8) : LineState → Prop
  | .first => done = []
  | .eol => True
  | .name n => done ≠ [] ∧ cur.map lower = lengthName.take n
  | .other | .value => done ≠ [] ∧ Off cur
  | .digits => done ≠ [] ∧ ∃ nm v, cur = nm ++ v ∧ nm.map lower = lengthName
  | .fin => done ≠ []
  | .body => False

/-- The digits of the `Content-Length` headers among some lines, the first of which is no header. -/
def lengthDigits (lines : List (List UInt8)) : List UInt8 :=
  (lines.tail.filterMap lengthValue).flatten

theorem lengthDigits_snoc {done : List (List UInt8)} (h : done ≠ []) (cur : List UInt8) :
    lengthDigits (done ++ [cur]) =
      (done.tail.filterMap lengthValue).flatten ++ (lengthValue cur).getD [] := by
  unfold lengthDigits
  rw [List.tail_append_of_ne_nil h, List.filterMap_append, List.flatten_append]
  cases hcur : lengthValue cur with
  | none => simp [hcur]
  | some v => simp [hcur]

theorem lengthDigits_lf (done : List (List UInt8)) (cur : List UInt8) :
    lengthDigits (done ++ [cur] ++ [[]]) = lengthDigits (done ++ [cur]) := by
  rw [lengthDigits_snoc (List.append_ne_nil_of_right_ne_nil _ (by simp))]
  exact List.append_nil _

/-- The parser in a line of the headers. -/
structure Reading (p : HttpParser) (done : List (List UInt8)) (cur : List UInt8) : Prop where
  head : p.rx.bodyContent = false
  value : p.cl.toNat = decimal (lengthDigits (done ++ [cur]))
  capped : p.cl.toNat ≤ 1048576
  line : p.state.line.Holds done cur

theorem reading_reset : Reading .reset [] [] := ⟨rfl, rfl, Nat.zero_le _, rfl⟩

/-- What a byte of the headers does. -/
inductive LineOutcome (p : HttpParser) (done : List (List UInt8)) (cur : List UInt8) (c : UInt8) :
    Bool × HttpParser × List HttpEvent → Prop where
  | refused (q : HttpParser) (evs : List HttpEvent) : LineOutcome p done cur c (false, q, evs)
  | char (q : HttpParser) (evs : List HttpEvent) :
      c ≠ 10 → (∀ e ∈ evs, e.type ≠ .headerEnd) → Reading q done (cur ++ [c]) →
      LineOutcome p done cur c (true, q, evs)
  | lf (q : HttpParser) (evs : List HttpEvent) :
      c = 10 → (∀ e ∈ evs, e.type ≠ .headerEnd) → Reading q (done ++ [cur]) [] →
      LineOutcome p done cur c (true, q, evs)
  | ends (q : HttpParser) (evs : List HttpEvent) :
      c = 10 → (∃ e ∈ evs, e.type = .headerEnd) → q.cl = p.cl →
      LineOutcome p done cur c (true, q, evs)

section LineOutcome

variable {p q : HttpParser} {done : List (List UInt8)} {cur : List UInt8} {c : UInt8}
  {evs : List HttpEvent}

/-- A byte that is no digit of a length. -/
theorem Reading.char (h : Reading p done cur) (hc : c ≠ 10)
    (hevs : ∀ e ∈ evs, e.type ≠ .headerEnd) (hrx : q.rx.bodyContent = false) (hcl : q.cl = p.cl)
    (hvalue : done = [] ∨ (lengthValue (cur ++ [c])).getD [] = (lengthValue cur).getD [])
    (hline : q.state.line.Holds done (cur ++ [c])) : LineOutcome p done cur c (true, q, evs) := by
  refine .char q evs hc hevs ⟨hrx, ?_, hcl ▸ h.capped, hline⟩
  rw [hcl, h.value]
  by_cases hdone : done = []
  · rw [hdone]
    rfl
  · rw [lengthDigits_snoc hdone, lengthDigits_snoc hdone, hvalue.resolve_left hdone]

/-- A line feed that does not end the headers. -/
theorem Reading.lf (h : Reading p done cur) (hc : c = 10)
    (hevs : ∀ e ∈ evs, e.type ≠ .headerEnd) (hrx : q.rx.bodyContent = false) (hcl : q.cl = p.cl)
    (hstate : q.state = .c1) : LineOutcome p done cur c (true, q, evs) := by
  refine .lf q evs hc hevs ⟨hrx, ?_, hcl ▸ h.capped, ?_⟩
  · rw [hcl, h.value, lengthDigits_lf]
  · rw [hstate]
    exact ⟨List.append_ne_nil_of_right_ne_nil _ (by simp), rfl⟩

/-- A byte of a line that is not one of `Content-Length`. -/
theorem Reading.off (h : Reading p done cur) (hc : c ≠ 10)
    (hevs : ∀ e ∈ evs, e.type ≠ .headerEnd) (hrx : q.rx.bodyContent = false) (hcl : q.cl = p.cl)
    (hcur : (lengthValue cur).getD [] = []) (hoff : Off (cur ++ [c]))
    (hline : q.state.line.Holds done (cur ++ [c])) : LineOutcome p done cur c (true, q, evs) := by
  refine h.char hc hevs hrx hcl (.inr ?_) hline
  rw [hoff.value, hcur]
  rfl

/-- A digit of a declared length is counted as the next digit of its value. -/
theorem Reading.digit {nm v : List UInt8} (h : Reading p done cur) (hdone : done ≠ [])
    (hcur : cur = nm ++ v) (hnm : nm.map lower = lengthName)
    (hc : c ≠ 32 ∧ c ≠ 13 ∧ 48 ≤ c.toNat ∧ c.toNat ≤ 57) :
    (p.cl * 10 + (c.toUInt32 - 48)).toNat = decimal (lengthDigits (done ++ [cur ++ [c]])) := by
  have hvalue := h.value
  have hcapped := h.capped
  obtain ⟨hspace, hcr, hlow, hhigh⟩ := hc
  rw [lengthDigits_snoc hdone, hcur, lengthValue_append hnm] at hvalue
  rw [lengthDigits_snoc hdone, hcur, List.append_assoc, lengthValue_append hnm, List.filter_append]
  have hsingle : ([c].filter fun c => c ≠ 32 ∧ c ≠ 13) = [c] := by simp [hspace, hcr]
  rw [hsingle, Option.getD_some, ← List.append_assoc, decimal_snoc]
  rw [Option.getD_some] at hvalue
  rw [← hvalue]
  have hdigit : (c.toUInt32 - 48).toNat = c.toNat - 48 := by
    rw [UInt32.toNat_sub_of_le]
    · rfl
    · show 48 ≤ c.toUInt32.toNat
      simpa using hlow
  rw [UInt32.toNat_add, UInt32.toNat_mul, hdigit]
  show (p.cl.toNat * 10 % 2 ^ 32 + (c.toNat - 48)) % 2 ^ 32 = _
  omega

/-- A mismatch with the class of a letter is one with the letter. -/
theorem off_of_class {n : Nat} {k : ParserClass} (hcur : cur.map lower = lengthName.take n)
    (hk : nameClasses[n]? = some k) (hc : classOf c ≠ k) : Off (cur ++ [c]) := by
  have hn : n < lengthName.length := (List.getElem?_eq_some_iff.1 hk).1
  refine off_of_mismatch hcur (List.getElem?_eq_getElem hn) fun heq => hc ?_
  have hname : lengthName[n]? = some (lower c) := by
    rw [heq]
    exact List.getElem?_eq_getElem hn
  exact (Option.some.inj (hk.symm.trans ((nameClasses_iff n c).2 hname))).symm

/-- One more letter of `content-length` is the next one of the name, in either case. -/
theorem name_snoc {n : Nat} (hcur : cur.map lower = lengthName.take n)
    (hk : nameClasses[n]? = some (classOf c)) : (cur ++ [c]).map lower = lengthName.take (n + 1) := by
  rw [List.map_append, hcur, List.take_add_one, (nameClasses_iff n c).1 hk]
  rfl

/-- An entry of the table that is a state keeps what is known of the line. -/
theorem reading_goto (h : Reading p done cur) {s : ParserState}
    (hreads : p.state.line.Reads (classOf c) (.goto s) = true) :
    LineOutcome p done cur c (true, { p with step := p.step + 1, state := s }, []) := by
  obtain ⟨hlf, hcr, -, -⟩ := classOf_cases c
  have hnone : ∀ e ∈ ([] : List HttpEvent), e.type ≠ .headerEnd := by simp
  have hhead := h.head
  have hline := h.line
  cases hl : p.state.line with
  | first =>
    rw [hl] at hreads hline
    simp only [LineState.Reads, Bool.or_eq_true, Bool.and_eq_true, decide_eq_true_eq, ne_eq]
      at hreads
    rcases hreads with (⟨hs, hk⟩ | ⟨rfl, hk⟩) | ⟨rfl, hk⟩
    · refine h.char (mt hlf.2 hk) hnone hhead rfl (.inl hline) ?_
      rw [show ParserState.line _ = .first from hs]
      exact hline
    · refine h.char ?_ hnone hhead rfl (.inl hline) trivial
      rw [hcr.1 hk]
      decide
    · exact h.lf (hlf.1 hk) hnone hhead rfl rfl
  | eol =>
    rw [hl] at hreads
    simp only [LineState.Reads, Bool.and_eq_true, decide_eq_true_eq] at hreads
    obtain ⟨rfl, hk⟩ := hreads
    exact h.lf (hlf.1 hk) hnone hhead rfl rfl
  | name n =>
    rw [hl] at hreads hline
    obtain ⟨hdone, hcur⟩ := hline
    simp only [LineState.Reads, Bool.or_eq_true, Bool.and_eq_true, decide_eq_true_eq] at hreads
    rcases hreads with ⟨hs, hk⟩ | ⟨⟨rfl, rfl⟩, hk⟩
    · have hsnoc := name_snoc hcur hk
      have hnot : c ≠ 10 := by
        rintro rfl
        have hname := (nameClasses_iff n 10).1 hk
        have : (10 : UInt8) ∈ lengthName := List.mem_of_getElem? hname
        exact absurd this (by decide)
      refine h.char hnot hnone hhead rfl (.inr ?_) ?_
      · rw [lengthValue_name hsnoc, lengthValue_name hcur]
      · rw [show ParserState.line _ = .name (n + 1) from hs]
        exact ⟨hdone, hsnoc⟩
    · have hoff : Off (cur ++ [c]) := by
        refine off_of_class hcur (k := .c) rfl ?_
        rw [hk]
        decide
      refine h.off ?_ hnone hhead rfl (lengthValue_name hcur) hoff hdone
      rw [hcr.1 hk]
      decide
  | body =>
    rw [hl] at hline
    exact hline.elim
  | other =>
    rw [hl] at hreads
    exact Bool.noConfusion hreads
  | value =>
    rw [hl] at hreads
    exact Bool.noConfusion hreads
  | digits =>
    rw [hl] at hreads
    exact Bool.noConfusion hreads
  | fin =>
    rw [hl] at hreads
    exact Bool.noConfusion hreads

/-- One event that is not `HTTP_HEADER_END`. -/
theorem emit_ne_headerEnd {type : CallbackType} (htype : type ≠ .headerEnd) (value : Int32)
    (p : HttpParser) : ∀ e ∈ (emit record type value (p, [])).2, e.type ≠ .headerEnd := by
  simpa [emit, record] using htype

/-- The actions of the first line neither end the headers nor begin a body. -/
theorem perform_first {a : ParserAction} (ha : a ∈ [.mg, .mp, .pe, .ha, .hb, .ea, .eb, .pc, .qs])
    (hhead : p.rx.bodyContent = false) (k : ParserClass) :
    ∃ q evs, perform record a c k (p, []) = (true, q, evs) ∧ (∀ e ∈ evs, e.type ≠ .headerEnd) ∧
      q.rx.bodyContent = false ∧ q.cl = p.cl ∧ q.state.line = .first := by
  have hpath : ∀ p, pathOrQs p ≠ .headerEnd := by
    intro p
    unfold pathOrQs
    split <;> simp
  have hgo : ∀ s (evs : List HttpEvent), s.line = .first → (∀ e ∈ evs, e.type ≠ .headerEnd) →
      ∃ q evs', (true, p.goto s, evs) = (true, q, evs') ∧ (∀ e ∈ evs', e.type ≠ .headerEnd) ∧
        q.rx.bodyContent = false ∧ q.cl = p.cl ∧ q.state.line = .first :=
    fun s evs hs hevs => ⟨_, _, rfl, hevs, hhead, rfl, hs⟩
  simp only [List.mem_cons, List.not_mem_nil, or_false] at ha
  rcases ha with rfl | rfl | rfl | rfl | rfl | rfl | rfl | rfl | rfl
  · exact hgo .pt _ rfl (emit_ne_headerEnd (by simp) _ p)
  · exact ⟨p.startPost, [⟨.method, 1, p.step⟩], rfl, by simp, hhead, rfl, rfl⟩
  · simp only [perform]
    split
    · exact hgo .h1 _ rfl (by simp)
    · exact hgo .h1 [⟨.pathEnd, 0, p.step⟩] rfl (by simp)
  · exact hgo .h7 _ rfl (emit_ne_headerEnd (by simp) _ p)
  · exact hgo .el _ rfl (emit_ne_headerEnd (by simp) _ p)
  · have hended : bodyAsEnded p = (false, p) := if_neg (by simp [hhead])
    simp only [perform, hended]
    exact ⟨p.hexed (hexDigit 0 c) c, [], rfl, by simp, hhead, rfl, rfl⟩
  · refine ⟨p.unhexed, [⟨pathOrQs p, Int32.ofNat (hexDigit (p.rx.low.toUInt8 <<< 4) c).toNat, p.step⟩], ?_,
      by simpa using hpath p, hhead, rfl, ?_⟩
    · simp only [perform, emit, record, modify, HttpParser.unhexed, hhead, Bool.false_eq_true,
        if_false, List.nil_append]
    · simp only [HttpParser.unhexed, hhead, Bool.false_eq_true, if_false]
      rfl
  · exact hgo .pt [⟨pathOrQs p, _, p.step⟩] rfl (by simpa using hpath p)
  · simp only [perform]
    split
    · exact hgo .pt [⟨pathOrQs p, _, p.step⟩] rfl (by simpa using hpath p)
    · exact ⟨(p.goto .pt).startQs, [⟨.pathEnd, 0, p.step⟩], rfl, by simp, hhead, rfl, rfl⟩

/-- The line feed behind the headers ends them, with the length as it was counted. -/
theorem perform_headerEnd (hc : c = 10) (k : ParserClass) (step : UInt32) :
    LineOutcome p done cur c (perform record .eh c k ({ p with step := step }, [])) := by
  simp only [perform, emit, record, modify]
  by_cases hpost : p.rx.post = true
  · simp only [hpost, if_true]
    split
    · exact .ends _ _ hc ⟨⟨.headerEnd, 0, step⟩, List.mem_cons_self .., rfl⟩ rfl
    · exact .ends _ _ hc ⟨⟨.headerEnd, 0, step⟩, List.mem_cons_self .., rfl⟩ rfl
  · simp only [Bool.not_eq_true] at hpost
    simp only [hpost, Bool.false_and, Bool.false_eq_true, if_false]
    exact .ends _ _ hc ⟨⟨.headerEnd, 0, step⟩, List.mem_cons_self .., rfl⟩ rfl

/-- The end of a line in a value: a line feed ends it, a carriage return is part of it. -/
theorem Reading.ending (h : Reading p done cur) (hk : classOf c = .cr ∨ classOf c = .lf)
    (hevs : ∀ e ∈ evs, e.type ≠ .headerEnd)
    (hvalue : done = [] ∨ (lengthValue (cur ++ [13])).getD [] = (lengthValue cur).getD [])
    (step : UInt32) :
    LineOutcome p done cur c
      (true, { p with step := step, state := if classOf c = .cr then .er else .c1 }, evs) := by
  obtain ⟨hlf, hcr, -, -⟩ := classOf_cases c
  rcases hk with hk | hk
  · obtain rfl := hcr.1 hk
    exact h.char (by decide) hevs h.head rfl hvalue trivial
  · obtain rfl := hlf.1 hk
    exact h.lf rfl hevs h.head rfl rfl

theorem perform_digit (c : UInt8) (k : ParserClass) (p : HttpParser) (log : List HttpEvent) :
    perform record .vc c k (p, log) = if (p.addDigit c).cl > 1048576 then (false, p.addDigit c, log)
      else (true, (p.addDigit c).goto .cv, log) := rfl

/-- An entry of the table that is an action keeps what is known of the line. -/
theorem reading_perform (h : Reading p done cur) {a : ParserAction}
    (hreads : p.state.line.Reads (classOf c) (.act a) = true) :
    LineOutcome p done cur c
      (perform record a c (classOf c) ({ p with step := p.step + 1 }, [])) := by
  obtain ⟨hlf, hcr, hspace, hdigit⟩ := classOf_cases c
  have hhead := h.head
  have hline := h.line
  cases hl : p.state.line with
  | first =>
    rw [hl] at hreads hline
    simp only [LineState.Reads, Bool.and_eq_true, decide_eq_true_eq, ne_eq] at hreads
    obtain ⟨q, evs, hperform, hevs, hrx, hcl, hfirst⟩ := perform_first (c := c)
      (p := { p with step := p.step + 1 }) hreads.2 hhead (classOf c)
    rw [hperform]
    refine h.char (mt hlf.2 hreads.1) hevs hrx hcl (.inl hline) ?_
    rw [hfirst]
    exact hline
  | eol =>
    rw [hl] at hreads
    exact Bool.noConfusion hreads
  | name n =>
    rw [hl] at hreads hline
    obtain ⟨hdone, hcur⟩ := hline
    simp only [LineState.Reads, Bool.or_eq_true, Bool.and_eq_true, decide_eq_true_eq, ne_eq,
      Option.any_eq_true] at hreads
    rcases hreads with (⟨⟨ha, hk⟩, k, hkn, hne⟩ | ⟨⟨rfl, rfl⟩, hk⟩) | ⟨⟨rfl, rfl⟩, hk⟩
    · have hoff : Off (cur ++ [c]) := off_of_class hcur hkn (Ne.symm hne)
      rcases ha with rfl | rfl
      · exact h.off (mt hlf.2 hk) (emit_ne_headerEnd (by simp) _ _) hhead rfl (lengthValue_name hcur) hoff
          ⟨hdone, hoff⟩
      · exact h.off (mt hlf.2 hk) (emit_ne_headerEnd (by simp) _ _) hhead rfl (lengthValue_name hcur) hoff
          ⟨hdone, hoff⟩
    · exact perform_headerEnd (hlf.1 hk) _ _
    · obtain rfl := hspace.1 hk
      refine h.char (by decide) (emit_ne_headerEnd (by simp) _ _) hhead rfl (.inr ?_)
        ⟨hdone, cur, [32], rfl, hcur⟩
      rw [lengthValue_name hcur, lengthValue_append (v := [32]) hcur]
      rfl
  | other =>
    rw [hl] at hreads hline
    obtain ⟨hdone, hoff⟩ := hline
    have hcur : (lengthValue cur).getD [] = [] := by rw [hoff.value]; rfl
    simp only [LineState.Reads, Bool.or_eq_true, Bool.and_eq_true, decide_eq_true_eq, ne_eq]
      at hreads
    obtain ⟨rfl | rfl, hk⟩ := hreads
    · exact h.off (mt hlf.2 hk) (emit_ne_headerEnd (by simp) _ _) hhead rfl hcur (hoff.snoc c)
        ⟨hdone, hoff.snoc c⟩
    · exact h.off (mt hlf.2 hk) (emit_ne_headerEnd (by simp) _ _) hhead rfl hcur (hoff.snoc c)
        ⟨hdone, hoff.snoc c⟩
  | value =>
    rw [hl] at hreads hline
    obtain ⟨hdone, hoff⟩ := hline
    have hcur : (lengthValue cur).getD [] = [] := by rw [hoff.value]; rfl
    simp only [LineState.Reads, Bool.or_eq_true, Bool.and_eq_true, decide_eq_true_eq, ne_eq]
      at hreads
    rcases hreads with ⟨rfl, hk⟩ | ⟨rfl, hk⟩
    · exact h.off (mt hlf.2 hk) (emit_ne_headerEnd (by simp) _ _) hhead rfl hcur (hoff.snoc c)
        ⟨hdone, hoff.snoc c⟩
    · refine h.ending hk (emit_ne_headerEnd (by simp) _ _) (.inr ?_) _
      rw [hcur, (hoff.snoc 13).value]
      rfl
  | digits =>
    rw [hl] at hreads hline
    obtain ⟨hdone, nm, v, hcur, hnm⟩ := hline
    simp only [LineState.Reads, Bool.or_eq_true, Bool.and_eq_true, decide_eq_true_eq] at hreads
    rcases hreads with ⟨rfl, hk⟩ | ⟨rfl, hk⟩
    · have hvalue := h.digit hdone hcur hnm (hdigit hk)
      rw [perform_digit]
      by_cases hcap : (HttpParser.addDigit c { p with step := p.step + 1 }).cl > 1048576
      · rw [if_pos hcap]
        exact .refused _ _
      · rw [if_neg hcap]
        refine .char _ _ ?_ (by simp) ⟨hhead, hvalue, ?_, ⟨hdone, nm, v ++ [c], ?_, hnm⟩⟩
        · rintro rfl
          exact absurd (hdigit hk).2.2.1 (by decide)
        · exact UInt32.not_lt.1 hcap
        · rw [hcur, List.append_assoc]
    · refine h.ending hk (emit_ne_headerEnd (by simp) _ _) (.inr ?_) _
      rw [hcur, List.append_assoc, lengthValue_append hnm, lengthValue_append hnm,
        List.filter_append]
      simp
  | fin =>
    rw [hl] at hreads
    simp only [LineState.Reads, Bool.and_eq_true, decide_eq_true_eq] at hreads
    obtain ⟨rfl, hk⟩ := hreads
    exact perform_headerEnd (hlf.1 hk) _ _
  | body =>
    rw [hl] at hline
    exact hline.elim

/-- **One byte** of the headers keeps what is known of the lines that were read. -/
theorem reading_parse (h : Reading p done cur) (c : UInt8) :
    LineOutcome p done cur c (parseHttpChar record c (p, [])) := by
  have hreads := stateTransitionTable_reads p.state (classOf c)
  by_cases hbad : classOf c = .nul ∨ p.rx.ready = true
  · rw [parseHttpChar_refused record [] hbad]
    exact .refused _ _
  · rw [parseHttpChar_enter record [] hbad]
    revert hreads
    cases stateTransitionTable p.state (classOf c) with
    | xx =>
      intro _
      exact .refused _ _
    | goto s =>
      intro hreads
      exact reading_goto h hreads
    | act a =>
      intro hreads
      exact reading_perform h hreads

end LineOutcome

/-! ## The headers -/

theorem resetting_record : Resetting record :=
  ⟨fun _ _ _ _ => rfl, fun _ _ _ _ => rfl, fun _ _ _ => .inl rfl⟩

theorem replay_record (log evs : List HttpEvent) : replay record log evs = log ++ evs := by
  induction evs generalizing log with
  | nil => exact (List.append_nil log).symm
  | cons e evs ih =>
    show replay record (log ++ [e]) evs = log ++ e :: evs
    rw [ih, List.append_assoc]
    rfl

/-- What a byte does is the same behind any log, to which its events are added. -/
theorem parse_record (c : UInt8) (p : HttpParser) (log : List HttpEvent) :
    parseHttpChar record c (p, log) = ((parseHttpChar record c (p, [])).1,
      (parseHttpChar record c (p, [])).2.1, log ++ (parseHttpChar record c (p, [])).2.2) := by
  obtain ⟨hok, hend⟩ := parse_mirrors resetting_record c p log
  refine Prod.ext hok ?_
  rcases hend with hsame | ⟨evs, e, hevs, -, hx⟩
  · exact Prod.ext hsame.parser (hsame.context.trans (replay_record _ _))
  · rw [hx, hevs, replay_record]
    exact Prod.ext rfl (List.append_assoc _ _ _)

/-- What the parser knows of the bytes it has read. -/
def Reads (p : HttpParser) (bs : List UInt8) : Prop :=
  ∃ done cur, bs.splitOn 10 = done ++ [cur] ∧ Reading p done cur

theorem reads_reset : Reads .reset [] := ⟨[], [], rfl, reading_reset⟩

/-- A byte that does not end the headers. -/
theorem reads_parse {p q : HttpParser} {bs : List UInt8} {c : UInt8} {evs : List HttpEvent}
    (h : Reads p bs) (hparse : parseHttpChar record c (p, []) = (true, q, evs))
    (hevs : ∀ e ∈ evs, e.type ≠ .headerEnd) : Reads q (bs ++ [c]) := by
  obtain ⟨done, cur, hsplit, hreading⟩ := h
  have hout := reading_parse hreading c
  rw [hparse] at hout
  cases hout with
  | char q evs hc _ hnext => exact ⟨done, cur ++ [c], splitOn_snoc hsplit hc, hnext⟩
  | lf q evs hc _ hnext =>
    subst hc
    exact ⟨done ++ [cur], [], splitOn_snoc_lf hsplit, hnext⟩
  | ends q evs _ hend _ =>
    obtain ⟨e, he, htype⟩ := hend
    exact absurd htype (hevs e he)

theorem feed_record_log (cs : List UInt8) (p : HttpParser) (log : List HttpEvent) :
    log <+: (feed record cs (p, log)).2.2 := by
  induction cs generalizing p log with
  | nil => exact List.prefix_rfl
  | cons c cs ih =>
    rw [feed, parse_record]
    rcases parseHttpChar record c (p, []) with ⟨_ | _, q, evs⟩
    · exact List.prefix_append log evs
    · exact (List.prefix_append log evs).trans (ih q _)

/-- Bytes that do not end the headers. -/
theorem reads_feed {cs : List UInt8} {p q : HttpParser} {bs : List UInt8}
    {log log' : List HttpEvent} (h : Reads p bs)
    (hfeed : feed record cs (p, log) = (true, q, log'))
    (hlog : ∀ e ∈ log', e.type ≠ .headerEnd) : Reads q (bs ++ cs) := by
  induction cs generalizing p bs log with
  | nil =>
    obtain ⟨rfl, rfl⟩ := Prod.mk.inj (Prod.mk.inj hfeed).2
    rwa [List.append_nil]
  | cons c cs ih =>
    rw [feed, parse_record] at hfeed
    rcases hparse : parseHttpChar record c (p, []) with ⟨_ | _, q', evs⟩
    · rw [hparse] at hfeed
      exact Bool.noConfusion (Prod.mk.inj hfeed).1
    · rw [hparse] at hfeed
      have hinit : log ++ evs <+: log' := by
        have := feed_record_log cs q' (log ++ evs)
        rwa [show feed record cs (q', log ++ evs) = (true, q, log') from hfeed] at this
      have hevs : ∀ e ∈ evs, e.type ≠ .headerEnd := fun e he =>
        hlog e (hinit.subset (List.mem_append_right _ he))
      have := ih (reads_parse h hparse hevs) hfeed
      rwa [List.append_assoc] at this

/-- The prefixes of a header section. -/
theorem reads_initial {pre pre' : List UInt8} {p q : HttpParser} {log log' : List HttpEvent}
    (hpre : pre' <+: pre) (hfeed : feed record pre (.reset, []) = (true, p, log))
    (hlog : ∀ e ∈ log, e.type ≠ .headerEnd)
    (hfeed' : feed record pre' (.reset, []) = (true, q, log')) : Reads q pre' := by
  obtain ⟨cs, rfl⟩ := hpre
  rw [feed_append, hfeed', if_pos rfl] at hfeed
  refine reads_feed reads_reset hfeed' fun e he => hlog e ?_
  have := feed_record_log cs q log'
  rw [show feed record cs (q, log') = (true, p, log) from hfeed] at this
  exact this.subset he

/-- **The length behind the headers** is spelled by the digits of all `Content-Length` headers. -/
theorem headerSection_cl {bs : List UInt8} {p : HttpParser} (h : HeaderSection bs p) :
    p.cl.toNat = decimal (contentLengths bs).flatten ∧ p.cl.toNat ≤ 1048576 := by
  obtain ⟨pre, c, q, log, evs, rfl, hfeed, hlog, hparse, e, he, htype⟩ := h
  obtain ⟨done, cur, hsplit, hreading⟩ := reads_initial List.prefix_rfl hfeed hlog hfeed
  have hout := reading_parse hreading c
  rw [hparse] at hout
  cases hout with
  | char q evs _ hnone _ => exact absurd htype (hnone e he)
  | lf q evs _ hnone _ => exact absurd htype (hnone e he)
  | ends q evs hc _ hcl =>
    subst hc
    have hlines : (contentLengths (pre ++ [10])).flatten = lengthDigits (done ++ [cur]) := by
      unfold contentLengths
      rw [splitOn_snoc_lf hsplit]
      exact lengthDigits_lf done cur
    rw [hcl, hlines]
    exact ⟨hreading.value, hreading.capped⟩

/-- **The declared length**: `cl` is the value of each `Content-Length` header if and only if there
is at most one, or all of them are 0. -/
theorem declared_length_iff {bs : List UInt8} {p : HttpParser} (h : HeaderSection bs p) :
    DeclaredLength bs p ↔
      (contentLengths bs).length ≤ 1 ∨ ∀ v ∈ contentLengths bs, decimal v = 0 := by
  obtain ⟨hcl, hcap⟩ := headerSection_cl h
  rw [← decimal_flatten_iff]
  constructor
  · intro hdecl v hv
    rw [← hcl, hdecl.each v hv]
  · intro heach
    refine ⟨fun v hv => hcl.trans (heach v hv), fun hnil => ?_, hcap, ?_⟩
    · rw [hnil] at hcl
      exact UInt32.toNat_inj.1 hcl
    · intro pre' q' log' hpre' hfeed'
      have hbound : q'.cl.toNat ≤ 1048576 := by
        obtain ⟨pre, c, q, log, evs, rfl, hfeed, hlog, hparse, -⟩ := h
        rcases List.prefix_concat_iff.1 hpre' with rfl | hpre
        · rw [feed_append, hfeed, if_pos rfl, feed, parse_record, hparse] at hfeed'
          obtain rfl := (Prod.mk.inj (Prod.mk.inj hfeed').2).1
          exact hcap
        · obtain ⟨done, cur, -, hreading⟩ := reads_initial hpre hfeed hlog hfeed'
          exact hreading.capped
      omega

/-- A request that is read to the end of its headers. -/
theorem headerSection_of_feed {pre : List UInt8} {c : UInt8}
    (hfeed : (feed record pre (.reset, [])).1 = true)
    (hlog : ∀ e ∈ (feed record pre (.reset, [])).2.2, e.type ≠ .headerEnd)
    (hparse : (parseHttpChar record c ((feed record pre (.reset, [])).2.1, [])).1 = true)
    (hevs : ∃ e ∈ (parseHttpChar record c ((feed record pre (.reset, [])).2.1, [])).2.2,
      e.type = .headerEnd) :
    HeaderSection (pre ++ [c])
      (parseHttpChar record c ((feed record pre (.reset, [])).2.1, [])).2.1 :=
  ⟨pre, c, _, _, _, rfl, Prod.ext hfeed rfl, hlog, Prod.ext hparse rfl, hevs⟩

/-- `GET /`, `Content-Length: 5`. -/
def oneLength : List UInt8 :=
  [71, 69, 84, 32, 47, 32, 72, 84, 84, 80, 47, 49, 46, 48, 10, 67, 111, 110, 116, 101, 110,
   116, 45, 76, 101, 110, 103, 116, 104, 58, 32, 53, 10]

/-- `GET /`, `Content-Length: 1`, `Content-Length: 2`. -/
def twoLengths : List UInt8 :=
  [71, 69, 84, 32, 47, 32, 72, 84, 84, 80, 47, 49, 46, 48, 10, 67, 111, 110, 116, 101, 110,
   116, 45, 76, 101, 110, 103, 116, 104, 58, 32, 49, 10, 67, 111, 110, 116, 101, 110, 116, 45,
   76, 101, 110, 103, 116, 104, 58, 32, 50, 10]

theorem declared_length_iff_one :
    DeclaredLength (oneLength ++ [10])
      (parseHttpChar record 10 ((feed record oneLength (.reset, [])).2.1, [])).2.1 :=
  (declared_length_iff (headerSection_of_feed (by decide) (by decide)
    (by decide) (by decide))).2 (.inl (by decide))

/-- Of two lengths, 1 and 2, the parser makes 12. -/
theorem declared_length_fails :
    ¬ ∀ bs p, HeaderSection bs p → DeclaredLength bs p := by
  intro h
  have hdecl := h _ _ (@headerSection_of_feed twoLengths 10 (by decide)
    (by decide) (by decide) (by decide))
  have heach := hdecl.each [49] (by decide)
  exact absurd heach (by decide)

end Ape.Http
