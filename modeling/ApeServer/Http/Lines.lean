import ApeServer.Http.Length

/-!
# What the events of a header line spell

The parser looks for `Content-Length` with states of its own, one for each letter of the name.  A
letter that is expected moves on to the next state without an event, and on any other letter the
parser falls back to the plain header name; the letters it has passed are not reported any more.

* `HeaderLine` — a line that the parser takes from its first byte to its end;
* `shared` — how many letters a name has in common with `Content-Length`;
* `name_feed` — **the events of a name spell what is left of it behind those letters**;
* `headerLine_spells_iff` — a line is spelled as it is read **iff its name does not begin with a
  `c`**.
-/

namespace Ape.Http

open CString (lower)

/-! ## Header lines -/

/-- The events `evs` are of the type `t`, one for each of the bytes `bs`. -/
def Bytes (t : CallbackType) (bs : List UInt8) (evs : List HttpEvent) : Prop :=
  evs.map (fun e => (e.type, e.value)) = bs.map fun c => (t, Int32.ofNat c.toNat)

/-- The events of a line spell its name up to `HTTP_HEADER_KEY` and its value up to
`HTTP_HEADER_VAL`. -/
def Spells (name value : List UInt8) (log : List HttpEvent) : Prop :=
  ∃ keys key vals val, log = keys ++ key :: vals ++ [val] ∧ Bytes .headerKeyc name keys ∧
    key.type = .headerKey ∧ Bytes .headerValc value vals ∧ val.type = .headerVal

/-- What the parser reports for the line `name:value`, which `ending` ends. -/
def lineEvents (p : HttpParser) (name value : List UInt8) (ending : UInt8) :
    Bool × HttpParser × List HttpEvent :=
  feed record (name ++ 58 :: (value ++ [ending])) (p, [])

/-- `name:value` is a header line, other than one of `Content-Length`, that the parser takes. -/
structure HeaderLine (p : HttpParser) (name value : List UInt8) (ending : UInt8) : Prop where
  start : p.state = .c1
  inName : ∀ c ∈ name, c ≠ 58 ∧ c ≠ 13 ∧ c ≠ 10
  inValue : ∀ c ∈ value, c ≠ 13 ∧ c ≠ 10
  ends : ending = 13 ∨ ending = 10
  accepted : (lineEvents p name value ending).1 = true
  plain : name.map lower ++ [58] ≠ lengthName

/-- How many letters `name` has in common with `Content-Length` from the letter `n` on. -/
def shared : Nat → List UInt8 → Nat
  | _, [] => 0
  | n, c :: cs => if lengthName[n]? = some (lower c) then shared (n + 1) cs + 1 else 0

theorem Bytes.nil (t : CallbackType) : Bytes t [] [] := rfl

theorem Bytes.cons {t : CallbackType} {c : UInt8} {bs : List UInt8} {evs : List HttpEvent}
    (h : Bytes t bs evs) (step : UInt32) :
    Bytes t (c :: bs) (⟨t, Int32.ofNat c.toNat, step⟩ :: evs) := by
  rw [Bytes, List.map_cons, List.map_cons, h]

theorem Bytes.type {t : CallbackType} {bs : List UInt8} {evs : List HttpEvent}
    (h : Bytes t bs evs) : ∀ e ∈ evs, e.type = t := by
  intro e he
  have hmem : (e.type, e.value) ∈ bs.map fun c => (t, Int32.ofNat c.toNat) :=
    h ▸ List.mem_map.2 ⟨e, he, rfl⟩
  obtain ⟨c, -, hc⟩ := List.mem_map.1 hmem
  exact (Prod.mk.inj hc).1.symm

theorem Bytes.length {t : CallbackType} {bs : List UInt8} {evs : List HttpEvent}
    (h : Bytes t bs evs) : evs.length = bs.length := by
  have := congrArg List.length h
  rwa [List.length_map, List.length_map] at this

/-- The key events of a line are those in front of `HTTP_HEADER_KEY`. -/
theorem Spells.keys {name value : List UInt8} {log : List HttpEvent} (h : Spells name value log) :
    (log.filter fun e => e.type = .headerKeyc).length = name.length := by
  obtain ⟨keys, key, vals, val, rfl, hkeys, hkey, hvals, hval⟩ := h
  have hall : keys.filter (fun e => e.type = .headerKeyc) = keys :=
    List.filter_eq_self.2 fun e he => by simpa using hkeys.type e he
  have hnone : vals.filter (fun e => e.type = .headerKeyc) = [] :=
    List.filter_eq_nil_iff.2 fun e he => by simp [hvals.type e he]
  simp [List.filter_append, hall, hnone, hkey, hval, hkeys.length]

/-! ## One byte of a line -/

/-- What the table may do with a class in a header line. -/
def LineState.Takes (l : LineState) (k : ParserClass) : Cell → Bool
  | .xx => true
  | .goto s =>
    match l with
    | .name n => (s.line = .name (n + 1) && nameClasses[n]? = some k) || k = .cr
    | .other | .value => false
    | _ => true
  | .act a =>
    match l with
    | .name n =>
      (a = .hk && k ≠ .colon && nameClasses[n]? ≠ some k) ||
        (a = .kh && k = .colon && nameClasses[n]? ≠ some k) || k = .lf || n = 15
    | .other => (a = .hk && k ≠ .colon) || (a = .kh && k = .colon)
    | .value => (a = .hv && k ≠ .cr && k ≠ .lf) || (a = .vh && (k = .cr || k = .lf))
    | _ => true

/-- Every entry of the table takes its line as it should. -/
theorem stateTransitionTable_takes (s : ParserState) (k : ParserClass) :
    s.line.Takes k (stateTransitionTable s k) = true := by
  cases s <;> cases k <;> rfl

/-- Only the colon is in the class of the colon. -/
theorem classOf_colon (c : UInt8) : classOf c = .colon ↔ c = 58 := by
  revert c
  apply CString.forall_byte <;> decide

section Byte

variable {c : UInt8} {p q : HttpParser} {log log' : List HttpEvent}

/-- A letter of a name, with or without an event. -/
theorem name_byte (hname : c ≠ 58 ∧ c ≠ 13 ∧ c ≠ 10) {n : Nat} (hn : n < 15)
    (hline : p.state.line = .name n)
    (h : parseHttpChar record c (p, log) = (true, q, log')) :
    (lengthName[n]? = some (lower c) ∧ q.state.line = .name (n + 1) ∧ log' = log) ∨
      lengthName[n]? ≠ some (lower c) ∧ q.state = .hh ∧
        log' = log ++ [⟨.headerKeyc, Int32.ofNat c.toNat, p.step + 1⟩] := by
  obtain ⟨hlf, hcr, -, -⟩ := classOf_cases c
  have hcolon := classOf_colon c
  have htakes := stateTransitionTable_takes p.state (classOf c)
  have henter := parse_accepted h
  rw [hline] at htakes
  rw [ne_eq, ← nameClasses_iff]
  generalize stateTransitionTable p.state (classOf c) = cell at htakes henter
  cases cell with
  | xx => exact Bool.noConfusion (Prod.mk.inj henter).1
  | goto s =>
    have hk : classOf c ≠ .cr := fun hk => hname.2.1 (hcr.1 hk)
    simp only [LineState.Takes, hk, decide_false, Bool.or_false, Bool.and_eq_true,
      decide_eq_true_eq] at htakes
    obtain ⟨rfl, rfl⟩ := Prod.mk.inj (Prod.mk.inj henter).2
    exact Or.inl ⟨htakes.2, htakes.1, rfl⟩
  | act a =>
    have hk : classOf c ≠ .lf := fun hk => hname.2.2 (hlf.1 hk)
    have hcol : classOf c ≠ .colon := fun hk => hname.1 (hcolon.1 hk)
    have hlast : n ≠ 15 := hn.ne
    simp only [LineState.Takes, hk, hcol, hlast, decide_false, Bool.or_false, Bool.and_false,
      Bool.false_and, ne_eq, not_false_eq_true, decide_true, Bool.and_true, Bool.and_eq_true,
      decide_eq_true_eq] at htakes
    obtain ⟨rfl, hne⟩ := htakes
    obtain ⟨rfl, rfl⟩ := Prod.mk.inj (Prod.mk.inj henter).2
    exact Or.inr ⟨hne, rfl, rfl⟩

/-- A letter of a name that is not `content-length` is reported as it is. -/
theorem other_byte (hname : c ≠ 58) (hline : p.state.line = .other)
    (h : parseHttpChar record c (p, log) = (true, q, log')) :
    q.state = .hh ∧ log' = log ++ [⟨.headerKeyc, Int32.ofNat c.toNat, p.step + 1⟩] := by
  have hcol : classOf c ≠ .colon := fun hk => hname ((classOf_colon c).1 hk)
  have htakes := stateTransitionTable_takes p.state (classOf c)
  have henter := parse_accepted h
  rw [hline] at htakes
  generalize stateTransitionTable p.state (classOf c) = cell at htakes henter
  cases cell with
  | xx => exact Bool.noConfusion (Prod.mk.inj henter).1
  | goto s => exact Bool.noConfusion htakes
  | act a =>
    simp only [LineState.Takes, hcol, decide_false, Bool.and_false, Bool.or_false, ne_eq,
      not_false_eq_true, decide_true, Bool.and_true, decide_eq_true_eq] at htakes
    subst htakes
    obtain ⟨rfl, rfl⟩ := Prod.mk.inj (Prod.mk.inj henter).2
    exact ⟨rfl, rfl⟩

/-- A byte of a header value is reported as it is, and the value goes on. -/
theorem value_byte (hvalue : c ≠ 13 ∧ c ≠ 10) (hline : p.state.line = .value)
    (h : parseHttpChar record c (p, log) = (true, q, log')) :
    q.state = .hi ∧ log' = log ++ [⟨.headerValc, Int32.ofNat c.toNat, p.step + 1⟩] := by
  obtain ⟨hlf, hcr, -, -⟩ := classOf_cases c
  have hk : classOf c ≠ .cr := fun hk => hvalue.1 (hcr.1 hk)
  have hk' : classOf c ≠ .lf := fun hk => hvalue.2 (hlf.1 hk)
  have htakes := stateTransitionTable_takes p.state (classOf c)
  have henter := parse_accepted h
  rw [hline] at htakes
  generalize stateTransitionTable p.state (classOf c) = cell at htakes henter
  cases cell with
  | xx => exact Bool.noConfusion (Prod.mk.inj henter).1
  | goto s => exact Bool.noConfusion htakes
  | act a =>
    simp only [LineState.Takes, hk, hk', decide_false, Bool.and_false, Bool.or_false, ne_eq,
      not_false_eq_true, decide_true, Bool.and_true, decide_eq_true_eq] at htakes
    subst htakes
    obtain ⟨rfl, rfl⟩ := Prod.mk.inj (Prod.mk.inj henter).2
    exact ⟨rfl, rfl⟩

/-- The byte that ends a value reports its end. -/
theorem ending_byte (hends : c = 13 ∨ c = 10) (hline : p.state.line = .value)
    (h : parseHttpChar record c (p, log) = (true, q, log')) :
    log' = log ++ [⟨.headerVal, 0, p.step + 1⟩] := by
  obtain ⟨hlf, hcr, -, -⟩ := classOf_cases c
  have hk : classOf c = .cr ∨ classOf c = .lf := hends.imp hcr.2 hlf.2
  have htakes := stateTransitionTable_takes p.state (classOf c)
  have henter := parse_accepted h
  rw [hline] at htakes
  generalize stateTransitionTable p.state (classOf c) = cell at htakes henter
  cases cell with
  | xx => exact Bool.noConfusion (Prod.mk.inj henter).1
  | goto s => exact Bool.noConfusion htakes
  | act a =>
    have ha : a = .vh := by
      simp only [LineState.Takes, Bool.or_eq_true, Bool.and_eq_true, decide_eq_true_eq, ne_eq] at htakes
      rcases htakes with ⟨⟨-, hncr⟩, hnlf⟩ | ⟨ha, -⟩
      · exact absurd hk (not_or.2 ⟨hncr, hnlf⟩)
      · exact ha
    subst ha
    exact (Prod.mk.inj (Prod.mk.inj henter).2).2.symm

/-- The colon behind a name, unless the name is `Content-Length`. -/
theorem colon_byte (hline : p.state.line = .other ∨ ∃ n < 14, p.state.line = .name n)
    (h : parseHttpChar record 58 (p, log) = (true, q, log')) :
    q.state = .hi ∧ log' = log ++ [⟨.headerKey, 0, p.step + 1⟩] := by
  have hk : classOf 58 = .colon := (classOf_colon 58).2 rfl
  have htakes := stateTransitionTable_takes p.state (classOf 58)
  have henter := parse_accepted h
  generalize stateTransitionTable p.state (classOf 58) = cell at htakes henter
  have hkh : cell = .act .kh ∨ cell = .xx := by
    rw [hk] at htakes
    rcases hline with hline | ⟨n, hn, hline⟩
    · rw [hline] at htakes
      cases cell with
      | xx => exact Or.inr rfl
      | goto s => exact Bool.noConfusion htakes
      | act a => exact Or.inl (by simpa [LineState.Takes] using htakes)
    · have hclass : nameClasses[n]? ≠ some .colon := by
        have hall : ∀ n < 14, nameClasses[n]? ≠ some .colon := by decide
        exact hall n hn
      have hlast : n ≠ 15 := by omega
      rw [hline] at htakes
      cases cell with
      | xx => exact Or.inr rfl
      | goto s => simp [LineState.Takes, hclass] at htakes
      | act a => exact Or.inl (by simpa [LineState.Takes, hclass, hlast] using htakes)
  rcases hkh with rfl | rfl
  · obtain ⟨rfl, rfl⟩ := Prod.mk.inj (Prod.mk.inj henter).2
    exact ⟨rfl, rfl⟩
  · exact Bool.noConfusion (Prod.mk.inj henter).1

end Byte

/-! ## Whole lines -/

/-- Letters of any other name are reported one by one. -/
theorem other_feed {bs : List UInt8} (hbs : ∀ c ∈ bs, c ≠ 58) {p q : HttpParser}
    {log log' : List HttpEvent} (hstate : p.state = .hh)
    (h : feed record bs (p, log) = (true, q, log')) :
    ∃ evs, log' = log ++ evs ∧ Bytes .headerKeyc bs evs ∧ q.state = .hh := by
  induction bs generalizing p log with
  | nil =>
    obtain ⟨rfl, rfl⟩ := Prod.mk.inj (Prod.mk.inj h).2
    exact ⟨[], (List.append_nil _).symm, .nil _, hstate⟩
  | cons c cs ih =>
    obtain ⟨p₁, log₁, hparse, hrest⟩ := feed_cons h
    obtain ⟨hstate₁, rfl⟩ := other_byte (hbs c (List.mem_cons_self ..)) (by rw [hstate]; rfl) hparse
    obtain ⟨evs, rfl, hevs, hq⟩ := ih (fun d hd => hbs d (List.mem_cons_of_mem _ hd)) hstate₁ hrest
    exact ⟨_, List.append_assoc _ _ _, hevs.cons _, hq⟩

/-- Bytes of a value are reported one by one. -/
theorem value_feed {bs : List UInt8} (hbs : ∀ c ∈ bs, c ≠ 13 ∧ c ≠ 10) {p q : HttpParser}
    {log log' : List HttpEvent} (hstate : p.state = .hi)
    (h : feed record bs (p, log) = (true, q, log')) :
    ∃ evs, log' = log ++ evs ∧ Bytes .headerValc bs evs ∧ q.state = .hi := by
  induction bs generalizing p log with
  | nil =>
    obtain ⟨rfl, rfl⟩ := Prod.mk.inj (Prod.mk.inj h).2
    exact ⟨[], (List.append_nil _).symm, .nil _, hstate⟩
  | cons c cs ih =>
    obtain ⟨p₁, log₁, hparse, hrest⟩ := feed_cons h
    obtain ⟨hstate₁, rfl⟩ := value_byte (hbs c (List.mem_cons_self ..)) (by rw [hstate]; rfl) hparse
    obtain ⟨evs, rfl, hevs, hq⟩ := ih (fun d hd => hbs d (List.mem_cons_of_mem _ hd)) hstate₁ hrest
    exact ⟨_, List.append_assoc _ _ _, hevs.cons _, hq⟩

/-- The letters of `Content-Length` are none that a name ends with. -/
theorem lengthName_none {c : UInt8} (hc : c ≠ 58) {n : Nat} (hn : 14 ≤ n) :
    lengthName[n]? ≠ some (lower c) := by
  intro h
  obtain rfl : n = 14 := by
    have hlt := (List.getElem?_eq_some_iff.1 h).1
    simp [lengthName] at hlt
    omega
  have hcolon : lower c = 58 := (Option.some.inj h).symm
  have htable : ∀ c, lower c = 58 → c = 58 := CString.forall_byte (by decide) (by decide)
  exact hc (htable c hcolon)

/-- **The events of a name** spell what is left of it behind the letters it shares with
`Content-Length`. -/
theorem name_feed {bs : List UInt8} (hbs : ∀ c ∈ bs, c ≠ 58 ∧ c ≠ 13 ∧ c ≠ 10) {n : Nat}
    (hn : n < 15) {p q : HttpParser} {log log' : List HttpEvent} (hline : p.state.line = .name n)
    (h : feed record bs (p, log) = (true, q, log')) :
    ∃ evs, log' = log ++ evs ∧ Bytes .headerKeyc (bs.drop (shared n bs)) evs ∧
      (q.state = .hh ∨
        q.state.line = .name (n + bs.length) ∧ bs.map lower = (lengthName.drop n).take bs.length) := by
  induction bs generalizing n p log with
  | nil =>
    obtain ⟨rfl, rfl⟩ := Prod.mk.inj (Prod.mk.inj h).2
    exact ⟨[], (List.append_nil _).symm, .nil _, Or.inr ⟨hline, rfl⟩⟩
  | cons c cs ih =>
    obtain ⟨p₁, log₁, hparse, hrest⟩ := feed_cons h
    have hc := hbs c (List.mem_cons_self ..)
    have hcs : ∀ d ∈ cs, d ≠ 58 ∧ d ≠ 13 ∧ d ≠ 10 := fun d hd => hbs d (List.mem_cons_of_mem _ hd)
    rcases name_byte hc hn hline hparse with ⟨hmatch, hline₁, rfl⟩ | ⟨hmiss, hstate₁, rfl⟩
    · have hlt : n < 14 := by
        by_contra hge
        exact lengthName_none hc.1 (Nat.le_of_not_lt hge) hmatch
      obtain ⟨evs, hlog, hevs, hq⟩ := ih hcs (show n + 1 < 15 by omega) hline₁ hrest
      refine ⟨evs, hlog, ?_, hq.imp id fun ⟨hl, htake⟩ => ⟨?_, ?_⟩⟩
      · rw [shared, if_pos hmatch]
        exact hevs
      · rw [hl, List.length_cons]
        congr 1
        omega
      · obtain ⟨hlen, hget⟩ := List.getElem?_eq_some_iff.1 hmatch
        rw [List.map_cons, htake, List.length_cons, List.drop_eq_getElem_cons hlen,
          List.take_succ_cons, hget]
    · obtain ⟨evs, rfl, hevs, hq⟩ := other_feed (fun d hd => (hcs d hd).1) hstate₁ hrest
      refine ⟨_, List.append_assoc _ _ _, ?_, Or.inl hq⟩
      rw [shared, if_neg hmiss]
      exact hevs.cons _

/-- A name whose letters are all those of `Content-Length` is only the beginning of it. -/
theorem HeaderLine.short {p : HttpParser} {name value : List UInt8} {ending : UInt8}
    (h : HeaderLine p name value ending)
    (htake : name.map lower = lengthName.take name.length) : name.length < 14 := by
  by_contra hge
  by_cases hlen : name.length = 14
  · refine h.plain ?_
    rw [htake, hlen]
    rfl
  · -- the fifteenth letter would be the colon
    have hlt : 14 < name.length := by omega
    have hget := congrArg (fun l => l[14]?) htake
    simp only [List.getElem?_map, List.getElem?_take_of_lt hlt, List.getElem?_eq_getElem hlt,
      Option.map_some] at hget
    exact lengthName_none (h.inName _ (List.getElem_mem hlt)).1 le_rfl hget.symm

/-- A line is fed in its parts. -/
theorem feed_append_record {bs cs : List UInt8} {p q : HttpParser} {log log' : List HttpEvent}
    (h : feed record (bs ++ cs) (p, log) = (true, q, log')) :
    ∃ p₁ log₁, feed record bs (p, log) = (true, p₁, log₁) ∧
      feed record cs (p₁, log₁) = (true, q, log') := by
  rw [feed_append] at h
  rcases hfirst : feed record bs (p, log) with ⟨_ | _, p₁, log₁⟩
  · rw [hfirst, if_neg Bool.false_ne_true] at h
    exact Bool.noConfusion (Prod.mk.inj h).1
  · rw [hfirst, if_pos rfl] at h
    exact ⟨p₁, log₁, rfl, h⟩

/-- **What a header line is spelled as**: its name without the letters it shares with
`Content-Length`, and its value. -/
theorem headerLine_spells {p : HttpParser} {name value : List UInt8} {ending : UInt8}
    (h : HeaderLine p name value ending) :
    Spells (name.drop (shared 0 name)) value (lineEvents p name value ending).2.2 := by
  obtain ⟨q, log, hfeed⟩ : ∃ q log, lineEvents p name value ending = (true, q, log) :=
    ⟨_, _, Prod.ext h.accepted rfl⟩
  rw [hfeed]
  obtain ⟨p₁, log₁, hname, hrest⟩ := feed_append_record hfeed
  obtain ⟨p₂, log₂, hcolon, hrest⟩ := feed_cons hrest
  obtain ⟨p₃, log₃, hvalue, hend⟩ := feed_append_record hrest
  obtain ⟨p₄, log₄, hlast, hdone⟩ := feed_cons hend
  obtain ⟨-, rfl⟩ := Prod.mk.inj (Prod.mk.inj hdone).2
  obtain ⟨keys, hlog₁, hkeys, hq⟩ :=
    name_feed h.inName (show 0 < 15 by omega) (by rw [h.start]; rfl) hname
  rw [List.nil_append] at hlog₁
  subst hlog₁
  have hline : p₁.state.line = .other ∨ ∃ n < 14, p₁.state.line = .name n := by
    rcases hq with hq | ⟨hq, htake⟩
    · exact Or.inl (by rw [hq]; rfl)
    · refine Or.inr ⟨name.length, ?_, by simpa using hq⟩
      exact h.short (by simpa using htake)
  obtain ⟨hstate₂, rfl⟩ := colon_byte hline hcolon
  obtain ⟨vals, rfl, hvals, hstate₃⟩ := value_feed h.inValue hstate₂ hvalue
  have hval := ending_byte h.ends (by rw [hstate₃]; rfl) hlast
  refine ⟨log₁, ⟨.headerKey, 0, p₁.step + 1⟩, vals, ⟨.headerVal, 0, p₃.step + 1⟩, ?_, hkeys, rfl,
    hvals, rfl⟩
  rw [hval]
  simp

/-- A name has a letter in common with `Content-Length` if it begins with a `c`. -/
theorem shared_eq_zero_iff (name : List UInt8) :
    shared 0 name = 0 ↔ ∀ c ∈ name.head?, lower c ≠ 99 := by
  cases name with
  | nil => simp [shared]
  | cons c cs =>
    have hfirst : lengthName[0]? = some (lower c) ↔ lower c = 99 := by
      simp [lengthName, eq_comm]
    rw [shared]
    by_cases hc : lower c = 99
    · rw [if_pos (hfirst.2 hc)]
      simp [hc]
    · rw [if_neg fun hmatch => hc (hfirst.1 hmatch)]
      simp [hc]

theorem shared_le_length (n : Nat) (name : List UInt8) : shared n name ≤ name.length := by
  induction name generalizing n with
  | nil => exact Nat.le_refl _
  | cons c cs ih =>
    rw [shared]
    split
    · exact Nat.succ_le_succ (ih _)
    · exact Nat.zero_le _

/-- **A header line is reported as it is read iff its name does not begin with a `c`**, in either
case of the letter. -/
theorem headerLine_spells_iff {p : HttpParser} {name value : List UInt8} {ending : UInt8}
    (h : HeaderLine p name value ending) :
    Spells name value (lineEvents p name value ending).2.2 ↔
      ∀ c ∈ name.head?, lower c ≠ 99 := by
  have hspells := headerLine_spells h
  rw [← shared_eq_zero_iff]
  constructor
  · intro hwhole
    have hlen := hspells.keys.symm.trans hwhole.keys
    rw [List.length_drop] at hlen
    have := shared_le_length 0 name
    omega
  · intro hzero
    rwa [hzero, List.drop_zero] at hspells

/-- The parser behind `GET / HTTP/1.0` and a line feed. -/
def behindRequestLine : HttpParser :=
  (feed record [71, 69, 84, 32, 47, 32, 72, 84, 84, 80, 47, 49, 46, 48, 10] (.reset, [])).2.1

/-- The line `Host: a` is reported with its name and its value. -/
theorem headerLine_spells_iff_host :
    Spells [72, 111, 115, 116] [32, 97]
      (lineEvents behindRequestLine [72, 111, 115, 116] [32, 97] 10).2.2 :=
  (headerLine_spells_iff (show HeaderLine behindRequestLine [72, 111, 115, 116] [32, 97] 10 from
    ⟨by decide, by simp, by simp, Or.inr rfl, by decide, by decide⟩)).2
    (by simp [lower])

/-- Of `Cookie: a` the parser reports `okie`. -/
theorem headerLine_spells_fails :
    HeaderLine behindRequestLine [67, 111, 111, 107, 105, 101] [32, 97] 10 ∧
      ¬ Spells [67, 111, 111, 107, 105, 101] [32, 97]
        (lineEvents behindRequestLine [67, 111, 111, 107, 105, 101] [32, 97] 10).2.2 := by
  refine ⟨⟨by decide, by simp, by simp, Or.inr rfl, by decide, by decide⟩,
    fun h => ?_⟩
  have hlen := h.keys
  revert hlen
  decide

end Ape.Http
