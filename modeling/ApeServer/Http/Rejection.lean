import ApeServer.Http.Stream

/-!
# What a refused byte leaves behind

`parse_http_char` returns 0 for a byte it refuses, but most ways to do so leave the parser where it
was, and the bytes of a later read go on from there.

* `Silent` — a parser that will call nothing any more;
* `silent_parse`, `speaks` — every other parser calls its callback again on some bytes;
* `refused_silent_iff` — **a refused byte ends the request exactly when it leaves such a parser**.
-/

namespace Ape.Http

/-! ## Parsers that are silent -/

/-- A parser that will call nothing any more: the request is ready, or one byte of the body is left
and the first digit of an escape is expected. -/
def Silent (p : HttpParser) : Prop :=
  p.rx.ready = true ∨ (p.rx.bodyContent = true ∧ p.cl = 1 ∧ p.state = .e1)

/-- The refused byte `c` finds such a parser, or is the `%` that would be the last byte of the
body. -/
def Ends (c : UInt8) (p : HttpParser) : Prop :=
  Silent p ∨ (p.rx.bodyContent = true ∧ p.cl = 1 ∧ p.state = .bt ∧ c = '%'.toUInt8)

/-- The last byte of a body is taken off it. -/
theorem bodyAsEnded_one {p : HttpParser} (hbody : p.rx.bodyContent = true) (hcl : p.cl = 1) :
    bodyAsEnded p = (true, p.decCl.setReady) := by
  have hzero : p.decCl.cl = 0 := by
    show p.cl - 1 = 0
    rw [hcl]
    rfl
  simp [bodyAsEnded, hbody, hzero]

/-- Only the last byte of a body ends it. -/
theorem bodyAsEnded_true {p q : HttpParser} (h : bodyAsEnded p = (true, q)) :
    p.rx.bodyContent = true ∧ p.cl = 1 ∧ q.rx.ready = true := by
  unfold bodyAsEnded at h
  simp only at h
  split at h
  · rename_i hbody
    split at h
    · rename_i hzero
      obtain rfl := (Prod.mk.inj h).2
      have hone : p.cl - 1 = 0 := hzero
      exact ⟨hbody, by grind, rfl⟩
    · exact absurd (Prod.mk.inj h).1 (by simp)
  · exact absurd (Prod.mk.inj h).1 (by simp)

/-- In `E1` a byte is a digit or bad. -/
theorem table_e1 (k : ParserClass) :
    stateTransitionTable .e1 k = .xx ∨ stateTransitionTable .e1 k = .act .ea := by
  cases k <;> decide

/-- **A silent parser stays silent.** -/
theorem silent_parse {p : HttpParser} (h : Silent p) (c : UInt8) (log : List HttpEvent) :
    (parseHttpChar record c (p, log)).2.2 = log ∧
      Silent (parseHttpChar record c (p, log)).2.1 := by
  by_cases hbad : classOf c = .nul ∨ p.rx.ready = true
  · rw [parseHttpChar_refused record log hbad]
    exact ⟨rfl, h⟩
  · obtain ⟨hbody, hcl, hstate⟩ := h.resolve_left fun hready => hbad (.inr hready)
    rw [parseHttpChar_enter record log hbad]
    rcases table_e1 (classOf c) with hcell | hcell
    · rw [hstate, hcell, ← hstate]
      exact ⟨rfl, .inr ⟨hbody, hcl, hstate⟩⟩
    · have hended : bodyAsEnded { p with step := p.step + 1 } =
          (true, { p with step := p.step + 1 }.decCl.setReady) := bodyAsEnded_one hbody hcl
      rw [hstate, hcell, ← hstate]
      simp only [enter, perform, hended]
      exact ⟨rfl, .inl rfl⟩

/-- A silent parser stays silent over all bytes that it is fed. -/
theorem silent_feedAll {p : HttpParser} (h : Silent p) (bs : List UInt8) (log : List HttpEvent) :
    (feedAll record bs (p, log)).2 = log := by
  induction bs generalizing p log with
  | nil => rfl
  | cons c cs ih =>
    obtain ⟨hlog, hsilent⟩ := silent_parse h c log
    have hcons : feedAll record (c :: cs) (p, log) =
        feedAll record cs ((parseHttpChar record c (p, log)).2.1,
          (parseHttpChar record c (p, log)).2.2) := rfl
    rw [hcons, ih hsilent, hlog]

/-! ## Parsers that speak -/

/-- Some bytes make the parser call its callback. -/
def Speaks (p : HttpParser) : Prop := ∃ bs, (feedAll record bs (p, [])).2 ≠ []

/-- A byte on the way to the next event. -/
def wakeByte : ParserState → UInt8
  | .go => 'G'.toUInt8
  | .g1 => 'E'.toUInt8
  | .g2 => 'T'.toUInt8
  | .p1 => 'O'.toUInt8
  | .p2 => 'S'.toUInt8
  | .p3 => 'T'.toUInt8
  | .g3 | .p4 | .cg => ' '.toUInt8
  | .h1 => 'H'.toUInt8
  | .h2 | .h3 => 'T'.toUInt8
  | .h4 => 'P'.toUInt8
  | .h5 => '/'.toUInt8
  | .h6 | .h8 => '1'.toUInt8
  | .h7 => '.'.toUInt8
  | .el | .er | .fi | .cv => 10
  | _ => 'a'.toUInt8

/-- How many bytes the next event is away. -/
def wakeRank : ParserState → Nat
  | .go => 3
  | .g1 => 2
  | .g2 => 1
  | .p1 => 3
  | .p2 => 2
  | .p3 => 1
  | .h1 => 5
  | .h2 => 4
  | .h3 => 3
  | .h4 => 2
  | .h5 => 1
  | .h7 | .el | .er => 1
  | _ => 0

/-- The actions that report something whatever the flags are. -/
def ParserAction.Reports : ParserAction → Bool
  | .pe | .vc | .ea | .bh => false
  | _ => true

/-- The body is consumed behind what has been reported. -/
theorem consumeBody_log (p : HttpParser) (e : HttpEvent) (log : List HttpEvent) :
    (consumeBody record (p, log ++ [e])).2 ≠ [] := by
  unfold consumeBody
  simp only
  split <;> simp [emit, record, modify]

theorem perform_reports {a : ParserAction} (h : a.Reports = true) (c : UInt8) (k : ParserClass)
    (p : HttpParser) : (perform record a c k (p, [])).2.2 ≠ [] := by
  cases a
  case pe => exact Bool.noConfusion h
  case vc => exact Bool.noConfusion h
  case ea => exact Bool.noConfusion h
  case bh => exact Bool.noConfusion h
  case bc => exact consumeBody_log _ _ []
  case eb =>
    simp only [perform]
    split <;> split
    · exact consumeBody_log _ _ []
    · simp [emit, record, modify]
    · exact consumeBody_log _ _ []
    · simp [emit, record, modify]
  case eh =>
    simp only [perform]
    split <;> split <;> simp [emit, record, modify]
  case qs =>
    simp only [perform]
    split <;> simp [emit, record, modify]
  all_goals simp [perform, emit, record, modify]

/-- A cell that leads closer to an event, or to the event. -/
def Cell.wakes (rank : Nat) : Cell → Bool
  | .goto s => wakeRank s < rank && s ≠ .e1
  | .act a => a.Reports
  | .xx => false

/-- The byte leads one byte closer to an event, or to the event. -/
theorem wake_table (s : ParserState) (hs : s ≠ .e1) :
    classOf (wakeByte s) ≠ .nul ∧
      ((∃ s', stateTransitionTable s (classOf (wakeByte s)) = .goto s' ∧
          wakeRank s' < wakeRank s ∧ s' ≠ .e1) ∨
        ∃ a, stateTransitionTable s (classOf (wakeByte s)) = .act a ∧ a.Reports = true) := by
  have hnul : classOf (wakeByte s) ≠ .nul := by cases s <;> decide
  have hcheck : (stateTransitionTable s (classOf (wakeByte s))).wakes (wakeRank s) = true := by
    cases s
    case e1 => exact absurd rfl hs
    all_goals decide
  refine ⟨hnul, ?_⟩
  cases hcell : stateTransitionTable s (classOf (wakeByte s)) with
  | xx => simp [hcell, Cell.wakes] at hcheck
  | act a => exact .inr ⟨a, rfl, by simpa [hcell, Cell.wakes] using hcheck⟩
  | goto s' =>
    simp only [hcell, Cell.wakes, Bool.and_eq_true, decide_eq_true_eq] at hcheck
    exact .inl ⟨s', rfl, hcheck.1, hcheck.2⟩

/-- A byte without an event before a parser that speaks. -/
theorem Speaks.before {p q : HttpParser} (h : Speaks q) {ok : Bool} (c : UInt8)
    (hparse : parseHttpChar record c (p, []) = (ok, q, [])) : Speaks p := by
  obtain ⟨bs, hbs⟩ := h
  refine ⟨c :: bs, ?_⟩
  show (feedAll record bs (parseHttpChar record c (p, [])).2).2 ≠ []
  rwa [hparse]

/-- Outside of `E1` the parser always speaks. -/
theorem speaks_of_state {p : HttpParser} (hready : p.rx.ready = false) (hs : p.state ≠ .e1) :
    Speaks p := by
  induction hrank : wakeRank p.state using Nat.strong_induction_on generalizing p with
  | _ n ih =>
    obtain ⟨hnul, hcell⟩ := wake_table p.state hs
    have hbad : ¬ (classOf (wakeByte p.state) = .nul ∨ p.rx.ready = true) := by
      simp [hnul, hready]
    have henter := parseHttpChar_enter record [] hbad
    rcases hcell with ⟨s', hgoto, hlt, hs'⟩ | ⟨a, hact, hreports⟩
    · rw [hgoto] at henter
      have hnext : Speaks { p with step := p.step + 1, state := s' } :=
        ih (wakeRank s') (hrank ▸ hlt) hready hs' rfl
      exact hnext.before (wakeByte p.state) henter
    · rw [hact] at henter
      refine ⟨[wakeByte p.state], ?_⟩
      show (parseHttpChar record (wakeByte p.state) (p, [])).2.2 ≠ []
      rw [henter]
      exact perform_reports hreports _ _ _

/-- **A parser that is not silent speaks.** -/
theorem speaks_of_not_silent {p : HttpParser} (h : ¬ Silent p) : Speaks p := by
  have hready : p.rx.ready = false := by
    by_contra hready
    exact h (.inl (by simpa using hready))
  by_cases hs : p.state = .e1
  · -- the first digit of an escape is read, and the second one reports the byte
    have hbad : ¬ (classOf 'a'.toUInt8 = .nul ∨ p.rx.ready = true) := by
      simp only [hready, Bool.false_eq_true, or_false]
      decide
    have hcell : stateTransitionTable .e1 (classOf 'a'.toUInt8) = .act .ea := by decide
    have henter := parseHttpChar_enter record [] hbad
    rw [hs, hcell] at henter
    simp only [enter, perform] at henter
    rcases hended : bodyAsEnded { p with step := p.step + 1 } with ⟨_ | _, q⟩
    · have hnext : Speaks (q.hexed (hexDigit 0 'a'.toUInt8) 'a'.toUInt8) := by
        refine speaks_of_state ?_ (by simp [HttpParser.hexed])
        show q.rx.ready = false
        rw [bodyAsEnded_rx hended]
        exact hready
      rw [← hs, hended] at henter
      exact hnext.before _ henter
    · obtain ⟨hbody, hcl, -⟩ := bodyAsEnded_true hended
      exact absurd (.inr ⟨hbody, hcl, hs⟩) h
  · exact speaks_of_state hready hs

/-! ## Refused bytes -/

/-- The first digit of an escape is read in `E1` only. -/
theorem table_ea {s : ParserState} {k : ParserClass}
    (h : stateTransitionTable s k = .act .ea) : s = .e1 := by
  revert h
  cases s <;> cases k <;> decide

/-- A `%` of the body is read in `BT` only. -/
theorem table_bh {s : ParserState} {k : ParserClass}
    (h : stateTransitionTable s k = .act .bh) : s = .bt ∧ k = .pct := by
  revert h
  cases s <;> cases k <;> decide

/-- In `BT` a `%` is nothing but a `%` of the body. -/
theorem table_bt_pct : stateTransitionTable .bt .pct = .act .bh := by decide

theorem pct_of_classOf {c : UInt8} (h : classOf c = .pct) : c = '%'.toUInt8 := by
  have hascii : ∀ n < 128, asciiClass.getD n .nul = .pct → n = 37 := by decide
  unfold classOf at h
  split at h
  · exact ParserClass.noConfusion h
  · rename_i hlt
    have hn : c.toNat < 128 := UInt8.lt_iff_toNat_lt.1 (UInt8.not_le.1 hlt)
    exact UInt8.toNat_inj.1 (hascii c.toNat hn h)

/-- **A refused byte leaves a silent parser exactly when it ends the request.** -/
theorem silent_refused_iff {p : HttpParser} {c : UInt8}
    (h : (parseHttpChar record c (p, [])).1 = false) :
    Silent (parseHttpChar record c (p, [])).2.1 ↔ Ends c p := by
  have hkeep : Silent { p with step := p.step + 1 } ↔ Silent p := Iff.rfl
  by_cases hbad : classOf c = .nul ∨ p.rx.ready = true
  · rw [parseHttpChar_refused record [] hbad]
    refine hkeep.trans ⟨.inl, fun hends => hends.elim id ?_⟩
    rintro ⟨-, -, -, rfl⟩
    -- a percent sign is no bad byte
    exact .inl (hbad.resolve_left (by decide))
  · have hready : p.rx.ready = false := by
      by_contra hready
      exact hbad (.inr (by simpa using hready))
    rw [parseHttpChar_enter record [] hbad] at h ⊢
    cases hcell : stateTransitionTable p.state (classOf c) with
    | goto s =>
      rw [hcell] at h
      exact absurd h (by simp [enter])
    | xx =>
      refine hkeep.trans ⟨.inl, fun hends => hends.elim id ?_⟩
      rintro ⟨-, -, hstate, rfl⟩
      rw [hstate, show classOf '%'.toUInt8 = .pct by decide, table_bt_pct] at hcell
      exact Cell.noConfusion hcell
    | act a =>
      rw [hcell] at h
      simp only [enter] at h ⊢
      rcases perform_refused h with rfl | rfl | rfl
      · -- the content length is too large: neither side holds
        have hstate : p.state ≠ .e1 := by
          intro hstate
          rw [hstate] at hcell
          rcases table_e1 (classOf c) with hxx | hea
          · exact Cell.noConfusion (hxx.symm.trans hcell)
          · exact absurd (hea.symm.trans hcell) (by simp)
        have hrefused : ∀ q : HttpParser, q.rx = p.rx → q.state = p.state → ¬ Silent q := by
          rintro q hrx hsame (hq | ⟨-, -, hq⟩)
          · rw [hrx, hready] at hq
            exact Bool.noConfusion hq
          · exact hstate (hsame.symm.trans hq)
        refine iff_of_false ?_ ?_
        · simp only [perform] at h ⊢
          split at h
          · rename_i hmax
            rw [if_pos hmax]
            exact hrefused _ rfl rfl
          · exact Bool.noConfusion h
        · rintro (hsilent | ⟨-, -, hbt, rfl⟩)
          · exact hrefused p rfl rfl hsilent
          · rw [hbt, show classOf '%'.toUInt8 = .pct by decide, table_bt_pct] at hcell
            exact absurd hcell (by simp)
      · rcases hended : bodyAsEnded { p with step := p.step + 1 } with ⟨_ | _, q⟩
        · simp only [perform, hended] at h
          exact Bool.noConfusion h
        · obtain ⟨hbody, hcl, hq⟩ := bodyAsEnded_true hended
          simp only [perform, hended]
          exact iff_of_true (.inl hq) (.inl (.inr ⟨hbody, hcl, table_ea hcell⟩))
      · rcases hended : bodyAsEnded { p with step := p.step + 1 } with ⟨_ | _, q⟩
        · simp only [perform, hended] at h
          exact Bool.noConfusion h
        · obtain ⟨hbody, hcl, hq⟩ := bodyAsEnded_true hended
          obtain ⟨hstate, hpct⟩ := table_bh hcell
          simp only [perform, hended]
          exact iff_of_true (.inl hq) (.inr ⟨hbody, hcl, hstate, pct_of_classOf hpct⟩)

/-- **A refused byte stays the last word** exactly when it ends the request: in every other case
some later bytes make the parser call its callback. -/
theorem refused_silent_iff (p : HttpParser) (c : UInt8)
    (h : (parseHttpChar record c (p, [])).1 = false) :
    (∀ bs, (feedAll record bs (parseHttpChar record c (p, [])).2).2 = []) ↔ Ends c p := by
  have hparser : (parseHttpChar record c (p, [])).2 =
      ((parseHttpChar record c (p, [])).2.1, []) := Prod.ext rfl (parse_refused record h)
  rw [← silent_refused_iff h, hparser]
  constructor
  · intro hall
    by_contra hsilent
    obtain ⟨bs, hbs⟩ := speaks_of_not_silent hsilent
    exact hbs (hall bs)
  · intro hsilent bs
    exact silent_feedAll hsilent bs []

/-- A body that would end inside an escape. -/
theorem refused_silent_iff_body :
    (∀ bs, (feedAll record bs (parseHttpChar record '%'.toUInt8
      (⟨⟨true, true, true, false, 0⟩, 40, 1, .bt⟩, [])).2).2 = []) ↔
      Ends '%'.toUInt8 ⟨⟨true, true, true, false, 0⟩, 40, 1, .bt⟩ :=
  refused_silent_iff _ _ (by decide)

/-- The bytes `Gx` are refused, and `ET ` in a later read makes it a `GET`. -/
theorem refused_silent_fails_method :
    (feed record [0x47, 0x78] (.reset, [])).1 = false ∧
      (feedAll record [0x45, 0x54, 0x20] (feed record [0x47, 0x78] (.reset, [])).2).2 =
        [⟨.method, 0, 5⟩] := by
  decide

end Ape.Http
