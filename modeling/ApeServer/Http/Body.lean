import ApeServer.Http.Target

/-!
# The body of a `POST`

`cl` counts the bytes of the body down, in four actions: a plain byte, a percent sign and each of the
two digits behind it.  The first three of an escape cannot end the body, the last one can.

* `Counted` — the invariant: a byte of the body is left whenever one is to be consumed;
* `counted_feedAll` — it holds for every input and for every callback that may reset the parser;
* `feed_body` — the run over a body, from anywhere inside it;
* `body_framed` — **a body of the declared length is reported decoded, and `HTTP_READY` comes with
  its last byte**.
-/

namespace Ape.Http

open CString (forall_byte)
open Percent (Complete decode decode_cons_of_ne decode_escape escaped hexValue hexValue_of_escaped)

/-! ## The count -/

/-- A body byte is left wherever one is to be consumed: `HTTP_CONSUME_BODY` without a test of the
flag is reached from `BT` only, and the flag is set there. -/
structure Counted (p : HttpParser) : Prop where
  entered : p.state = .bt → p.rx.bodyContent = true
  place : p.rx.bodyContent = true → p.state = .bt ∨ p.state = .e1 ∨ p.state = .e2
  left : p.rx.bodyContent = true → p.rx.ready = false → p.cl ≠ 0

/-- No body has begun. -/
structure Elsewhere (p : HttpParser) : Prop where
  content : p.rx.bodyContent = false
  state : p.state ≠ .bt

theorem Elsewhere.goto {p : HttpParser} (h : Elsewhere p) {s : ParserState} (hs : s ≠ .bt) :
    Elsewhere (p.goto s) := ⟨h.content, hs⟩

theorem Elsewhere.counted {p : HttpParser} (h : Elsewhere p) : Counted p := by
  refine ⟨fun hstate => absurd hstate h.state, fun hbody => ?_, fun hbody => ?_⟩
  · rw [h.content] at hbody
    cases hbody
  · rw [h.content] at hbody
    cases hbody

theorem counted_reset : Counted .reset := Elsewhere.counted ⟨rfl, by decide⟩

/-- A request that is ready, in a state of a body. -/
theorem Counted.ended {p : HttpParser} (hbody : p.rx.bodyContent = true)
    (hplace : p.state = .bt ∨ p.state = .e1 ∨ p.state = .e2) (hready : p.rx.ready = true) :
    Counted p := by
  refine ⟨fun _ => hbody, fun _ => hplace, fun _ hnot => ?_⟩
  rw [hready] at hnot
  cases hnot

/-- Inside a body only four actions are reached. -/
theorem body_rows (k : ParserClass) :
    (stateTransitionTable .bt k = .xx ∨ stateTransitionTable .bt k = .act .bc ∨
        stateTransitionTable .bt k = .act .bh) ∧
      (stateTransitionTable .e1 k = .xx ∨ stateTransitionTable .e1 k = .act .ea) ∧
      (stateTransitionTable .e2 k = .xx ∨ stateTransitionTable .e2 k = .act .eb) := by
  cases k <;> decide

/-- `HTTP_CONSUME_BODY`: the byte is the last one, or one is left. -/
theorem consumeBody_cases (p : HttpParser) (log : List HttpEvent) :
    p.decCl.cl = 0 ∧ consumeBody record (p, log) =
        (p.decCl.setReady, log ++ [⟨.ready, 0, p.step⟩]) ∨
      p.decCl.cl ≠ 0 ∧ consumeBody record (p, log) = (p.decCl, log) := by
  by_cases hzero : p.decCl.cl = 0
  · exact .inl ⟨hzero, if_pos hzero⟩
  · exact .inr ⟨hzero, if_neg hzero⟩

theorem counted_consumeBody {p : HttpParser} (hbody : p.rx.bodyContent = true)
    (hplace : p.state = .bt) (log : List HttpEvent) : Counted (consumeBody record (p, log)).1 := by
  rcases consumeBody_cases p log with ⟨-, hrun⟩ | ⟨hleft, hrun⟩
  · rw [hrun]
    exact .ended hbody (.inl hplace) rfl
  · rw [hrun]
    exact ⟨fun _ => hbody, fun _ => .inl hplace, fun _ _ => hleft⟩

/-- `HTTP_BODY_AS_ENDED` inside of a body: the byte is the last one, or one is left. -/
theorem bodyAsEnded_cases {p : HttpParser} (hbody : p.rx.bodyContent = true) :
    p.decCl.cl = 0 ∧ bodyAsEnded p = (true, p.decCl.setReady) ∨
      p.decCl.cl ≠ 0 ∧ bodyAsEnded p = (false, p.decCl) := by
  by_cases hzero : p.decCl.cl = 0
  · exact .inl ⟨hzero, by simp [bodyAsEnded, hbody, hzero]⟩
  · exact .inr ⟨hzero, by simp [bodyAsEnded, hbody, hzero]⟩

/-- No entry of the table leads into a body. -/
theorem goto_ne_bt {st s : ParserState} {k : ParserClass}
    (h : stateTransitionTable st k = .goto s) : s ≠ .bt := by
  rintro rfl
  revert h
  cases st <;> cases k <;> decide

/-- Outside a body only the end of the headers begins one. -/
theorem perform_elsewhere {a : ParserAction} (ha : a ≠ .eh) (c : UInt8) (k : ParserClass)
    {p : HttpParser} (h : Elsewhere p) (log : List HttpEvent) :
    Elsewhere (perform record a c k (p, log)).2.1 := by
  cases a with
  | eh => exact absurd rfl ha
  | ea | bh =>
    simp only [perform, bodyAsEnded, h.content, Bool.false_eq_true, if_false]
    exact ⟨h.content, of_decide_eq_false rfl⟩
  | eb =>
    simp only [perform, emit, record, modify, HttpParser.unhexed, h.content, Bool.false_eq_true,
      if_false]
    exact ⟨rfl, of_decide_eq_false rfl⟩
  | bc =>
    show Elsewhere (consumeBody record (p, log ++ [_])).1
    rcases consumeBody_cases p (log ++ [⟨.bodyChar, Int32.ofNat c.toNat, p.step⟩]) with
      ⟨-, hrun⟩ | ⟨-, hrun⟩
    · rw [hrun]
      exact ⟨h.content, h.state⟩
    · rw [hrun]
      exact ⟨h.content, h.state⟩
  | pe =>
    simp only [perform, emit, record]
    split_ifs <;> exact ⟨h.content, of_decide_eq_false rfl⟩
  | vc =>
    rw [perform_digit]
    split_ifs
    · exact ⟨h.content, h.state⟩
    · exact ⟨h.content, of_decide_eq_false rfl⟩
  | qs =>
    simp only [perform, emit, record]
    split_ifs <;> exact ⟨h.content, of_decide_eq_false rfl⟩
  | vh | ve =>
    refine h.goto ?_
    split <;> exact of_decide_eq_false rfl
  | _ => exact ⟨h.content, of_decide_eq_false rfl⟩

/-- The end of the headers: the request is ready, or its body begins. -/
theorem perform_eh (c : UInt8) (k : ParserClass) (p : HttpParser) (log : List HttpEvent) :
    perform record .eh c k (p, log) =
      if p.rx.post then
        if p.cl = 0 then
          (true, p.startBody.setReady, log ++ [⟨.headerEnd, 0, p.step⟩] ++ [⟨.ready, 0, p.step⟩])
        else (true, p.startBody, log ++ [⟨.headerEnd, 0, p.step⟩])
      else (true, p.setReady, log ++ [⟨.headerEnd, 0, p.step⟩] ++ [⟨.ready, 0, p.step⟩]) := by
  by_cases hpost : p.rx.post = true
  · by_cases hcl : p.cl = 0
    · simp [perform, emit, record, modify, hpost, hcl, HttpParser.startBody, HttpParser.setReady]
    · simp [perform, emit, record, modify, hpost, hcl, HttpParser.startBody]
  · simp [perform, emit, record, modify, hpost, HttpParser.setReady]

/-- The end of the headers keeps the count: a body begins with the bytes of its length to come. -/
theorem counted_headerEnd (c : UInt8) (k : ParserClass) {p : HttpParser} (h : Elsewhere p)
    (log : List HttpEvent) : Counted (perform record .eh c k (p, log)).2.1 := by
  rw [perform_eh]
  split_ifs with hpost hcl
  · exact .ended rfl (.inl rfl) rfl
  · exact ⟨fun _ => rfl, fun _ => .inl rfl, fun _ _ => hcl⟩
  · exact Elsewhere.counted ⟨h.content, h.state⟩

/-- Whatever the table says inside of a body, the count is kept. -/
theorem counted_inside {p : HttpParser} (h : Counted p) (hbody : p.rx.bodyContent = true)
    (c : UInt8) (log : List HttpEvent) :
    Counted (enter record (stateTransitionTable p.state (classOf c)) c (classOf c) (p, log)).2.1 := by
  obtain ⟨hbt, he1, he2⟩ := body_rows (classOf c)
  rcases h.place hbody with hs | hs | hs
  · rw [hs]
    rcases hbt with hcell | hcell | hcell
    · rw [hcell]
      exact h
    · rw [hcell]
      exact counted_consumeBody hbody hs _
    · rw [hcell]
      rcases bodyAsEnded_cases hbody with ⟨-, hrun⟩ | ⟨hleft, hrun⟩
      · simp only [enter, perform, hrun, if_true]
        exact .ended hbody (.inl hs) rfl
      · simp only [enter, perform, hrun, Bool.false_eq_true, if_false]
        exact ⟨fun _ => hbody, fun _ => .inr (.inl rfl), fun _ _ => hleft⟩
  · rw [hs]
    rcases he1 with hcell | hcell
    · rw [hcell]
      exact h
    · rw [hcell]
      rcases bodyAsEnded_cases hbody with ⟨-, hrun⟩ | ⟨hleft, hrun⟩
      · simp only [enter, perform, hrun, if_true]
        exact .ended hbody (.inr (.inl hs)) rfl
      · simp only [enter, perform, hrun, Bool.false_eq_true, if_false]
        exact ⟨fun _ => hbody, fun _ => .inr (.inr rfl), fun _ _ => hleft⟩
  · rw [hs]
    rcases he2 with hcell | hcell
    · rw [hcell]
      exact h
    · rw [hcell]
      have hplace : p.unhexed.state = .bt := by simp [HttpParser.unhexed, hbody]
      have hkept : p.unhexed.rx.bodyContent = true := hbody
      simp only [enter, perform, emit, record, modify, hkept, if_true]
      exact counted_consumeBody hkept hplace _

/-- **One byte keeps the count.** -/
theorem counted_parse {p : HttpParser} (h : Counted p) (c : UInt8) :
    Counted (parseHttpChar record c (p, [])).2.1 := by
  have hstep : Counted { p with step := p.step + 1 } := ⟨h.entered, h.place, h.left⟩
  by_cases hbad : classOf c = .nul ∨ p.rx.ready = true
  · rw [parseHttpChar_refused record [] hbad]
    exact hstep
  · rw [parseHttpChar_enter record [] hbad]
    cases hbody : p.rx.bodyContent with
    | true => exact counted_inside hstep hbody c []
    | false =>
      have hoff : Elsewhere { p with step := p.step + 1 } :=
        ⟨hbody, fun hstate => Bool.false_ne_true (hbody.symm.trans (h.entered hstate))⟩
      cases hcell : stateTransitionTable p.state (classOf c) with
      | xx => exact hstep
      | goto s => exact (hoff.goto (goto_ne_bt hcell)).counted
      | act a =>
        by_cases ha : a = .eh
        · subst ha
          exact counted_headerEnd c (classOf c) hoff []
        · exact (perform_elsewhere ha c (classOf c) hoff []).counted

/-- **The count is kept by every input**, whatever the callback makes of the events. -/
theorem counted_feedAll {σ : Type*} {callback : HttpCallback σ} (hcb : Resetting callback)
    (bs : List UInt8) {p : HttpParser} (h : Counted p) (s : σ) :
    Counted (feedAll callback bs (p, s)).1 := by
  induction bs generalizing p s with
  | nil => exact h
  | cons c cs ih =>
    have hnext : Counted (parseHttpChar callback c (p, s)).2.1 := by
      have hparse := counted_parse h c
      obtain ⟨-, hend⟩ := parse_mirrors hcb c p s
      rcases hend with hsame | ⟨evs, e, -, -, hx⟩
      · rwa [hsame.parser]
      · rw [hx]
        rcases hcb.ready e (parseHttpChar record c (p, [])).2.1 (replay callback s evs) with
          hkeep | hreset
        · rwa [hkeep]
        · rw [hreset]
          exact counted_reset
    exact ih hnext (parseHttpChar callback c (p, s)).2.2

/-! ## The run -/

/-- The parser inside a body, between two of its characters. -/
def inBody (step cl : UInt32) : HttpParser := ⟨⟨true, true, true, false, 0⟩, step, cl, .bt⟩

/-- A byte that the row of a body takes is a `%` or a character. -/
theorem body_byte {c : UInt8} (hrow : stateTransitionTable .bt (classOf c) ≠ .xx) :
    classOf c ≠ .nul ∧ (c = 37 ∨ stateTransitionTable .bt (classOf c) = .act .bc) := by
  have hall : ∀ c : UInt8, stateTransitionTable .bt (classOf c) ≠ .xx →
      classOf c ≠ .nul ∧ (c = 37 ∨ stateTransitionTable .bt (classOf c) = .act .bc) := by
    refine forall_byte ?_ ?_ <;> decide
  exact hall c hrow

section Steps

variable (step cl : UInt32) (log : List HttpEvent)

theorem parse_body_plain {c : UInt8} (hnul : classOf c ≠ .nul)
    (hrow : stateTransitionTable .bt (classOf c) = .act .bc) :
    parseHttpChar record c (inBody step cl, log) = (true, consumeBody record
      (inBody (step + 1) cl, log ++ [⟨.bodyChar, Int32.ofNat c.toNat, step + 1⟩])) := by
  have hgood : ¬ (classOf c = .nul ∨ (inBody step cl).rx.ready = true) := by
    simp [hnul, inBody]
  rw [parseHttpChar_enter record log hgood]
  simp only [inBody, hrow]
  rfl

theorem parse_body_pct (hcl : cl - 1 ≠ 0) :
    parseHttpChar record 37 (inBody step cl, log) =
      (true, { inBody (step + 1) (cl - 1) with state := .e1 }, log) := by
  have hgood : ¬ (classOf 37 = .nul ∨ (inBody step cl).rx.ready = true) := by
    rw [not_or]
    exact ⟨by decide, Bool.false_ne_true⟩
  have hrow : stateTransitionTable (inBody step cl).state (classOf 37) = .act .bh := by
    show stateTransitionTable .bt (classOf 37) = .act .bh
    decide
  have hleft : bodyAsEnded (inBody (step + 1) cl) = (false, inBody (step + 1) (cl - 1)) :=
    if_neg hcl
  rw [parseHttpChar_enter record log hgood, hrow]
  show (if (bodyAsEnded (inBody (step + 1) cl)).1 then
      (false, (bodyAsEnded (inBody (step + 1) cl)).2, log)
    else (true, (bodyAsEnded (inBody (step + 1) cl)).2.goto .e1, log)) = _
  rw [hleft]
  rfl

theorem parse_body_first {a x : UInt8} (hx : hexValue a = some x) (hcl : cl - 1 ≠ 0) :
    parseHttpChar record a ({ inBody step cl with state := .e1 }, log) =
      (true, (inBody (step + 1) (cl - 1)).hexed (hexDigit 0 a) a, log) := by
  rcases digit_rows a with ⟨hnul, -, hrow, -⟩ | ⟨hnone, -, -⟩
  · have hgood : ¬ (classOf a = .nul ∨
        ({ inBody step cl with state := .e1 } : HttpParser).rx.ready = true) := by
      simp [hnul, inBody]
    have hleft : bodyAsEnded { inBody (step + 1) cl with state := .e1 } =
        (false, { inBody (step + 1) (cl - 1) with state := .e1 }) := if_neg hcl
    rw [parseHttpChar_enter record log hgood, hrow]
    show (if (bodyAsEnded { inBody (step + 1) cl with state := .e1 }).1 then
        (false, (bodyAsEnded { inBody (step + 1) cl with state := .e1 }).2, log)
      else (true, (bodyAsEnded { inBody (step + 1) cl with state := .e1 }).2.hexed
        (hexDigit 0 a) a, log)) = _
    rw [hleft]
    rfl
  · rw [hnone] at hx
    cases hx

theorem parse_body_second {a b x : UInt8} (hx : escaped a b = some x) :
    parseHttpChar record b ((inBody step cl).hexed (hexDigit 0 a) a, log) =
      (true, consumeBody record (inBody (step + 1) cl,
        log ++ [⟨.bodyChar, Int32.ofNat x.toNat, step + 1⟩])) := by
  obtain ⟨y, z, -, hz, -⟩ := hexValue_of_escaped hx
  rcases digit_rows b with ⟨hnul, -, -, hrow⟩ | ⟨hnone, -, -⟩
  · have hgood : ¬ (classOf b = .nul ∨
        ((inBody step cl).hexed (hexDigit 0 a) a).rx.ready = true) := by
      simp [hnul, inBody, HttpParser.hexed]
    have hstate : ((inBody step cl).hexed (hexDigit 0 a) a).state = .e2 := rfl
    have hdigits := escape_digits hx
    rw [parseHttpChar_enter record log hgood, hstate, hrow]
    simp only [enter, perform, inBody, HttpParser.hexed, hdigits]
    rfl
  · rw [hnone] at hz
    cases hz

end Steps

/-- A run of the parser over a body, with the events of the text `cs` and then `HTTP_READY`. -/
structure BodyRun (body cs : List UInt8) (p : HttpParser) (log : List HttpEvent) : Prop where
  run : ∃ q evs, feed record body (p, log) = (true, q, log ++ evs) ∧
    (evs.map fun e => (e.type, e.value)) = charsAs .bodyChar cs ++ [(.ready, 0)]
  early : ∀ pre, pre <+: body → pre ≠ body →
    ∀ e ∈ (feed record pre (p, log)).2.2, e ∈ log ∨ e.type ≠ .ready

/-- The last byte of a body makes the request ready. -/
theorem consumeBody_last {step cl : UInt32} (hcl : cl = 1) (log : List HttpEvent) :
    consumeBody record (inBody step cl, log) =
      ((inBody step cl).decCl.setReady, log ++ [⟨.ready, 0, step⟩]) := by
  subst hcl
  rcases consumeBody_cases (inBody step 1) log with ⟨-, hrun⟩ | ⟨hleft, -⟩
  · exact hrun
  · exact absurd (by decide : (1 : UInt32) - 1 = 0) hleft

/-- A byte of a body that is not its last one is counted, and nothing else happens. -/
theorem consumeBody_inside {step cl : UInt32} (hcl : cl - 1 ≠ 0) (log : List HttpEvent) :
    consumeBody record (inBody step cl, log) = (inBody step (cl - 1), log) := by
  rcases consumeBody_cases (inBody step cl) log with ⟨hzero, -⟩ | ⟨-, hrun⟩
  · exact absurd hzero hcl
  · exact hrun

/-- **A character of a body** and the run behind it: `took` are its bytes and `x` is the byte they
stand for. -/
theorem BodyRun.cons {took body cs : List UInt8} {x : UInt8} {step cl : UInt32}
    {p : HttpParser} {log : List HttpEvent} (hcl : cl.toNat = body.length + 1)
    (htook : ∀ rest, feed record (took ++ rest) (p, log) =
      feed record rest (consumeBody record (inBody step cl,
        log ++ [⟨.bodyChar, Int32.ofNat x.toNat, step⟩])))
    (hinside : ∀ pre, pre <+: took → pre ≠ took → (feed record pre (p, log)).2.2 = log)
    (hbody : body ≠ [] → BodyRun body cs (inBody step (cl - 1))
      (log ++ [⟨.bodyChar, Int32.ofNat x.toNat, step⟩]))
    (hnil : body = [] → cs = []) : BodyRun (took ++ body) (x :: cs) p log := by
  by_cases hend : body = []
  · have hone : cl = 1 := by
      rw [hend] at hcl
      exact UInt32.toNat_inj.1 hcl
    rw [hnil hend, hend]
    constructor
    · refine ⟨(inBody step cl).decCl.setReady,
        [⟨.bodyChar, Int32.ofNat x.toNat, step⟩, ⟨.ready, 0, step⟩], ?_, rfl⟩
      rw [htook, consumeBody_last hone, List.append_assoc]
      rfl
    · intro pre hpre hne e he
      rw [List.append_nil] at hpre hne
      rw [hinside pre hpre hne] at he
      exact .inl he
  · have hlong : 0 < body.length := List.length_pos_iff.2 hend
    have hleft : cl - 1 ≠ 0 := by
      intro hzero
      have hone : cl = 1 := by grind
      rw [hone] at hcl
      change 1 = body.length + 1 at hcl
      omega
    obtain ⟨⟨q, evs, hrun, hevs⟩, hearly⟩ := hbody hend
    constructor
    · refine ⟨q, ⟨.bodyChar, Int32.ofNat x.toNat, step⟩ :: evs, ?_, ?_⟩
      · rw [htook, consumeBody_inside hleft, hrun, List.append_assoc]
        rfl
      · rw [List.map_cons, hevs]
        rfl
    · intro pre hpre hne e he
      rcases List.prefix_or_prefix_of_prefix hpre (List.prefix_append took body) with hin | ⟨pre', rfl⟩
      · by_cases hall : pre = took
        · -- exactly this character
          have hrest := htook []
          rw [List.append_nil, consumeBody_inside hleft] at hrest
          rw [hall, hrest] at he
          rcases List.mem_append.1 he with hlog | hnew
          · exact .inl hlog
          · rw [List.mem_singleton.1 hnew]
            exact .inr (by simp)
        · rw [hinside pre hin hall] at he
          exact .inl he
      · have hpre' : pre' <+: body := (List.prefix_append_right_inj took).1 hpre
        have hne' : pre' ≠ body := fun hsame => hne (hsame ▸ rfl)
        rw [htook, consumeBody_inside hleft] at he
        rcases hearly pre' hpre' hne' e he with hlog | htype
        · rcases List.mem_append.1 hlog with hlog | hnew
          · exact .inl hlog
          · rw [List.mem_singleton.1 hnew]
            exact .inr (by simp)
        · exact .inr htype

/-- A body that is longer than some bytes of it. -/
theorem sub_left {cl : UInt32} {n : Nat} (hcl : cl.toNat = n + 1) (hn : n ≠ 0) :
    cl - 1 ≠ 0 ∧ (cl - 1).toNat = n := by
  have hone : (1 : UInt32) ≤ cl := by
    rw [UInt32.le_iff_toNat_le, hcl]
    exact Nat.le_add_left 1 n
  have hsub : (cl - 1).toNat = n := by
    rw [UInt32.toNat_sub_of_le _ _ hone, hcl]
    rfl
  refine ⟨fun hzero => hn ?_, hsub⟩
  rw [← hsub, hzero]
  rfl

/-- **The run over a body**, from between any two of its characters. -/
theorem feed_body {body : List UInt8} (hcomplete : Complete body) (hne : body ≠ [])
    (hrows : ∀ c ∈ body, stateTransitionTable .bt (classOf c) ≠ .xx) {step cl : UInt32}
    (hcl : cl.toNat = body.length) (log : List HttpEvent) :
    BodyRun body (decode body) (inBody step cl) log := by
  induction hcomplete generalizing step cl log with
  | nil => exact absurd rfl hne
  | @plain c cs hc _ ih =>
    obtain ⟨hnul, hpct | hrow⟩ := body_byte (hrows c (List.mem_cons_self ..))
    · exact absurd hpct hc
    have htook : ∀ rest, feed record ([c] ++ rest) (inBody step cl, log) = feed record rest
        (consumeBody record (inBody (step + 1) cl,
          log ++ [⟨.bodyChar, Int32.ofNat c.toNat, step + 1⟩])) :=
      fun _ => feed_step (parse_body_plain step cl log hnul hrow)
    rw [decode_cons_of_ne hc]
    show BodyRun ([c] ++ cs) _ _ _
    refine BodyRun.cons hcl htook ?_ (fun hcs => ?_) ?_
    · intro pre hpre hne
      rcases List.prefix_cons_iff.1 hpre with rfl | ⟨t, rfl, ht⟩
      · rfl
      · rw [List.prefix_nil.1 ht] at hne
        exact absurd rfl hne
    · have hlong : cs.length ≠ 0 := fun hzero => hcs (List.eq_nil_of_length_eq_zero hzero)
      exact ih hcs (fun d hd => hrows d (List.mem_cons_of_mem c hd)) (sub_left hcl hlong).2 _
    · rintro rfl
      rfl
  | @escape a b x cs hx _ ih =>
    obtain ⟨y, z, hy, -, -⟩ := hexValue_of_escaped hx
    -- the percent sign and the first digit leave at least one byte
    obtain ⟨hleft₁, hcl₁⟩ := sub_left (n := cs.length + 2) hcl (by omega)
    obtain ⟨hleft₂, hcl₂⟩ := sub_left (n := cs.length + 1) hcl₁ (by omega)
    have hpct := parse_body_pct step cl log hleft₁
    have hfirst := parse_body_first (step + 1) (cl - 1) log hy hleft₂
    have hsecond := parse_body_second (step + 1 + 1) (cl - 1 - 1) log hx
    have htook : ∀ rest, feed record ([37, a, b] ++ rest) (inBody step cl, log) = feed record rest
        (consumeBody record (inBody (step + 1 + 1 + 1) (cl - 1 - 1),
          log ++ [⟨.bodyChar, Int32.ofNat x.toNat, step + 1 + 1 + 1⟩])) :=
      fun _ => (feed_step hpct).trans ((feed_step hfirst).trans (feed_step hsecond))
    rw [decode_escape hx]
    show BodyRun ([37, a, b] ++ cs) _ _ _
    refine BodyRun.cons hcl₂ htook ?_ (fun hcs => ?_) ?_
    · intro pre hpre hne
      rcases List.prefix_cons_iff.1 hpre with rfl | ⟨t, rfl, ht⟩
      · rfl
      rcases List.prefix_cons_iff.1 ht with rfl | ⟨u, rfl, hu⟩
      · rw [feed_step hpct]
        rfl
      rcases List.prefix_cons_iff.1 hu with rfl | ⟨v, rfl, hv⟩
      · rw [feed_step hpct, feed_step hfirst]
        rfl
      · rw [List.prefix_nil.1 hv] at hne
        exact absurd rfl hne
    · have hlong : cs.length ≠ 0 := fun hzero => hcs (List.eq_nil_of_length_eq_zero hzero)
      refine ih hcs (fun d hd => hrows d ?_) (sub_left hcl₂ hlong).2 _
      exact List.mem_cons_of_mem _ (List.mem_cons_of_mem _ (List.mem_cons_of_mem _ hd))
    · rintro rfl
      rfl

/-! ## What is promised -/

/-- Only the end of the headers is reported as such. -/
theorem perform_ne_headerEnd {a : ParserAction} (ha : a ≠ .eh) (c : UInt8) (k : ParserClass)
    (p : HttpParser) : ∀ e ∈ (perform record a c k (p, [])).2.2, e.type ≠ .headerEnd := by
  have hpath : ∀ p, pathOrQs p ≠ .headerEnd := by
    intro p
    unfold pathOrQs
    split <;> simp
  have hconsume : ∀ q (e : HttpEvent), e.type ≠ .headerEnd →
      ∀ d ∈ (consumeBody record (q, [e])).2, d.type ≠ .headerEnd := by
    intro q e he
    rcases consumeBody_cases q [e] with ⟨-, hrun⟩ | ⟨-, hrun⟩
    · rw [hrun]
      simpa using he
    · rw [hrun]
      simpa using he
  cases a with
  | eh => exact absurd rfl ha
  | bc => exact hconsume p _ (by simp)
  | eb =>
    simp only [perform, emit, record, modify, List.nil_append]
    split_ifs
    · exact hconsume p.unhexed _ (by simp)
    · exact hconsume p.unhexed _ (by simpa using hpath p)
    · simp
    · simpa using hpath p
  | vc =>
    rw [perform_digit]
    split <;> simp
  | pe | ea | bh =>
    simp only [perform]
    split <;> simp [emit, record, modify]
  | pc => simpa [perform, emit, record, modify] using hpath (p.goto .pt)
  | qs =>
    simp only [perform]
    split
    · simpa [emit, record, modify] using hpath (p.goto .pt)
    · simp [emit, record, modify]
  | _ => simp [perform, emit, record, modify]

/-- Behind the headers of a `POST` that declares a length the parser is at the first byte of the
body. -/
theorem headerSection_body {bs : List UInt8} {p : HttpParser} (h : HeaderSection bs p)
    (hpost : p.rx.post = true) (hcl : p.cl ≠ 0) : ∃ step, p = inBody step p.cl := by
  obtain ⟨pre, c, q, log, evs, -, -, -, hparse, e, he, htype⟩ := h
  have henter := parse_accepted hparse
  cases hcell : stateTransitionTable q.state (classOf c) with
  | xx =>
    rw [hcell] at henter
    cases henter
  | goto s =>
    rw [hcell] at henter
    obtain rfl := (Prod.mk.inj (Prod.mk.inj henter).2).2
    cases he
  | act a =>
    rw [hcell] at henter
    by_cases ha : a = .eh
    · subst ha
      have hrun := perform_eh c (classOf c) { q with step := q.step + 1 } []
      rw [show perform record .eh c (classOf c) ({ q with step := q.step + 1 }, []) = _ from henter]
        at hrun
      split_ifs at hrun with hqpost hqcl
      · obtain rfl := (Prod.mk.inj (Prod.mk.inj hrun).2).1
        exact absurd hqcl hcl
      · obtain rfl := (Prod.mk.inj (Prod.mk.inj hrun).2).1
        exact ⟨q.step + 1, rfl⟩
      · obtain rfl := (Prod.mk.inj (Prod.mk.inj hrun).2).1
        exact absurd hpost hqpost
    · have hnone := perform_ne_headerEnd ha c (classOf c) { q with step := q.step + 1 }
      rw [show perform record a c (classOf c) ({ q with step := q.step + 1 }, []) = _ from henter]
        at hnone
      exact absurd htype (hnone e he)

/-- **Bodies are framed.**  A body of the length behind the headers of a `POST`, of bytes the row of
a body takes and with complete escapes, is accepted and reported decoded, with `HTTP_READY` at its
last byte and not before; and whatever the input is, and whatever a callback does that only resets
the parser, a byte is left wherever one of a body is to be consumed. -/
theorem body_framed :
    (∀ (bs : List UInt8) (p : HttpParser) (body : List UInt8), HeaderSection bs p →
      p.rx.post = true → p.cl ≠ 0 → body.length = p.cl.toNat →
      (∀ c ∈ body, stateTransitionTable .bt (classOf c) ≠ .xx) → Complete body →
      BodyRun body (decode body) p []) ∧
    ∀ (σ : Type) (callback : HttpCallback σ), Resetting callback → ∀ (bs : List UInt8) (s : σ),
      Counted (feedAll callback bs (.reset, s)).1 := by
  refine ⟨fun bs p body h hpost hcl hlen hrows hcomplete => ?_, fun σ callback hcb bs s => ?_⟩
  · have hne : body ≠ [] := by
      rintro rfl
      exact hcl (UInt32.toNat_inj.1 hlen.symm)
    obtain ⟨step, hp⟩ := headerSection_body h hpost hcl
    rw [hp]
    exact feed_body hcomplete hne hrows hlen.symm []
  · exact counted_feedAll hcb bs counted_reset s

/-- `POST /`, `Content-Length: 4`. -/
def postOfFour : List UInt8 :=
  [80, 79, 83, 84, 32, 47, 32, 72, 84, 84, 80, 47, 49, 46, 48, 10, 67, 111, 110, 116, 101, 110,
   116, 45, 76, 101, 110, 103, 116, 104, 58, 32, 52, 10]

/-- The body `a%41` of a request, and a connection that resets its parser. -/
theorem body_framed_escape :
    BodyRun [97, 37, 52, 49] (decode [97, 37, 52, 49])
      (parseHttpChar record 10 ((feed record postOfFour (.reset, [])).2.1, [])).2.1 [] ∧
    Counted (feedAll logging (postOfFour ++ [10, 97, 37]) (.reset, [])).1 :=
  ⟨body_framed.1 _ _ _ (headerSection_of_feed (by decide) (by decide)
    (by decide) (by decide)) (by decide) (by decide)
    (by decide) (by decide +kernel)
    (.plain (by decide) (.escape (x := 65) (by decide) .nil)),
   body_framed.2 _ _ resetting_logging _ _⟩

end Ape.Http
