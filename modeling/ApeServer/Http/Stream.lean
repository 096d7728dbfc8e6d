import ApeServer.Http.Trace

/-!
# Runs of the HTTP parser

A callback that touches the parser only to reset it on `HTTP_READY` sees the events that a recording
callback sees, so a run with any such callback follows the automaton of a request.

* `Resetting`, `Mirrors`, `parse_mirrors` — any such callback and the recording one;
* `feed_follows` — **what every event of a request keeps, a run keeps**;
* `events_traces` — the events of a run are complete requests and the beginning of one;
* `events_append` — a completed request leaves a fresh parser behind.
-/

namespace Ape.Http

open scoped Computability

variable {σ : Type*}

/-! ## Callbacks that reset the parser -/

/-- A callback that touches the parser only to reset it on `HTTP_READY`. -/
structure Resetting (callback : HttpCallback σ) : Prop where
  context : ∀ e p q s, (callback e (p, s)).2 = (callback e (q, s)).2
  parser : ∀ e p s, e.type ≠ .ready → (callback e (p, s)).1 = p
  ready : ∀ e p s, (callback e (p, s)).1 = p ∨ (callback e (p, s)).1 = .reset

/-- The context after some events. -/
def replay (callback : HttpCallback σ) (s : σ) (evs : List HttpEvent) : σ :=
  evs.foldl (fun s e => (callback e (.reset, s)).2) s

@[simp] theorem replay_append (callback : HttpCallback σ) (s : σ) (evs evs' : List HttpEvent) :
    replay callback s (evs ++ evs') = replay callback (replay callback s evs) evs' :=
  List.foldl_append

/-- Before `HTTP_READY` the parsers are the same. -/
structure Mirrors (callback : HttpCallback σ) (s : σ) (x : HttpParser × σ)
    (r : HttpParser × List HttpEvent) : Prop where
  parser : x.1 = r.1
  context : x.2 = replay callback s r.2
  unready : ∀ e ∈ r.2, e.type ≠ .ready

/-- Behind it the callback has had its chance to reset the parser. -/
def MirrorsEnd (callback : HttpCallback σ) (s : σ) (x : HttpParser × σ)
    (r : HttpParser × List HttpEvent) : Prop :=
  Mirrors callback s x r ∨ ∃ evs e, r.2 = evs ++ [e] ∧ e.type = .ready ∧
    x = callback e (r.1, replay callback s evs)

section Mirrors

variable {callback : HttpCallback σ} {s : σ} {x : HttpParser × σ}
  {r : HttpParser × List HttpEvent}

theorem Mirrors.modify (h : Mirrors callback s x r) (f : HttpParser → HttpParser) :
    Mirrors callback s (Http.modify f x) (Http.modify f r) :=
  ⟨congrArg f h.parser, h.context, h.unready⟩

theorem Mirrors.emit (hcb : Resetting callback) (h : Mirrors callback s x r) {type : CallbackType}
    (htype : type ≠ .ready) (value : Int32) :
    Mirrors callback s (emit callback type value x) (emit record type value r) := by
  obtain ⟨p, t⟩ := x
  obtain ⟨hparser, hcontext, hunready⟩ := h
  simp only at hparser hcontext
  subst hparser hcontext
  refine ⟨hcb.parser _ _ _ htype, ?_, fun e he => ?_⟩
  · simp only [Http.emit, record, replay_append]
    exact hcb.context _ _ _ _
  · rcases List.mem_append.1 he with he | he
    · exact hunready e he
    · rwa [List.mem_singleton.1 he]

theorem Mirrors.emit_ready (h : Mirrors callback s x r) (value : Int32) :
    MirrorsEnd callback s (Http.emit callback .ready value x) (Http.emit record .ready value r) := by
  obtain ⟨p, t⟩ := x
  obtain ⟨hparser, hcontext, -⟩ := h
  simp only at hparser hcontext
  subst hparser hcontext
  exact .inr ⟨r.2, _, rfl, rfl, rfl⟩

theorem Mirrors.consumeBody (h : Mirrors callback s x r) :
    MirrorsEnd callback s (Http.consumeBody callback x) (Http.consumeBody record r) := by
  have hdec := h.modify HttpParser.decCl
  unfold Http.consumeBody
  simp only
  rw [hdec.parser]
  split
  · exact (hdec.modify HttpParser.setReady).emit_ready 0
  · exact .inl hdec

/-- An action seen by the callback and by the recording one. -/
theorem Mirrors.perform (hcb : Resetting callback) (h : Mirrors callback s x r) (a : ParserAction)
    (c : UInt8) (k : ParserClass) :
    (perform callback a c k x).1 = (perform record a c k r).1 ∧
      MirrorsEnd callback s (perform callback a c k x).2 (perform record a c k r).2 := by
  have hparser := h.parser
  have hpath : ∀ p, pathOrQs p ≠ .ready := by
    intro p
    unfold pathOrQs
    split <;> simp
  cases a with
  | mg => exact ⟨rfl, .inl ((h.emit hcb (by simp) _).modify _)⟩
  | mp =>
    have hemit := h.emit hcb (show CallbackType.method ≠ .ready by simp) HttpMethod.post.value
    exact ⟨rfl, .inl (hemit.modify HttpParser.startPost)⟩
  | ha => exact ⟨rfl, .inl ((h.emit hcb (by simp) _).modify _)⟩
  | hb => exact ⟨rfl, .inl ((h.emit hcb (by simp) _).modify _)⟩
  | kh => exact ⟨rfl, .inl ((h.emit hcb (by simp) _).modify _)⟩
  | vh => exact ⟨rfl, .inl ((h.emit hcb (by simp) _).modify _)⟩
  | kc => exact ⟨rfl, .inl ((h.emit hcb (by simp) _).modify _)⟩
  | hk => exact ⟨rfl, .inl ((h.emit hcb (by simp) _).modify _)⟩
  | hv => exact ⟨rfl, .inl ((h.emit hcb (by simp) _).modify _)⟩
  | ve =>
    simp only [Http.perform, hparser]
    exact ⟨trivial, .inl ((h.emit hcb (by simp) _).modify _)⟩
  | pe =>
    simp only [Http.perform, hparser]
    split
    · exact ⟨trivial, .inl (h.modify _)⟩
    · exact ⟨trivial, .inl ((h.emit hcb (by simp) _).modify _)⟩
  | bc => exact ⟨rfl, (h.emit hcb (by simp) _).consumeBody⟩
  | pc =>
    have hgo := h.modify (HttpParser.goto .pt)
    simp only [Http.perform, hgo.parser]
    exact ⟨trivial, .inl (hgo.emit hcb (hpath _) _)⟩
  | qs =>
    have hgo := h.modify (HttpParser.goto .pt)
    simp only [Http.perform, hgo.parser]
    split
    · exact ⟨rfl, .inl (hgo.emit hcb (hpath _) _)⟩
    · exact ⟨rfl, .inl ((hgo.modify _).emit hcb (by simp) _)⟩
  | vc =>
    have hcl := h.modify (HttpParser.addDigit c)
    simp only [Http.perform, hcl.parser]
    split
    · exact ⟨rfl, .inl hcl⟩
    · exact ⟨rfl, .inl (hcl.modify _)⟩
  | ea =>
    simp only [Http.perform, hparser]
    rcases bodyAsEnded r.1 with ⟨_ | _, q⟩
    · exact ⟨rfl, .inl ⟨rfl, h.context, h.unready⟩⟩
    · exact ⟨rfl, .inl ⟨rfl, h.context, h.unready⟩⟩
  | bh =>
    simp only [Http.perform, hparser]
    rcases bodyAsEnded r.1 with ⟨_ | _, q⟩
    · exact ⟨rfl, .inl ⟨rfl, h.context, h.unready⟩⟩
    · exact ⟨rfl, .inl ⟨rfl, h.context, h.unready⟩⟩
  | eb =>
    have htype : (if r.1.rx.bodyContent then .bodyChar else pathOrQs r.1) ≠ .ready := by
      split
      · simp
      · exact hpath r.1
    have hemit := (h.emit hcb htype (Int32.ofNat (hexDigit (r.1.rx.low.toUInt8 <<< 4) c).toNat)).modify
      HttpParser.unhexed
    have hend : ∀ x' r', Mirrors callback s x' r' →
        MirrorsEnd callback s (if r'.1.rx.bodyContent then Http.consumeBody callback x' else x')
          (if r'.1.rx.bodyContent then Http.consumeBody record r' else r') := by
      intro x' r' h'
      split
      · exact h'.consumeBody
      · exact .inl h'
    simp only [Http.perform, hparser]
    rw [hemit.parser]
    exact ⟨trivial, hend _ _ hemit⟩
  | eh =>
    have hemit := h.emit hcb (show CallbackType.headerEnd ≠ .ready by simp) 0
    have hstart : ∀ x' r', Mirrors callback s x' r' →
        Mirrors callback s (if r'.1.rx.post then Http.modify HttpParser.startBody x' else x')
          (if r'.1.rx.post then Http.modify HttpParser.startBody r' else r') := by
      intro x' r' h'
      split
      · exact h'.modify _
      · exact h'
    have hend : ∀ (b : Bool) x' r', Mirrors callback s x' r' →
        (if b then (true, x') else
          (true, Http.emit callback .ready 0 (Http.modify .setReady x'))).1 =
        (if b then (true, r') else
          (true, Http.emit record .ready 0 (Http.modify .setReady r'))).1 ∧
        MirrorsEnd callback s
          (if b then (true, x') else
            (true, Http.emit callback .ready 0 (Http.modify .setReady x'))).2
          (if b then (true, r') else
            (true, Http.emit record .ready 0 (Http.modify .setReady r'))).2 := by
      intro b x' r' h'
      cases b with
      | true => exact ⟨rfl, .inl h'⟩
      | false => exact ⟨rfl, (h'.modify _).emit_ready 0⟩
    have hpost := hstart _ _ hemit
    simp only [Http.perform]
    rw [hemit.parser, hpost.parser]
    exact hend _ _ _ hpost

/-- **One byte** seen by the callback and by the recording one. -/
theorem parse_mirrors (hcb : Resetting callback) (c : UInt8) (p : HttpParser) (s : σ) :
    (parseHttpChar callback c (p, s)).1 = (parseHttpChar record c (p, [])).1 ∧
      MirrorsEnd callback s (parseHttpChar callback c (p, s)).2
        (parseHttpChar record c (p, [])).2 := by
  have hstep : Mirrors callback s ({ p with step := p.step + 1 }, s)
      ({ p with step := p.step + 1 }, []) := ⟨rfl, rfl, by simp⟩
  by_cases hbad : classOf c = .nul ∨ p.rx.ready = true
  · rw [parseHttpChar_refused callback s hbad, parseHttpChar_refused record [] hbad]
    exact ⟨rfl, .inl hstep⟩
  · rw [parseHttpChar_enter callback s hbad, parseHttpChar_enter record [] hbad]
    cases stateTransitionTable p.state (classOf c) with
    | xx => exact ⟨rfl, .inl hstep⟩
    | goto q => exact ⟨rfl, .inl (hstep.modify _)⟩
    | act a => exact hstep.perform hcb a c _

end Mirrors

/-! ## Runs -/

section Run

variable {callback : HttpCallback σ} {P : σ → Phase → Prop}

/-- What every event keeps is kept by some of them. -/
theorem replay_follows
    (hP : ∀ e s ph ph', P s ph → ph.next e = some ph' → P (callback e (.reset, s)).2 ph')
    {evs : List HttpEvent} {s : σ} {ph ph' : Phase} (h : P s ph)
    (hrun : evs.foldlM Phase.next ph = some ph') : P (replay callback s evs) ph' := by
  have := Traces.foldlM_invariant (P := fun ph evs => P (replay callback s evs) ph) (w := [])
    (fun ph e ph' evs hevs hnext => by
      rw [replay_append]
      exact hP e _ ph ph' hevs hnext) h hrun
  rwa [List.nil_append] at this

/-- What every event keeps is kept by a byte; then the parser follows the phase it is in, unless
the request is complete and the callback has left the parser alone. -/
theorem parse_keeps (hcb : Resetting callback)
    (hP : ∀ e s ph ph', P s ph → ph.next e = some ph' → P (callback e (.reset, s)).2 ph')
    {p : HttpParser} {s : σ} {ph : Phase} (hp : p.rx.ready = true ∨ Follows p ph) (h : P s ph)
    (c : UInt8) :
    ∃ ph', P (parseHttpChar callback c (p, s)).2.2 ph' ∧
      ((parseHttpChar callback c (p, s)).1 = true →
        (parseHttpChar callback c (p, s)).2.1.rx.ready = true ∨
          Follows (parseHttpChar callback c (p, s)).2.1 ph') := by
  rcases hp with hready | hfollows
  · -- a parser that is ready refuses
    rw [parseHttpChar_refused callback s (.inr hready)]
    exact ⟨ph, h, fun hok => Bool.noConfusion hok⟩
  · obtain ⟨hok, hend⟩ := parse_mirrors hcb c p s
    have hout := parse_follows hfollows c
    revert hok hend hout
    generalize parseHttpChar callback c (p, s) = x
    generalize parseHttpChar record c (p, []) = r
    intro hok hend hout
    cases hout with
    | refused q =>
      refine ⟨ph, ?_, fun hx => ?_⟩
      · rcases hend with hsame | ⟨evs, e, hevs, -, -⟩
        · rw [hsame.context]
          exact h
        · exact absurd hevs (by simp)
      · rw [hok] at hx
        exact Bool.noConfusion hx
    | goes q evs ph' hrun hfollows' hnone =>
      rcases hend with hsame | ⟨evs', e, hevs, htype, -⟩
      · refine ⟨ph', ?_, fun _ => ?_⟩
        · rw [hsame.context]
          exact replay_follows hP h hrun
        · rw [hsame.parser]
          exact .inr hfollows'
      · have hmem : e ∈ evs := by
          rw [show evs = evs' ++ [e] from hevs]
          exact List.mem_append_right _ (List.mem_singleton_self e)
        exact absurd htype (hnone e hmem)
    | completes q evs e hrun htype hready hnone =>
      have hkept := replay_follows hP h hrun
      rcases hend with hsame | ⟨evs', e', hevs, -, hx⟩
      · refine ⟨.start, ?_, fun _ => ?_⟩
        · rw [hsame.context]
          exact hkept
        · rw [hsame.parser]
          exact .inl hready
      · obtain ⟨rfl, hlast⟩ := List.append_inj' hevs rfl
        obtain rfl := List.cons.inj hlast |>.1
        refine ⟨.start, ?_, fun _ => ?_⟩
        · have hctx : x.2.2 = replay callback s (evs ++ [e]) := by
            rw [hx, replay_append]
            exact hcb.context e _ _ _
          rw [hctx]
          exact hkept
        · rcases hcb.ready e q (replay callback s evs) with hkeep | hreset
          · rw [hx, hkeep]
            exact .inl hready
          · rw [hx, hreset]
            exact .inr follows_reset

/-- **What every event of a request keeps, a run keeps.** -/
theorem feed_follows (hcb : Resetting callback)
    (hP : ∀ e s ph ph', P s ph → ph.next e = some ph' → P (callback e (.reset, s)).2 ph')
    (bs : List UInt8) {p : HttpParser} {s : σ} {ph : Phase}
    (hp : p.rx.ready = true ∨ Follows p ph) (h : P s ph) :
    ∃ ph', P (feed callback bs (p, s)).2.2 ph' := by
  induction bs generalizing p s ph with
  | nil => exact ⟨ph, h⟩
  | cons c cs ih =>
    obtain ⟨ph', hkept, hgo⟩ := parse_keeps hcb hP hp h c
    unfold feed
    revert hkept hgo
    rcases parseHttpChar callback c (p, s) with ⟨_ | _, q, t⟩
    · intro hkept _
      exact ⟨ph', hkept⟩
    · intro hkept hgo
      exact ih (hgo rfl) hkept

end Run

/-! ## The events of a connection -/

/-- The callback that keeps a log and resets the parser on `HTTP_READY`. -/
def logging : HttpCallback (List HttpEvent) := fun e ps =>
  (if e.type = .ready then .reset else ps.1, ps.2 ++ [e])

/-- What a connection reports up to the first byte that is refused. -/
def events (bs : List UInt8) : List HttpEvent := (feed logging bs (.reset, [])).2.2

theorem resetting_logging : Resetting logging := by
  refine ⟨fun e p q s => rfl, fun e p s he => if_neg he, fun e p s => ?_⟩
  show (if e.type = .ready then HttpParser.reset else p) = p ∨ _ = HttpParser.reset
  by_cases he : e.type = .ready
  · exact .inr (if_pos he)
  · exact .inl (if_neg he)

theorem replay_logging (log evs : List HttpEvent) : replay logging log evs = log ++ evs := by
  induction evs generalizing log with
  | nil => exact (List.append_nil log).symm
  | cons e evs ih =>
    show replay logging (log ++ [e]) evs = log ++ e :: evs
    rw [ih, List.append_assoc]
    rfl

/-- **The events of a connection** are complete requests and the beginning of one. -/
theorem events_traces (bs : List UInt8) :
    ∃ done ∈ requestTrace∗, ∃ part rest, events bs = done ++ part ∧ part ++ rest ∈ requestTrace := by
  have hP : ∀ (e : HttpEvent) (log : List HttpEvent) (ph ph' : Phase),
      log.foldlM Phase.next .start = some ph → ph.next e = some ph' →
      (logging e (.reset, log)).2.foldlM Phase.next .start = some ph' := by
    intro e log ph ph' hlog hnext
    show (log ++ [e]).foldlM Phase.next .start = some ph'
    simp [hlog, hnext]
  have hstart : ([] : List HttpEvent).foldlM Phase.next .start = some .start := rfl
  obtain ⟨ph, hph⟩ := feed_follows (P := fun log ph => log.foldlM Phase.next .start = some ph)
    resetting_logging hP bs (.inr follows_reset) hstart
  exact run_mem_requestTraces hph

/-- A request that is complete leaves a fresh parser. -/
theorem parse_logging (c : UInt8) (p : HttpParser) (log : List HttpEvent) :
    ∃ q evs, parseHttpChar logging c (p, log) =
        ((parseHttpChar record c (p, [])).1, q, log ++ evs) ∧
      (parseHttpChar record c (p, [])).2.2 = evs ∧
      q = if evs.any fun e => e.type = .ready then .reset else (parseHttpChar record c (p, [])).2.1 := by
  obtain ⟨hok, hend⟩ := parse_mirrors resetting_logging c p log
  have hout : ∀ e evs, e.type = CallbackType.ready →
      (evs ++ [e]).any (fun e : HttpEvent => e.type = .ready) = true := by
    intro e evs he
    simp [he]
  rcases hend with hsame | ⟨evs, e, hevs, htype, hx⟩
  · have hnone : ((parseHttpChar record c (p, [])).2.2.any fun e => e.type = .ready) = false := by
      simpa using hsame.unready
    refine ⟨_, _, ?_, rfl, rfl⟩
    rw [hnone, if_neg Bool.false_ne_true, ← replay_logging, ← hok, ← hsame.context, ← hsame.parser]
  · refine ⟨.reset, evs ++ [e], ?_, hevs, ?_⟩
    · rw [← hok, ← List.append_assoc, ← replay_logging log evs]
      refine Prod.ext rfl (hx.trans (Prod.ext (if_pos htype) rfl))
    · rw [hout e evs htype]
      rfl

/-- The events and the parser do not depend on the log that is written. -/
theorem feed_logging (bs : List UInt8) (p : HttpParser) (log : List HttpEvent) :
    feed logging bs (p, log) = ((feed logging bs (p, [])).1, (feed logging bs (p, [])).2.1,
      log ++ (feed logging bs (p, [])).2.2) := by
  induction bs generalizing p log with
  | nil => simp [feed]
  | cons c cs ih =>
    obtain ⟨q, evs, hlog, hevs, hq⟩ := parse_logging c p log
    obtain ⟨q', evs', hnil, hevs', hq'⟩ := parse_logging c p []
    obtain rfl : evs = evs' := hevs.symm.trans hevs'
    obtain rfl : q = q' := hq.trans hq'.symm
    unfold feed
    rw [hlog, hnil]
    cases (parseHttpChar record c (p, [])).1 with
    | false => simp
    | true =>
      simp only
      rw [ih q (log ++ evs), ih q ([] ++ evs)]
      simp

/-- The actions that may refuse a byte. -/
theorem perform_refused {callback : HttpCallback σ} {a : ParserAction} {c : UInt8} {k : ParserClass}
    {ps : HttpParser × σ} (h : (perform callback a c k ps).1 = false) :
    a = .vc ∨ a = .ea ∨ a = .bh := by
  cases a
  case vc => exact .inl rfl
  case ea => exact .inr (.inl rfl)
  case bh => exact .inr (.inr rfl)
  case eh =>
    simp only [perform] at h
    split at h <;> split at h <;> exact Bool.noConfusion h
  case qs =>
    simp only [perform] at h
    split at h <;> exact Bool.noConfusion h
  all_goals exact Bool.noConfusion h

/-- A refused byte calls nothing. -/
theorem parse_refused (callback : HttpCallback σ) {c : UInt8} {p : HttpParser} {s : σ}
    (h : (parseHttpChar callback c (p, s)).1 = false) :
    (parseHttpChar callback c (p, s)).2.2 = s := by
  by_cases hbad : classOf c = .nul ∨ p.rx.ready = true
  · rw [parseHttpChar_refused callback s hbad]
  · rw [parseHttpChar_enter callback s hbad] at h ⊢
    cases hcell : stateTransitionTable p.state (classOf c) with
    | xx => rfl
    | goto q => rfl
    | act a =>
      rw [hcell] at h
      simp only [enter] at h ⊢
      rcases perform_refused h with rfl | rfl | rfl
      · simp only [perform]
        split <;> rfl
      · simp only [perform]
        split <;> rfl
      · simp only [perform]
        split <;> rfl

/-- Bytes are fed one after another. -/
theorem feed_append (callback : HttpCallback σ) (bs cs : List UInt8) (ps : HttpParser × σ) :
    feed callback (bs ++ cs) ps =
      if (feed callback bs ps).1 then feed callback cs (feed callback bs ps).2
      else feed callback bs ps := by
  induction bs generalizing ps with
  | nil => rfl
  | cons c bs ih =>
    rw [List.cons_append, feed, feed]
    rcases parseHttpChar callback c ps with ⟨_ | _, q⟩
    · rfl
    · exact ih q

/-- **Each request is reported as on a fresh connection**: behind a byte that completes a request
the rest of the connection reports what it would report on its own. -/
theorem events_append (bs : List UInt8) (c : UInt8) (cs : List UInt8) (evs : List HttpEvent)
    (e : HttpEvent) (hevs : events (bs ++ [c]) = events bs ++ (evs ++ [e]))
    (he : e.type = .ready) : events (bs ++ c :: cs) = events (bs ++ [c]) ++ events cs := by
  unfold events at hevs ⊢
  rw [feed_append logging bs [c]] at hevs ⊢
  rw [feed_append logging bs (c :: cs)]
  rcases hfeed : feed logging bs (.reset, []) with ⟨ok, p, log⟩
  rw [hfeed] at hevs
  cases ok with
  | false =>
    -- a refused connection reports nothing more
    exact absurd hevs (by simp)
  | true =>
    obtain ⟨q, evs', hlog, -, hq⟩ := parse_logging c p log
    have hrefused := parse_refused logging (c := c) (p := p) (s := log)
    simp only [if_true, feed, hlog] at hevs hrefused ⊢
    cases hok : (parseHttpChar record c (p, [])).1 with
    | false =>
      simp only [hok] at hevs hrefused
      have hnil : evs' = [] := by simpa using hrefused
      rw [hnil] at hevs
      exact absurd hevs (by simp)
    | true =>
      simp only [hok] at hevs ⊢
      obtain rfl : evs' = evs ++ [e] := List.append_cancel_left hevs
      have hreset : q = .reset := by
        rw [hq, if_pos (by simp [he])]
      rw [hreset, feed_logging cs .reset]

end Ape.Http
