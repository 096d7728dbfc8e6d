import ApeServer.Http.Parser
import ApeServer.Lib.Traces

/-!
# The event stream of the HTTP parser

What a request reports is a word of a regular language.  `Phase` is an automaton over the events
that reads such words; the parser follows it byte by byte, and a callback that resets the parser on
`HTTP_READY` brings both back to the start.

* `requestTrace` — the language of one request;
* `Phase`, `Phase.next` — the automaton, and `next_part`, what it has read;
* `parse_follows` — **one byte follows the automaton**;
* `parse_record` — what any callback sees is what a recording one sees.
-/

namespace Ape.Http

open scoped Computability

/-! ## The language of a request -/

/-- The events of a type. -/
def sym (t : CallbackType) : Language HttpEvent := {w | ∃ value step, w = [⟨t, value, step⟩]}

/-- `HTTP_METHOD` of a method. -/
def methodSym (m : HttpMethod) : Language HttpEvent := {w | ∃ step, w = [⟨.method, m.value, step⟩]}

/-- A header line. -/
def headerLine : Language HttpEvent :=
  (sym .headerKeyc)∗ * sym .headerKey * ((sym .headerValc)∗ * sym .headerVal + sym .clVal)

/-- A request up to the end of its headers. -/
def requestHead (m : HttpMethod) : Language HttpEvent :=
  methodSym m * (sym .pathChar)∗ * sym .pathEnd * (sym .qsChar)∗ * sym .versionMajor *
    sym .versionMinor * headerLine∗ * sym .headerEnd

/-- A complete request; only a `POST` has a body. -/
def requestTrace : Language HttpEvent :=
  requestHead .get * sym .ready + requestHead .post * (sym .bodyChar)∗ * sym .ready

/-! ## The automaton -/

/-- How much of a request has been reported. -/
inductive Phase where
  | start
  | path (m : HttpMethod)
  | query (m : HttpMethod)
  | major (m : HttpMethod)
  | lines (m : HttpMethod)
  | key (m : HttpMethod)
  | named (m : HttpMethod)
  | value (m : HttpMethod)
  | ended (m : HttpMethod)
  deriving DecidableEq, Repr

/-- The phase after an event. -/
def Phase.next (ph : Phase) (e : HttpEvent) : Option Phase :=
  match ph, e.type with
  | .start, .method =>
    if e.value = HttpMethod.get.value then some (.path .get)
    else if e.value = HttpMethod.post.value then some (.path .post)
    else none
  | .path m, .pathChar => some (.path m)
  | .path m, .pathEnd => some (.query m)
  | .query m, .qsChar => some (.query m)
  | .query m, .versionMajor => some (.major m)
  | .major m, .versionMinor => some (.lines m)
  | .lines m, .headerKeyc => some (.key m)
  | .lines m, .headerKey => some (.named m)
  | .lines m, .headerEnd => some (.ended m)
  | .key m, .headerKeyc => some (.key m)
  | .key m, .headerKey => some (.named m)
  | .named m, .headerValc => some (.value m)
  | .named m, .headerVal => some (.lines m)
  | .named m, .clVal => some (.lines m)
  | .value m, .headerValc => some (.value m)
  | .value m, .headerVal => some (.lines m)
  | .ended .post, .bodyChar => some (.ended .post)
  | .ended _, .ready => some .start
  | _, _ => none

/-- `HTTP_READY` completes the request. -/
@[simp] theorem next_ended_ready (m : HttpMethod) (value : Int32) (step : UInt32) :
    (Phase.ended m).next ⟨.ready, value, step⟩ = some .start := by
  cases m <;> rfl

/-- A request up to its path. -/
def pathPart (m : HttpMethod) : Language HttpEvent := methodSym m * (sym .pathChar)∗

/-- A request up to its query string. -/
def queryPart (m : HttpMethod) : Language HttpEvent :=
  pathPart m * sym .pathEnd * (sym .qsChar)∗

/-- A request up to a header line. -/
def linesPart (m : HttpMethod) : Language HttpEvent :=
  queryPart m * sym .versionMajor * sym .versionMinor * headerLine∗

/-- What has been read when a phase is reached. -/
def Phase.part : Phase → Language HttpEvent
  | .start => 1
  | .path m => pathPart m
  | .query m => queryPart m
  | .major m => queryPart m * sym .versionMajor
  | .lines m => linesPart m
  | .key m => linesPart m * (sym .headerKeyc)∗
  | .named m => linesPart m * (sym .headerKeyc)∗ * sym .headerKey
  | .value m => linesPart m * (sym .headerKeyc)∗ * sym .headerKey * (sym .headerValc)∗
  | .ended .get => requestHead .get
  | .ended .post => requestHead .post * (sym .bodyChar)∗

theorem singleton_mem_sym (e : HttpEvent) : [e] ∈ sym e.type := ⟨e.value, e.step, rfl⟩

theorem mem_sym {e : HttpEvent} {t : CallbackType} (h : e.type = t) : [e] ∈ sym t :=
  h ▸ singleton_mem_sym e

/-- A name and then a value close a header line. -/
theorem headerLine_close {m : HttpMethod} {w v : List HttpEvent}
    (h : w ∈ linesPart m * (sym .headerKeyc)∗ * sym .headerKey)
    (hv : v ∈ (sym .headerValc)∗ * sym .headerVal + sym .clVal) : w ++ v ∈ linesPart m := by
  have hmem : w ++ v ∈ linesPart m * (sym .headerKeyc)∗ * sym .headerKey *
      ((sym .headerValc)∗ * sym .headerVal + sym .clVal) := Language.append_mem_mul h hv
  have hassoc : linesPart m * (sym .headerKeyc)∗ * sym .headerKey *
      ((sym .headerValc)∗ * sym .headerVal + sym .clVal) = linesPart m * headerLine := by
    simp only [headerLine, mul_assoc]
  rw [hassoc] at hmem
  obtain ⟨a, ha, b, hb, hab⟩ := Language.mem_mul.1 hmem
  rw [← hab]
  exact Traces.append_mem_mul_kstar ha hb

/-- **What the automaton has read**: an event that leads back to the start completes a request. -/
theorem next_part (ph : Phase) (e : HttpEvent) (ph' : Phase) (w : List HttpEvent)
    (hw : w ∈ ph.part) (hnext : ph.next e = some ph') :
    (ph' = .start ∧ w ++ [e] ∈ requestTrace) ∨ w ++ [e] ∈ ph'.part := by
  obtain ⟨type, value, step⟩ := e
  cases ph with
  | start =>
    cases type <;> simp only [Phase.next, reduceCtorEq] at hnext
    obtain rfl : w = [] := hw
    have hpath : ∀ m : HttpMethod, value = m.value →
        [] ++ [⟨.method, value, step⟩] ∈ (Phase.path m).part := fun m hm =>
      Traces.mem_mul_kstar ⟨step, by rw [hm]; rfl⟩
    split at hnext
    · obtain rfl := Option.some.inj hnext
      exact .inr (hpath .get ‹_›)
    · split at hnext
      · obtain rfl := Option.some.inj hnext
        exact .inr (hpath .post ‹_›)
      · exact absurd hnext (by simp)
  | path m =>
    cases type <;> simp only [Phase.next, reduceCtorEq, Option.some.injEq] at hnext <;> subst hnext
    case pathChar => exact .inr (Traces.append_mem_mul_kstar hw (mem_sym rfl))
    case pathEnd =>
      exact .inr (Traces.mem_mul_kstar (Language.append_mem_mul hw (mem_sym rfl)))
  | query m =>
    cases type <;> simp only [Phase.next, reduceCtorEq, Option.some.injEq] at hnext <;> subst hnext
    case qsChar => exact .inr (Traces.append_mem_mul_kstar hw (mem_sym rfl))
    case versionMajor => exact .inr (Language.append_mem_mul hw (mem_sym rfl))
  | major m =>
    cases type <;> simp only [Phase.next, reduceCtorEq, Option.some.injEq] at hnext
    subst hnext
    exact .inr (Traces.mem_mul_kstar (Language.append_mem_mul hw (mem_sym rfl)))
  | lines m =>
    have hkey : w ∈ linesPart m * (sym .headerKeyc)∗ := Traces.mem_mul_kstar hw
    cases type <;> simp only [Phase.next, reduceCtorEq, Option.some.injEq] at hnext <;> subst hnext
    case headerKeyc => exact .inr (Traces.append_mem_mul_kstar hkey (mem_sym rfl))
    case headerKey => exact .inr (Language.append_mem_mul hkey (mem_sym rfl))
    case headerEnd =>
      have hhead : w ++ [⟨.headerEnd, value, step⟩] ∈ requestHead m :=
        Language.append_mem_mul hw (mem_sym rfl)
      cases m with
      | get => exact .inr hhead
      | post => exact .inr (Traces.mem_mul_kstar hhead)
  | key m =>
    cases type <;> simp only [Phase.next, reduceCtorEq, Option.some.injEq] at hnext <;> subst hnext
    case headerKeyc => exact .inr (Traces.append_mem_mul_kstar hw (mem_sym rfl))
    case headerKey => exact .inr (Language.append_mem_mul hw (mem_sym rfl))
  | named m =>
    have hval : ∀ e : HttpEvent, e.type = .headerVal →
        [e] ∈ (sym .headerValc)∗ * sym .headerVal + sym .clVal := fun e he =>
      .inl (Language.append_mem_mul (Language.nil_mem_kstar _) (mem_sym he))
    cases type <;> simp only [Phase.next, reduceCtorEq, Option.some.injEq] at hnext <;> subst hnext
    case headerValc =>
      exact .inr (Traces.append_mem_mul_kstar (Traces.mem_mul_kstar hw) (mem_sym rfl))
    case headerVal => exact .inr (headerLine_close hw (hval _ rfl))
    case clVal => exact .inr (headerLine_close hw (.inr (mem_sym rfl)))
  | value m =>
    cases type <;> simp only [Phase.next, reduceCtorEq, Option.some.injEq] at hnext <;> subst hnext
    case headerValc => exact .inr (Traces.append_mem_mul_kstar hw (mem_sym rfl))
    case headerVal =>
      obtain ⟨a, ha, b, hb, rfl⟩ := Language.mem_mul.1 hw
      refine .inr ?_
      rw [List.append_assoc]
      exact headerLine_close ha (.inl (Language.append_mem_mul hb (mem_sym rfl)))
  | ended m =>
    cases m with
    | get =>
      cases type <;> simp only [Phase.next, reduceCtorEq, Option.some.injEq] at hnext
      subst hnext
      exact .inl ⟨rfl, .inl (Language.append_mem_mul hw (mem_sym rfl))⟩
    | post =>
      cases type <;> simp only [Phase.next, reduceCtorEq, Option.some.injEq] at hnext <;>
        subst hnext
      case bodyChar => exact .inr (Traces.append_mem_mul_kstar hw (mem_sym rfl))
      case ready => exact .inl ⟨rfl, .inr (Language.append_mem_mul hw (mem_sym rfl))⟩

/-- What has been read can be completed to a request. -/
def Phase.Completes (ph : Phase) : Prop := ∀ w ∈ ph.part, ∃ rest, w ++ rest ∈ requestTrace

/-- By an event and what completes the phase behind it. -/
theorem Phase.Completes.before {ph ph' : Phase} (h : ph'.Completes) (e : HttpEvent)
    (hnext : ph.next e = some ph') : ph.Completes := by
  intro w hw
  rcases next_part ph e ph' w hw hnext with ⟨-, htrace⟩ | hpart
  · exact ⟨[e], htrace⟩
  · obtain ⟨rest, hrest⟩ := h (w ++ [e]) hpart
    exact ⟨e :: rest, by simpa using hrest⟩

/-- Every phase can be completed. -/
theorem completes (ph : Phase) : ph.Completes := by
  have hended : ∀ m, (Phase.ended m).Completes := by
    intro m w hw
    rcases next_part (.ended m) ⟨.ready, 0, 0⟩ .start w hw (by cases m <;> rfl) with
      ⟨-, htrace⟩ | hpart
    · exact ⟨_, htrace⟩
    · exact absurd hpart (by simp [Phase.part])
  have hlines : ∀ m, (Phase.lines m).Completes := fun m =>
    (hended m).before ⟨.headerEnd, 0, 0⟩ rfl
  have hnamed : ∀ m, (Phase.named m).Completes := fun m => (hlines m).before ⟨.clVal, 0, 0⟩ rfl
  have hmajor : ∀ m, (Phase.major m).Completes := fun m =>
    (hlines m).before ⟨.versionMinor, 0, 0⟩ rfl
  have hquery : ∀ m, (Phase.query m).Completes := fun m =>
    (hmajor m).before ⟨.versionMajor, 0, 0⟩ rfl
  have hpath : ∀ m, (Phase.path m).Completes := fun m => (hquery m).before ⟨.pathEnd, 0, 0⟩ rfl
  cases ph with
  | start => exact (hpath .get).before ⟨.method, 0, 0⟩ rfl
  | path m => exact hpath m
  | query m => exact hquery m
  | major m => exact hmajor m
  | lines m => exact hlines m
  | key m => exact (hnamed m).before ⟨.headerKey, 0, 0⟩ rfl
  | named m => exact hnamed m
  | value m => exact (hlines m).before ⟨.headerVal, 0, 0⟩ rfl
  | ended m => exact hended m

/-- **The events of a run of the automaton** are complete requests and the beginning of one. -/
theorem run_mem_requestTraces {evs : List HttpEvent} {ph : Phase}
    (hrun : evs.foldlM Phase.next .start = some ph) :
    ∃ done ∈ requestTrace∗, ∃ part rest, evs = done ++ part ∧ part ++ rest ∈ requestTrace := by
  have hhome : [] ∈ Phase.part .start := rfl
  obtain ⟨done, hdone, w, hw, heq⟩ := Traces.run_mem_traces hhome next_part hrun
  obtain ⟨rest, hrest⟩ := completes ph w hw
  exact ⟨done, hdone, w, rest, heq, hrest⟩

/-! ## The states of the parser -/

/-- The part of a request that a state reads. -/
inductive Zone where
  | method
  | path
  | hex
  | target
  | major
  | lines
  | key
  | value
  | length
  | body
  deriving DecidableEq, Repr

/-- The part of a request that a state reads. -/
def ParserState.zone : ParserState → Zone
  | .go | .g1 | .g2 | .g3 | .p1 | .p2 | .p3 | .p4 => .method
  | .pt => .path
  | .e1 | .e2 => .hex
  | .h1 | .h2 | .h3 | .h4 | .h5 | .h6 => .target
  | .h7 | .h8 => .major
  | .el | .er | .c1 | .fi => .lines
  | .hh | .c2 | .c3 | .c4 | .c5 | .c6 | .c7 | .c8 | .c9 | .ca | .cb | .cc | .cd | .ce | .cf | .cg =>
    .key
  | .hi => .value
  | .cv => .length
  | .bt => .body

/-- An entry that may stand in the row of a state of the zone. -/
def Cell.Fits (z : Zone) : Cell → Bool
  | .xx => true
  | .goto s => s.zone = z || (z = .lines && s.zone = .key) || (z = .path && s.zone = .hex)
  | .act .mg | .act .mp => z = .method
  | .act .pe | .act .pc | .act .qs => z = .path
  | .act .ea | .act .eb => z = .hex
  | .act .ha => z = .target
  | .act .hb => z = .major
  | .act .kh | .act .hk => z = .lines || z = .key
  | .act .kc => z = .key
  | .act .hv | .act .vh => z = .value
  | .act .vc | .act .ve => z = .length
  | .act .eh => z = .lines
  | .act .bc | .act .bh => z = .body

/-- **The table respects the zones.** -/
theorem stateTransitionTable_fits (s : ParserState) (k : ParserClass) :
    (stateTransitionTable s k).Fits s.zone = true := by
  have hrow : ((tableRow s).all fun cell => cell.Fits s.zone) = true := by
    cases s <;> decide
  unfold stateTransitionTable
  rw [List.getD_eq_getElem?_getD]
  cases hcell : (tableRow s)[k.ctorIdx]? with
  | none => rfl
  | some cell => exact List.all_eq_true.1 hrow cell (List.mem_of_getElem? hcell)

/-! ## The parser follows the automaton -/

/-- The callback that keeps a log. -/
def record : HttpCallback (List HttpEvent) := fun e ps => (ps.1, ps.2 ++ [e])

/-- A byte that is accepted is looked up in the table. -/
theorem parse_accepted {c : UInt8} {p q : HttpParser} {log log' : List HttpEvent}
    (h : parseHttpChar record c (p, log) = (true, q, log')) :
    enter record (stateTransitionTable p.state (classOf c)) c (classOf c)
      ({ p with step := p.step + 1 }, log) = (true, q, log') := by
  by_cases hbad : classOf c = .nul ∨ p.rx.ready = true
  · rw [parseHttpChar_refused record log hbad] at h
    exact Bool.noConfusion (Prod.mk.inj h).1
  · rwa [parseHttpChar_enter record log hbad] at h

/-- A fed byte that is accepted. -/
theorem feed_cons {c : UInt8} {cs : List UInt8} {p q : HttpParser} {log log' : List HttpEvent}
    (h : feed record (c :: cs) (p, log) = (true, q, log')) :
    ∃ p₁ log₁, parseHttpChar record c (p, log) = (true, p₁, log₁) ∧
      feed record cs (p₁, log₁) = (true, q, log') := by
  rw [feed] at h
  rcases hparse : parseHttpChar record c (p, log) with ⟨_ | _, p₁, log₁⟩
  · rw [hparse] at h
    exact Bool.noConfusion (Prod.mk.inj h).1
  · rw [hparse] at h
    exact ⟨p₁, log₁, rfl, h⟩

/-- In a path or its query string. -/
def InPath (rx : Rx) (ph : Phase) : Prop :=
  rx.bodyContent = false ∧
    ∃ m : HttpMethod, rx.post = decide (m = .post) ∧ ph = if rx.qs then .query m else .path m

/-- Behind the path, before the body. -/
def InHead (rx : Rx) (part : HttpMethod → Prop) : Prop :=
  rx.bodyContent = false ∧ ∃ m : HttpMethod, rx.post = decide (m = .post) ∧ part m

/-- In the body. -/
def InBody (rx : Rx) (ph : Phase) : Prop :=
  rx.bodyContent = true ∧ rx.post = true ∧ ph = .ended .post

/-- What the flags and the phase are in a zone. -/
def Zone.Agrees (rx : Rx) (ph : Phase) : Zone → Prop
  | .method => ph = .start ∧ rx.post = false ∧ rx.qs = false ∧ rx.bodyContent = false
  | .path => InPath rx ph
  | .hex => InPath rx ph ∨ InBody rx ph
  | .target => InHead rx fun m => ph = .query m
  | .major => InHead rx fun m => ph = .major m
  | .lines => InHead rx fun m => ph = .lines m
  | .key => InHead rx fun m => ph = .lines m ∨ ph = .key m
  | .value => InHead rx fun m => ph = .named m ∨ ph = .value m
  | .length => InHead rx fun m => ph = .named m
  | .body => InBody rx ph

/-- The parser stands where the automaton does. -/
structure Follows (p : HttpParser) (ph : Phase) : Prop where
  unready : p.rx.ready = false
  agrees : p.state.zone.Agrees p.rx ph

theorem follows_reset : Follows .reset .start := ⟨rfl, rfl, rfl, rfl, rfl⟩

/-- What a byte does: it is refused without an event, or it leads to another phase, or it completes
the request, in which case `HTTP_READY` is the last event. -/
inductive Outcome (ph : Phase) : Bool × HttpParser × List HttpEvent → Prop where
  | refused (p : HttpParser) : Outcome ph (false, p, [])
  | goes (p : HttpParser) (evs : List HttpEvent) (ph' : Phase) :
      evs.foldlM Phase.next ph = some ph' → Follows p ph' → (∀ e ∈ evs, e.type ≠ .ready) →
      Outcome ph (true, p, evs)
  | completes (p : HttpParser) (evs : List HttpEvent) (e : HttpEvent) :
      (evs ++ [e]).foldlM Phase.next ph = some .start → e.type = .ready → p.rx.ready = true →
      (∀ e ∈ evs, e.type ≠ .ready) → Outcome ph (true, p, evs ++ [e])

/-- One event that is not `HTTP_READY`. -/
theorem Outcome.one {ph ph' : Phase} {p : HttpParser} {e : HttpEvent} (hnext : ph.next e = some ph')
    (hfollows : Follows p ph') (htype : e.type ≠ .ready) : Outcome ph (true, p, [e]) :=
  .goes p [e] ph' (by simp [hnext]) hfollows (by simpa using htype)

/-- `HTTP_READY` behind one other event. -/
theorem Outcome.ends {ph : Phase} {m : HttpMethod} {p : HttpParser} {e : HttpEvent}
    (hnext : ph.next e = some (.ended m)) (htype : e.type ≠ .ready) (hready : p.rx.ready = true)
    (step : UInt32) : Outcome ph (true, p, [e, ⟨.ready, 0, step⟩]) :=
  .completes p [e] ⟨.ready, 0, step⟩ (by simp [hnext]) rfl hready (by simpa using htype)

/-- `HTTP_CONSUME_BODY` behind a body char. -/
theorem Outcome.consume {p : HttpParser} {e : HttpEvent} (htype : e.type = .bodyChar)
    (hfollows : Follows p (.ended .post)) :
    Outcome (.ended .post) (true, consumeBody record (p, [e])) := by
  have hnext : Phase.next (.ended .post) e = some (.ended .post) := by
    simp [Phase.next, htype]
  unfold consumeBody
  simp only
  split
  · exact .ends hnext (by simp [htype]) rfl p.step
  · exact .one hnext ⟨hfollows.unready, hfollows.agrees⟩ (by simp [htype])

/-- A state of a key reads the key of a line that may not have begun. -/
theorem Zone.Agrees.key_of_fits {rx : Rx} {ph : Phase} {z : Zone} (h : z.Agrees rx ph)
    (hz : z = .lines ∨ z = .key) : InHead rx fun m => ph = .lines m ∨ ph = .key m := by
  rcases hz with rfl | rfl
  · obtain ⟨hbody, m, hpost, hph⟩ := h
    exact ⟨hbody, m, hpost, .inl hph⟩
  · exact h

/-- The characters of a path or of a query string stay in their phase. -/
theorem InPath.next {rx : Rx} {ph : Phase} (h : InPath rx ph) {type : CallbackType}
    (htype : type = if rx.qs then .qsChar else .pathChar) (value : Int32) (step : UInt32) :
    ph.next ⟨type, value, step⟩ = some ph := by
  obtain ⟨-, m, -, rfl⟩ := h
  subst htype
  cases rx.qs <;> rfl

/-- `HTTP_BODY_AS_ENDED` leaves the flags of a body that has not ended. -/
theorem bodyAsEnded_rx {p q : HttpParser} (h : bodyAsEnded p = (false, q)) : q.rx = p.rx := by
  unfold bodyAsEnded at h
  simp only at h
  split at h
  · split at h
    · simp at h
    · obtain rfl := (Prod.mk.inj h).2
      rfl
  · obtain rfl := (Prod.mk.inj h).2
    rfl

/-- **An action follows the automaton.** -/
theorem perform_follows {p : HttpParser} {ph : Phase} (h : Follows p ph) {a : ParserAction}
    (hfits : (Cell.act a).Fits p.state.zone = true) (c : UInt8) (k : ParserClass) :
    Outcome ph (perform record a c k (p, [])) := by
  obtain ⟨hready, hzone⟩ := h
  -- the state behind a line feed or a carriage return
  have hline : (if k = .cr then ParserState.er else .c1).zone = .lines := by split <;> rfl
  cases a with
  | mg =>
    obtain hz : p.state.zone = .method := by simpa [Cell.Fits] using hfits
    rw [hz] at hzone
    obtain ⟨rfl, hpost, hqs, hbody⟩ := hzone
    have hnext : Phase.next .start ⟨.method, HttpMethod.get.value, p.step⟩ = some (.path .get) := rfl
    exact .one hnext ⟨hready, hbody, .get, hpost, by simp [emit, record, HttpParser.goto, hqs]⟩
      (by simp)
  | mp =>
    obtain hz : p.state.zone = .method := by simpa [Cell.Fits] using hfits
    rw [hz] at hzone
    obtain ⟨rfl, -, hqs, hbody⟩ := hzone
    have hnext : Phase.next .start ⟨.method, HttpMethod.post.value, p.step⟩ = some (.path .post) :=
      rfl
    exact .one hnext ⟨hready, hbody, .post, rfl,
      by simp [emit, record, HttpParser.startPost, hqs]⟩ (by simp)
  | pe =>
    obtain hz : p.state.zone = .path := by simpa [Cell.Fits] using hfits
    rw [hz] at hzone
    obtain ⟨hbody, m, hpost, rfl⟩ := hzone
    cases hqs : p.rx.qs with
    | true =>
      have hrun : perform record .pe c k (p, []) = (true, p.goto .h1, []) := by
        simp [perform, hqs, modify]
      rw [hrun]
      exact .goes _ [] (.query m) rfl ⟨hready, hbody, m, hpost, rfl⟩ (by simp)
    | false =>
      have hrun : perform record .pe c k (p, []) =
          (true, p.goto .h1, [⟨.pathEnd, 0, p.step⟩]) := by
        simp [perform, hqs, modify, emit, record]
      have hnext : (Phase.path m).next ⟨.pathEnd, 0, p.step⟩ = some (.query m) := rfl
      rw [hrun]
      exact .one hnext ⟨hready, hbody, m, hpost, rfl⟩ (by simp)
  | ha =>
    obtain hz : p.state.zone = .target := by simpa [Cell.Fits] using hfits
    rw [hz] at hzone
    obtain ⟨hbody, m, hpost, rfl⟩ := hzone
    have hnext : (Phase.query m).next ⟨.versionMajor, digit c, p.step⟩ = some (.major m) := rfl
    exact .one hnext ⟨hready, hbody, m, hpost, rfl⟩ (by simp)
  | hb =>
    obtain hz : p.state.zone = .major := by simpa [Cell.Fits] using hfits
    rw [hz] at hzone
    obtain ⟨hbody, m, hpost, rfl⟩ := hzone
    have hnext : (Phase.major m).next ⟨.versionMinor, digit c, p.step⟩ = some (.lines m) := rfl
    exact .one hnext ⟨hready, hbody, m, hpost, rfl⟩ (by simp)
  | kh =>
    obtain ⟨hbody, m, hpost, hph⟩ : InHead p.rx fun m => ph = .lines m ∨ ph = .key m :=
      hzone.key_of_fits (by simpa [Cell.Fits] using hfits)
    have hnext : ph.next ⟨.headerKey, 0, p.step⟩ = some (.named m) := by
      rcases hph with rfl | rfl <;> rfl
    exact .one hnext ⟨hready, hbody, m, hpost, .inl rfl⟩ (by simp)
  | hk =>
    obtain ⟨hbody, m, hpost, hph⟩ : InHead p.rx fun m => ph = .lines m ∨ ph = .key m :=
      hzone.key_of_fits (by simpa [Cell.Fits] using hfits)
    have hnext : ph.next ⟨.headerKeyc, Int32.ofNat c.toNat, p.step⟩ = some (.key m) := by
      rcases hph with rfl | rfl <;> rfl
    exact .one hnext ⟨hready, hbody, m, hpost, .inr rfl⟩ (by simp)
  | kc =>
    obtain ⟨hbody, m, hpost, hph⟩ : InHead p.rx fun m => ph = .lines m ∨ ph = .key m :=
      hzone.key_of_fits (.inr (by simpa [Cell.Fits] using hfits))
    have hnext : ph.next ⟨.headerKey, 0, p.step⟩ = some (.named m) := by
      rcases hph with rfl | rfl <;> rfl
    exact .one hnext ⟨hready, hbody, m, hpost, rfl⟩ (by simp)
  | vh =>
    obtain hz : p.state.zone = .value := by simpa [Cell.Fits] using hfits
    rw [hz] at hzone
    obtain ⟨hbody, m, hpost, hph⟩ := hzone
    have hnext : ph.next ⟨.headerVal, 0, p.step⟩ = some (.lines m) := by
      rcases hph with rfl | rfl <;> rfl
    refine .one hnext ⟨hready, ?_⟩ (by simp)
    show Zone.Agrees p.rx (.lines m) (ParserState.zone (if k = .cr then .er else .c1))
    rw [hline]
    exact ⟨hbody, m, hpost, rfl⟩
  | hv =>
    obtain hz : p.state.zone = .value := by simpa [Cell.Fits] using hfits
    rw [hz] at hzone
    obtain ⟨hbody, m, hpost, hph⟩ := hzone
    have hnext : ph.next ⟨.headerValc, Int32.ofNat c.toNat, p.step⟩ = some (.value m) := by
      rcases hph with rfl | rfl <;> rfl
    exact .one hnext ⟨hready, hbody, m, hpost, .inr rfl⟩ (by simp)
  | vc =>
    obtain hz : p.state.zone = .length := by simpa [Cell.Fits] using hfits
    rw [hz] at hzone
    obtain ⟨hbody, m, hpost, rfl⟩ := hzone
    simp only [perform]
    split
    · exact .refused _
    · exact .goes _ [] (.named m) rfl ⟨hready, hbody, m, hpost, rfl⟩ (by simp)
  | ve =>
    obtain hz : p.state.zone = .length := by simpa [Cell.Fits] using hfits
    rw [hz] at hzone
    obtain ⟨hbody, m, hpost, rfl⟩ := hzone
    have hnext : (Phase.named m).next ⟨.clVal, p.cl.toInt32, p.step⟩ = some (.lines m) := rfl
    refine .one hnext ⟨hready, ?_⟩ (by simp)
    show Zone.Agrees p.rx (.lines m) (ParserState.zone (if k = .cr then .er else .c1))
    rw [hline]
    exact ⟨hbody, m, hpost, rfl⟩
  | ea =>
    obtain hz : p.state.zone = .hex := by simpa [Cell.Fits] using hfits
    rw [hz] at hzone
    simp only [perform]
    rcases hended : bodyAsEnded p with ⟨_ | _, q⟩
    · have hrx := bodyAsEnded_rx hended
      rw [← hrx] at hready hzone
      exact .goes _ [] ph rfl ⟨hready, hzone⟩ (by simp)
    · exact .refused _
  | bh =>
    obtain hz : p.state.zone = .body := by simpa [Cell.Fits] using hfits
    rw [hz] at hzone
    simp only [perform]
    rcases hended : bodyAsEnded p with ⟨_ | _, q⟩
    · have hrx := bodyAsEnded_rx hended
      rw [← hrx] at hready hzone
      exact .goes _ [] ph rfl ⟨hready, .inr hzone⟩ (by simp)
    · exact .refused _
  | eb =>
    obtain hz : p.state.zone = .hex := by simpa [Cell.Fits] using hfits
    rw [hz] at hzone
    rcases hzone with hpath | ⟨hbody, hpost, rfl⟩
    · have hbody := hpath.1
      have hrun : perform record .eb c k (p, []) =
          (true, p.unhexed,
            [⟨pathOrQs p, Int32.ofNat (hexDigit (p.rx.low.toUInt8 <<< 4) c).toNat, p.step⟩]) := by
        simp [perform, hbody, modify, emit, record, HttpParser.unhexed]
      have hzone : p.unhexed.state.zone = .path := by simp [HttpParser.unhexed, hbody, ParserState.zone]
      rw [hrun]
      refine .one (hpath.next rfl _ _) ⟨hready, ?_⟩ ?_
      · rw [hzone]
        exact hpath
      unfold pathOrQs
      split <;> simp
    · have hrun : perform record .eb c k (p, []) =
          (true, consumeBody record (p.unhexed,
            [⟨.bodyChar, Int32.ofNat (hexDigit (p.rx.low.toUInt8 <<< 4) c).toNat, p.step⟩])) := by
        simp [perform, hbody, modify, emit, record, HttpParser.unhexed]
      have hzone : p.unhexed.state.zone = .body := by simp [HttpParser.unhexed, hbody, ParserState.zone]
      rw [hrun]
      refine .consume rfl ⟨hready, ?_⟩
      rw [hzone]
      exact ⟨hbody, hpost, rfl⟩
  | eh =>
    obtain hz : p.state.zone = .lines := by simpa [Cell.Fits] using hfits
    rw [hz] at hzone
    obtain ⟨hbody, m, hpost, rfl⟩ := hzone
    have hnext : (Phase.lines m).next ⟨.headerEnd, 0, p.step⟩ = some (.ended m) := rfl
    cases m with
    | get =>
      have hrun : perform record .eh c k (p, []) =
          (true, p.setReady, [⟨.headerEnd, 0, p.step⟩, ⟨.ready, 0, p.step⟩]) := by
        simp [perform, emit, record, modify, hpost, HttpParser.setReady]
      rw [hrun]
      exact .ends hnext (by simp) rfl p.step
    | post =>
      by_cases hcl : p.cl = 0
      · have hrun : perform record .eh c k (p, []) =
            (true, p.startBody.setReady, [⟨.headerEnd, 0, p.step⟩, ⟨.ready, 0, p.step⟩]) := by
          simp [perform, emit, record, modify, hpost, HttpParser.startBody, HttpParser.setReady, hcl]
        rw [hrun]
        exact .ends hnext (by simp) rfl p.step
      · have hrun : perform record .eh c k (p, []) =
            (true, p.startBody, [⟨.headerEnd, 0, p.step⟩]) := by
          simp [perform, emit, record, modify, hpost, HttpParser.startBody, hcl]
        rw [hrun]
        exact .one hnext ⟨rfl, rfl, rfl, rfl⟩ (by simp)
  | bc =>
    obtain hz : p.state.zone = .body := by simpa [Cell.Fits] using hfits
    have hbody := hzone
    rw [hz] at hbody
    obtain ⟨-, -, rfl⟩ := hbody
    exact .consume rfl ⟨hready, hzone⟩
  | pc =>
    obtain hz : p.state.zone = .path := by simpa [Cell.Fits] using hfits
    rw [hz] at hzone
    refine .one (hzone.next rfl _ _) ⟨hready, hzone⟩ ?_
    show pathOrQs (p.goto .pt) ≠ .ready
    unfold pathOrQs
    split <;> simp
  | qs =>
    obtain hz : p.state.zone = .path := by simpa [Cell.Fits] using hfits
    rw [hz] at hzone
    cases hqs : p.rx.qs with
    | true =>
      have hrun : perform record .qs c k (p, []) =
          (true, p.goto .pt, [⟨.qsChar, Int32.ofNat c.toNat, p.step⟩]) := by
        simp [perform, modify, emit, record, HttpParser.goto, pathOrQs, hqs]
      rw [hrun]
      exact .one (hzone.next (by simp [hqs]) _ _) ⟨hready, hzone⟩ (by simp)
    | false =>
      obtain ⟨hbody, m, hpost, hph⟩ := hzone
      obtain rfl : ph = .path m := by simpa [hqs] using hph
      have hrun : perform record .qs c k (p, []) =
          (true, (p.goto .pt).startQs, [⟨.pathEnd, 0, p.step⟩]) := by
        simp [perform, modify, emit, record, HttpParser.goto, HttpParser.startQs, hqs]
      have hnext : (Phase.path m).next ⟨.pathEnd, 0, p.step⟩ = some (.query m) := rfl
      rw [hrun]
      exact .one hnext ⟨hready, hbody, m, hpost, rfl⟩ (by simp)

/-- **One byte follows the automaton.** -/
theorem parse_follows {p : HttpParser} {ph : Phase} (h : Follows p ph) (c : UInt8) :
    Outcome ph (parseHttpChar record c (p, [])) := by
  have hstep : Follows { p with step := p.step + 1 } ph := ⟨h.unready, h.agrees⟩
  have hfits := stateTransitionTable_fits p.state (classOf c)
  by_cases hbad : classOf c = .nul ∨ p.rx.ready = true
  · rw [parseHttpChar_refused record [] hbad]
    exact .refused _
  · rw [parseHttpChar_enter record [] hbad]
    cases hcell : stateTransitionTable p.state (classOf c) with
    | xx => exact .refused _
    | act a => exact perform_follows hstep (hcell ▸ hfits) c _
    | goto s =>
      rw [hcell] at hfits
      refine .goes _ [] ph rfl ⟨h.unready, ?_⟩ (by simp)
      have hzone := h.agrees
      show s.zone.Agrees p.rx ph
      simp only [Cell.Fits, Bool.or_eq_true, Bool.and_eq_true, decide_eq_true_eq] at hfits
      rcases hfits with (hsame | ⟨hlines, hkey⟩) | ⟨hpath, hhex⟩
      · rwa [hsame]
      · rw [hkey]
        exact hzone.key_of_fits (.inl hlines)
      · rw [hhex]
        rw [hpath] at hzone
        exact .inl hzone

end Ape.Http
