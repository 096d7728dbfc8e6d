import ApeServer.Http.Body
import ApeServer.Http.Lines

/-!
# A whole request

A request is its method and target, the version, the lines of the headers, an empty line, and for a
`POST` the body.  A line ends with a line feed, with or without a carriage return in front of it.

* `Request` — the parts of a request, and `Request.head`, what is sent of them;
* `Request.reports` — what is to be reported up to the end of the headers;
* `head_reported` — **a request that is taken is reported part by part**.
-/

namespace Ape.Http

open CString (lower)
open Percent (Complete decode)

/-! ## The parts -/

/-- A line of the headers. -/
structure Header where
  name : List UInt8
  value : List UInt8
  crlf : Bool
deriving DecidableEq

/-- A request, up to its body. -/
structure Request where
  method : HttpMethod
  target : List UInt8
  major : UInt8
  minor : UInt8
  crlf : Bool
  headers : List Header
  last : Bool
deriving DecidableEq

/-- The end of a line. -/
def lineEnd (crlf : Bool) : List UInt8 := if crlf then [13, 10] else [10]

/-- A line of the headers, as it is sent. -/
def Header.text (h : Header) : List UInt8 := h.name ++ 58 :: (h.value ++ lineEnd h.crlf)

/-- The first line behind the target: ` HTTP/`, the version and the end. -/
def Request.version (r : Request) : List UInt8 :=
  [72, 84, 84, 80, 47, r.major, 46, r.minor] ++ lineEnd r.crlf

/-- The request, as it is sent. -/
def Request.head (r : Request) : List UInt8 :=
  methodText r.method ++ r.target ++ [32] ++ r.version ++ r.headers.flatMap Header.text ++
    lineEnd r.last

/-- The parts do not run into each other. -/
structure Request.Plain (r : Request) : Prop where
  target : 32 ∉ r.target
  names : ∀ h ∈ r.headers, ∀ c ∈ h.name, c ≠ 58 ∧ c ≠ 13 ∧ c ≠ 10
  values : ∀ h ∈ r.headers, ∀ c ∈ h.value, c ≠ 13 ∧ c ≠ 10

/-- A line of `Content-Length`. -/
def Header.isLength (h : Header) : Bool := h.name.map lower ++ [58] = lengthName

/-- The name of a line, as it is reported. -/
def Header.key (h : Header) : List UInt8 := h.name.drop (shared 0 h.name)

/-- The declared length behind a line. -/
def Header.after (cl : UInt32) (h : Header) : UInt32 :=
  if h.isLength then (h.value.drop 1).foldl (fun cl c => cl * 10 + (c.toUInt32 - 48)) cl else cl

/-- What is to be reported of a line. -/
def Header.reports (cl : UInt32) (h : Header) : List (CallbackType × Int32) :=
  if h.isLength then [(.headerKey, 0), (.clVal, (h.after cl).toInt32)]
  else charsAs .headerKeyc h.key ++ (.headerKey, 0) :: charsAs .headerValc h.value ++
    [(.headerVal, 0)]

/-- What is to be reported of the headers. -/
def headerReports : UInt32 → List Header → List (CallbackType × Int32)
  | _, [] => []
  | cl, h :: hs => h.reports cl ++ headerReports (h.after cl) hs

/-- The declared length. -/
def Request.length (r : Request) : UInt32 := r.headers.foldl Header.after 0

/-- Whether a body is to come. -/
def Request.hasBody (r : Request) : Bool := r.method = .post && r.length ≠ 0

/-- What is to be reported of a request up to the end of its headers. -/
def Request.reports (r : Request) : List (CallbackType × Int32) :=
  (.method, r.method.value) :: Http.reports false r.target ++
    [(.versionMajor, digit r.major), (.versionMinor, digit r.minor)] ++
      headerReports 0 r.headers ++ [(.headerEnd, 0)]

/-- What a callback sees of an event, apart from the step. -/
def HttpEvent.view (e : HttpEvent) : CallbackType × Int32 := (e.type, e.value)

/-- The events behind a log are these. -/
def Adds (log log' : List HttpEvent) (views : List (CallbackType × Int32)) : Prop :=
  ∃ evs, log' = log ++ evs ∧ evs.map HttpEvent.view = views

theorem Adds.nil (log : List HttpEvent) : Adds log log [] := ⟨[], (List.append_nil _).symm, rfl⟩

theorem Adds.trans {log₁ log₂ log₃ : List HttpEvent} {v w : List (CallbackType × Int32)}
    (h : Adds log₁ log₂ v) (h' : Adds log₂ log₃ w) : Adds log₁ log₃ (v ++ w) := by
  obtain ⟨evs, rfl, rfl⟩ := h
  obtain ⟨evs', rfl, rfl⟩ := h'
  exact ⟨evs ++ evs', List.append_assoc _ _ _, List.map_append⟩

/-! ## One byte -/

section Byte

variable {c : UInt8} {cs : List UInt8} {p q : HttpParser} {log log' : List HttpEvent}

/-- A byte that leads to another state. -/
theorem feed_goto {s : ParserState} (hrow : stateTransitionTable p.state (classOf c) = .goto s)
    (h : feed record (c :: cs) (p, log) = (true, q, log')) :
    feed record cs ({ p with step := p.step + 1, state := s }, log) = (true, q, log') := by
  obtain ⟨p₁, log₁, hparse, hrest⟩ := feed_cons h
  have henter := parse_accepted hparse
  rw [hrow] at henter
  obtain ⟨rfl, rfl⟩ := Prod.mk.inj (Prod.mk.inj henter).2
  exact hrest

/-- A byte that is handed to the `switch`. -/
theorem feed_act {a : ParserAction} (hrow : stateTransitionTable p.state (classOf c) = .act a)
    (h : feed record (c :: cs) (p, log) = (true, q, log')) :
    ∃ p₁ log₁, perform record a c (classOf c) ({ p with step := p.step + 1 }, log) =
        (true, p₁, log₁) ∧ feed record cs (p₁, log₁) = (true, q, log') := by
  obtain ⟨p₁, log₁, hparse, hrest⟩ := feed_cons h
  have henter := parse_accepted hparse
  rw [hrow] at henter
  exact ⟨p₁, log₁, henter, hrest⟩

/-- In a header line, but for `Content-Length`, a byte changes the state of the parser only. -/
theorem line_byte (hline : p.state.line = .value ∨ p.state.line = .other ∨
      (∃ n < 15, p.state.line = .name n) ∧ c ≠ 10)
    (h : parseHttpChar record c (p, log) = (true, q, log')) : q.rx = p.rx ∧ q.cl = p.cl := by
  have hlf := (classOf_cases c).1
  have hreads := stateTransitionTable_reads p.state (classOf c)
  have henter := parse_accepted h
  generalize stateTransitionTable p.state (classOf c) = cell at hreads henter
  cases cell with
  | xx => exact Bool.noConfusion (Prod.mk.inj henter).1
  | goto s =>
    obtain ⟨rfl, rfl⟩ := Prod.mk.inj (Prod.mk.inj henter).2
    exact ⟨rfl, rfl⟩
  | act a =>
    have hlight : a = .hk ∨ a = .kh ∨ a = .hv ∨ a = .vh := by
      rcases hline with hline | hline | ⟨⟨n, hn, hline⟩, hc⟩
      · rw [hline] at hreads
        simp only [LineState.Reads, Bool.or_eq_true, Bool.and_eq_true, decide_eq_true_eq] at hreads
        exact .inr (.inr (hreads.imp And.left And.left))
      · rw [hline] at hreads
        simp only [LineState.Reads, Bool.or_eq_true, Bool.and_eq_true, decide_eq_true_eq] at hreads
        exact hreads.1.imp id .inl
      · have hk : classOf c ≠ .lf := fun hk => hc (hlf.1 hk)
        have hlast : n ≠ 15 := hn.ne
        rw [hline] at hreads
        simp only [LineState.Reads, hk, hlast, Bool.or_eq_true, Bool.and_eq_true, decide_eq_true_eq,
          decide_false, Bool.and_false, Bool.false_and, Bool.false_eq_true, or_false] at hreads
        exact hreads.1.1.imp id .inl
    rcases hlight with rfl | rfl | rfl | rfl <;>
      obtain ⟨rfl, rfl⟩ := Prod.mk.inj (Prod.mk.inj henter).2 <;> exact ⟨rfl, rfl⟩

end Byte

/-! ## A line -/

section Line

variable {p q : HttpParser} {log log' : List HttpEvent}

/-- The bytes of a name leave the flags and the length alone. -/
theorem name_calm {bs : List UInt8} (hbs : ∀ c ∈ bs, c ≠ 58 ∧ c ≠ 13 ∧ c ≠ 10)
    (hline : p.state.line = .other ∨ ∃ n < 15, p.state.line = .name n)
    (h : feed record bs (p, log) = (true, q, log')) : q.rx = p.rx ∧ q.cl = p.cl := by
  induction bs generalizing p log with
  | nil =>
    obtain ⟨rfl, rfl⟩ := Prod.mk.inj (Prod.mk.inj h).2
    exact ⟨rfl, rfl⟩
  | cons c cs ih =>
    obtain ⟨p₁, log₁, hparse, hrest⟩ := feed_cons h
    have hc := hbs c List.mem_cons_self
    have hcs : ∀ d ∈ cs, d ≠ 58 ∧ d ≠ 13 ∧ d ≠ 10 := fun d hd => hbs d (List.mem_cons_of_mem _ hd)
    obtain ⟨hrx, hcl⟩ := line_byte (.inr (hline.imp id fun hn => ⟨hn, hc.2.2⟩)) hparse
    have hline₁ : p₁.state.line = .other ∨ ∃ n < 15, p₁.state.line = .name n := by
      rcases hline with hline | ⟨n, hn, hline⟩
      · exact .inl (by rw [(other_byte hc.1 hline hparse).1]; rfl)
      · rcases name_byte hc hn hline hparse with ⟨hmatch, hline₁, -⟩ | ⟨-, hstate₁, -⟩
        · refine .inr ⟨n + 1, ?_, hline₁⟩
          by_contra hge
          exact lengthName_none hc.1 (by omega) hmatch
        · exact .inl (by rw [hstate₁]; rfl)
    obtain ⟨hrx', hcl'⟩ := ih hcs hline₁ hrest
    exact ⟨hrx'.trans hrx, hcl'.trans hcl⟩

/-- The bytes of a header value leave the flags and the content length alone. -/
theorem value_calm {bs : List UInt8} (hbs : ∀ c ∈ bs, c ≠ 13 ∧ c ≠ 10) (hstate : p.state = .hi)
    (h : feed record bs (p, log) = (true, q, log')) : q.rx = p.rx ∧ q.cl = p.cl := by
  induction bs generalizing p log with
  | nil =>
    obtain ⟨rfl, rfl⟩ := Prod.mk.inj (Prod.mk.inj h).2
    exact ⟨rfl, rfl⟩
  | cons c cs ih =>
    obtain ⟨p₁, log₁, hparse, hrest⟩ := feed_cons h
    have hline : p.state.line = .value := by
      rw [hstate]
      rfl
    obtain ⟨hrx, hcl⟩ := line_byte (.inl hline) hparse
    obtain ⟨hstate₁, -⟩ := value_byte (hbs c List.mem_cons_self) hline hparse
    obtain ⟨hrx', hcl'⟩ := ih (fun d hd => hbs d (List.mem_cons_of_mem _ hd)) hstate₁ hrest
    exact ⟨hrx'.trans hrx, hcl'.trans hcl⟩

/-- The end of a line, from where one is expected. -/
theorem lineEnd_eol (crlf : Bool) (hstate : p.state = .el)
    (h : feed record (lineEnd crlf) (p, log) = (true, q, log')) :
    q.state = .c1 ∧ q.rx = p.rx ∧ q.cl = p.cl ∧ log' = log := by
  cases crlf with
  | false =>
    have hlf := feed_goto (s := .c1) (by rw [hstate]; rfl) h
    obtain ⟨rfl, rfl⟩ := Prod.mk.inj (Prod.mk.inj hlf).2
    exact ⟨rfl, rfl, rfl, rfl⟩
  | true =>
    have hcr := feed_goto (s := .er) (by rw [hstate]; rfl) h
    have hlf := feed_goto (s := .c1) rfl hcr
    obtain ⟨rfl, rfl⟩ := Prod.mk.inj (Prod.mk.inj hlf).2
    exact ⟨rfl, rfl, rfl, rfl⟩

/-- The end of a line behind a value. -/
theorem lineEnd_value {crlf : Bool} (hstate : p.state = .hi)
    (h : feed record (lineEnd crlf) (p, log) = (true, q, log')) :
    q.state = .c1 ∧ q.rx = p.rx ∧ q.cl = p.cl ∧ Adds log log' [(.headerVal, 0)] := by
  cases crlf with
  | false =>
    obtain ⟨p₁, log₁, hact, hrest⟩ := feed_act (a := .vh) (by rw [hstate]; rfl) h
    obtain ⟨rfl, rfl⟩ := Prod.mk.inj (Prod.mk.inj hact).2
    obtain ⟨rfl, rfl⟩ := Prod.mk.inj (Prod.mk.inj hrest).2
    exact ⟨rfl, rfl, rfl, [_], rfl, rfl⟩
  | true =>
    obtain ⟨p₁, log₁, hact, hrest⟩ := feed_act (a := .vh) (by rw [hstate]; rfl) h
    obtain ⟨rfl, rfl⟩ := Prod.mk.inj (Prod.mk.inj hact).2
    have hlf := feed_goto (s := .c1) rfl hrest
    obtain ⟨rfl, rfl⟩ := Prod.mk.inj (Prod.mk.inj hlf).2
    exact ⟨rfl, rfl, rfl, [_], rfl, rfl⟩

/-- The end of a line behind a declared length. -/
theorem lineEnd_length {crlf : Bool} (hstate : p.state = .cv)
    (h : feed record (lineEnd crlf) (p, log) = (true, q, log')) :
    q.state = .c1 ∧ q.rx = p.rx ∧ q.cl = p.cl ∧ Adds log log' [(.clVal, p.cl.toInt32)] := by
  cases crlf with
  | false =>
    obtain ⟨p₁, log₁, hact, hrest⟩ := feed_act (a := .ve) (by rw [hstate]; rfl) h
    obtain ⟨rfl, rfl⟩ := Prod.mk.inj (Prod.mk.inj hact).2
    obtain ⟨rfl, rfl⟩ := Prod.mk.inj (Prod.mk.inj hrest).2
    exact ⟨rfl, rfl, rfl, [_], rfl, rfl⟩
  | true =>
    obtain ⟨p₁, log₁, hact, hrest⟩ := feed_act (a := .ve) (by rw [hstate]; rfl) h
    obtain ⟨rfl, rfl⟩ := Prod.mk.inj (Prod.mk.inj hact).2
    have hlf := feed_goto (s := .c1) rfl hrest
    obtain ⟨rfl, rfl⟩ := Prod.mk.inj (Prod.mk.inj hlf).2
    exact ⟨rfl, rfl, rfl, [_], rfl, rfl⟩

/-- A name that is not `Content-Length` is not taken for it. -/
theorem name_short {h : Header} (hname : ∀ c ∈ h.name, c ≠ 58) (hplain : h.isLength = false)
    (htake : h.name.map lower = lengthName.take h.name.length) : h.name.length < 14 := by
  by_contra hge
  by_cases hlen : h.name.length = 14
  · -- it would be the whole name
    have hwhole : h.isLength = true := by
      rw [Header.isLength, htake, hlen]
      decide
    rw [hplain] at hwhole
    cases hwhole
  · have hlt : 14 < h.name.length := by omega
    have hget := congrArg (fun l => l[14]?) htake
    simp only [List.getElem?_map, List.getElem?_take_of_lt hlt, List.getElem?_eq_getElem hlt,
      Option.map_some] at hget
    exact lengthName_none (hname _ (List.getElem_mem hlt)) le_rfl hget.symm

/-- **A header line** is reported by its key and its value. -/
theorem plain_feed {h : Header} (hname : ∀ c ∈ h.name, c ≠ 58 ∧ c ≠ 13 ∧ c ≠ 10)
    (hvalue : ∀ c ∈ h.value, c ≠ 13 ∧ c ≠ 10) (hplain : h.isLength = false) (hstate : p.state = .c1)
    (hfeed : feed record h.text (p, log) = (true, q, log')) :
    q.state = .c1 ∧ q.rx = p.rx ∧ q.cl = p.cl ∧ Adds log log' (h.reports p.cl) := by
  have hline : p.state.line = .name 0 := by
    rw [hstate]
    rfl
  obtain ⟨p₁, log₁, hkeys, hrest⟩ := feed_append_record hfeed
  obtain ⟨p₂, log₂, hcolon, hrest⟩ := feed_cons hrest
  obtain ⟨p₃, log₃, hvals, hend⟩ := feed_append_record hrest
  obtain ⟨evs, hlog₁, hevs, hstate₁⟩ := name_feed hname (by omega) hline hkeys
  obtain ⟨hrx₁, hcl₁⟩ := name_calm hname (.inr ⟨0, by omega, hline⟩) hkeys
  have hline₁ : p₁.state.line = .other ∨ ∃ n < 14, p₁.state.line = .name n := by
    rcases hstate₁ with hstate₁ | ⟨hline₁, htake⟩
    · exact .inl (by rw [hstate₁]; rfl)
    · exact .inr ⟨h.name.length, name_short (fun c hc => (hname c hc).1) hplain (by simpa using htake),
        by simpa using hline₁⟩
  obtain ⟨hstate₂, hlog₂⟩ := colon_byte hline₁ hcolon
  obtain ⟨hrx₂, hcl₂⟩ := line_byte (.inr (hline₁.imp id fun ⟨n, hn, hl⟩ =>
    ⟨⟨n, by omega, hl⟩, by decide⟩)) hcolon
  obtain ⟨evs', hlog₃, hevs', hstate₃⟩ := value_feed hvalue hstate₂ hvals
  obtain ⟨hrx₃, hcl₃⟩ := value_calm hvalue hstate₂ hvals
  obtain ⟨hstate₄, hrx₄, hcl₄, hlast⟩ := lineEnd_value hstate₃ hend
  refine ⟨hstate₄, by rw [hrx₄, hrx₃, hrx₂, hrx₁], by rw [hcl₄, hcl₃, hcl₂, hcl₁], ?_⟩
  have hkeysAdd : Adds log log₁ (charsAs .headerKeyc h.key) := ⟨evs, hlog₁, hevs⟩
  have hkeyAdd : Adds log₁ log₂ [(.headerKey, 0)] := ⟨[_], hlog₂, rfl⟩
  have hvalsAdd : Adds log₂ log₃ (charsAs .headerValc h.value) := ⟨evs', hlog₃, hevs'⟩
  rw [Header.reports, hplain]
  simpa using hkeysAdd.trans (hkeyAdd.trans (hvalsAdd.trans hlast))

/-- The letters of `Content-Length` are not reported. -/
theorem lengthName_feed {bs : List UInt8} {n : Nat} (hbs : ∀ c ∈ bs, c ≠ 58 ∧ c ≠ 13 ∧ c ≠ 10)
    (hn : n + bs.length ≤ 14) (htake : bs.map lower = (lengthName.drop n).take bs.length)
    (hline : p.state.line = .name n) (h : feed record bs (p, log) = (true, q, log')) :
    q.state.line = .name (n + bs.length) ∧ log' = log := by
  induction bs generalizing n p log with
  | nil =>
    obtain ⟨rfl, rfl⟩ := Prod.mk.inj (Prod.mk.inj h).2
    exact ⟨hline, rfl⟩
  | cons c cs ih =>
    rw [List.length_cons] at hn
    obtain ⟨p₁, log₁, hparse, hrest⟩ := feed_cons h
    have hlt : n < lengthName.length := by
      have : lengthName.length = 15 := rfl
      omega
    rw [List.map_cons, List.length_cons, List.drop_eq_getElem_cons hlt, List.take_succ_cons] at htake
    obtain ⟨hhead, htail⟩ := List.cons.inj htake
    have hmatch : lengthName[n]? = some (lower c) := by
      rw [hhead, List.getElem?_eq_getElem hlt]
    rcases name_byte (hbs c List.mem_cons_self) (by omega) hline hparse with
      ⟨-, hline₁, rfl⟩ | ⟨hmiss, -, -⟩
    · obtain ⟨hline', hlog⟩ := ih (fun d hd => hbs d (List.mem_cons_of_mem _ hd)) (by omega) htail
        hline₁ hrest
      refine ⟨?_, hlog⟩
      rw [hline', List.length_cons]
      congr 1
      omega
    · exact absurd hmatch hmiss

/-- The rows of a declared length take blanks and digits up to the end of the line. -/
theorem length_rows (k : ParserClass) :
    (stateTransitionTable .cg k = .xx ∨ k = .space ∧ stateTransitionTable .cg k = .act .kc) ∧
      (k = .cr ∨ k = .lf ∨ stateTransitionTable .cv k = .xx ∨
        stateTransitionTable .cv k = .act .vc) := by
  cases k <;> decide

/-- A declared length is read digit by digit. -/
theorem digits_feed {ds : List UInt8} (hds : ∀ c ∈ ds, c ≠ 13 ∧ c ≠ 10) (hstate : p.state = .cv)
    (h : feed record ds (p, log) = (true, q, log')) :
    q.state = .cv ∧ q.rx = p.rx ∧
      q.cl = ds.foldl (fun cl c => cl * 10 + (c.toUInt32 - 48)) p.cl ∧ log' = log := by
  induction ds generalizing p log with
  | nil =>
    obtain ⟨rfl, rfl⟩ := Prod.mk.inj (Prod.mk.inj h).2
    exact ⟨hstate, rfl, rfl, rfl⟩
  | cons c cs ih =>
    obtain ⟨hcr, hlf⟩ := hds c List.mem_cons_self
    have hrow := row_of_feed h
    rw [hstate] at hrow
    have hact : stateTransitionTable p.state (classOf c) = .act .vc := by
      obtain ⟨hlf', hcr', -, -⟩ := classOf_cases c
      rw [hstate]
      rcases (length_rows (classOf c)).2 with hk | hk | hxx | hvc
      · exact absurd (hcr'.1 hk) hcr
      · exact absurd (hlf'.1 hk) hlf
      · exact absurd hxx hrow
      · exact hvc
    obtain ⟨p₁, log₁, hperform, hrest⟩ := feed_act hact h
    rw [perform_digit] at hperform
    split at hperform
    · cases hperform
    · obtain ⟨rfl, rfl⟩ := Prod.mk.inj (Prod.mk.inj hperform).2
      exact ih (fun d hd => hds d (List.mem_cons_of_mem _ hd)) rfl hrest

/-- **A line of `Content-Length`** is reported by its number. -/
theorem length_feed {h : Header} (hname : ∀ c ∈ h.name, c ≠ 58 ∧ c ≠ 13 ∧ c ≠ 10)
    (hvalue : ∀ c ∈ h.value, c ≠ 13 ∧ c ≠ 10) (hlength : h.isLength = true) (hstate : p.state = .c1)
    (hfeed : feed record h.text (p, log) = (true, q, log')) :
    q.state = .c1 ∧ q.rx = p.rx ∧ q.cl = h.after p.cl ∧ Adds log log' (h.reports p.cl) := by
  have hline : p.state.line = .name 0 := by
    rw [hstate]
    rfl
  have hwhole : h.name.map lower ++ [58] = lengthName := of_decide_eq_true hlength
  have hlen : h.name.length = 14 := by
    have := congrArg List.length hwhole
    simpa [lengthName] using this
  have htake : h.name.map lower = (lengthName.drop 0).take h.name.length := by
    rw [List.drop_zero, hlen, ← hwhole, List.take_left' (by rw [List.length_map, hlen])]
  obtain ⟨p₁, log₁, hkeys, hrest⟩ := feed_append_record hfeed
  obtain ⟨hline₁, rfl⟩ := lengthName_feed hname (by omega) htake hline hkeys
  obtain ⟨hrx₁, hcl₁⟩ := name_calm hname (.inr ⟨0, by omega, hline⟩) hkeys
  have hstate₁ : p₁.state = .cf := by
    rw [hlen] at hline₁
    revert hline₁
    cases p₁.state <;> simp [ParserState.line]
  have hrest := feed_goto (s := .cg) (by rw [hstate₁]; rfl) hrest
  obtain ⟨p₂, log₂, hvals, hend⟩ := feed_append_record hrest
  cases hval : h.value with
  | nil =>
    -- without a blank the line is refused
    rw [hval] at hvals
    obtain ⟨rfl, rfl⟩ := Prod.mk.inj (Prod.mk.inj hvals).2
    cases hcrlf : h.crlf <;> rw [hcrlf] at hend <;> exact absurd rfl (row_of_feed hend)
  | cons b ds =>
    rw [hval] at hvals hvalue
    have hact : stateTransitionTable .cg (classOf b) = .act .kc :=
      (((length_rows (classOf b)).1).resolve_left (row_of_feed hvals)).2
    obtain ⟨p₃, log₃, hperform, hdigits⟩ := feed_act hact hvals
    obtain ⟨rfl, rfl⟩ := Prod.mk.inj (Prod.mk.inj hperform).2
    obtain ⟨hstate₂, hrx₂, hcl₂, rfl⟩ :=
      digits_feed (fun c hc => hvalue c (List.mem_cons_of_mem b hc)) rfl hdigits
    obtain ⟨hstate₄, hrx₄, hcl₄, hlast⟩ := lineEnd_length hstate₂ hend
    have hafter : p₂.cl = h.after p.cl := by
      rw [hcl₂, Header.after, if_pos hlength, hval, List.drop_one, List.tail_cons, ← hcl₁]
      rfl
    refine ⟨hstate₄, by rw [hrx₄, hrx₂]; exact hrx₁, by rw [hcl₄, hafter], ?_⟩
    have hkeyAdd : Adds log₁ (log₁ ++ [⟨.headerKey, 0, p₁.step + 1 + 1⟩]) [(.headerKey, 0)] :=
      ⟨[_], rfl, rfl⟩
    rw [Header.reports, if_pos hlength, ← hafter]
    exact hkeyAdd.trans hlast

/-- **The lines of the headers**, one after the other. -/
theorem headers_feed {hs : List Header} (hnames : ∀ h ∈ hs, ∀ c ∈ h.name, c ≠ 58 ∧ c ≠ 13 ∧ c ≠ 10)
    (hvalues : ∀ h ∈ hs, ∀ c ∈ h.value, c ≠ 13 ∧ c ≠ 10) (hstate : p.state = .c1)
    (hfeed : feed record (hs.flatMap Header.text) (p, log) = (true, q, log')) :
    q.state = .c1 ∧ q.rx = p.rx ∧ q.cl = hs.foldl Header.after p.cl ∧
      Adds log log' (headerReports p.cl hs) := by
  induction hs generalizing p log with
  | nil =>
    obtain ⟨rfl, rfl⟩ := Prod.mk.inj (Prod.mk.inj hfeed).2
    exact ⟨hstate, rfl, rfl, .nil _⟩
  | cons h hs ih =>
    rw [List.flatMap_cons] at hfeed
    obtain ⟨p₁, log₁, hline, hrest⟩ := feed_append_record hfeed
    have hname := hnames h List.mem_cons_self
    have hvalue := hvalues h List.mem_cons_self
    have hone : p₁.state = .c1 ∧ p₁.rx = p.rx ∧ p₁.cl = h.after p.cl ∧
        Adds log log₁ (h.reports p.cl) := by
      cases hlength : h.isLength with
      | true => exact length_feed hname hvalue hlength hstate hline
      | false =>
        obtain ⟨hs₁, hrx₁, hcl₁, hadds⟩ := plain_feed hname hvalue hlength hstate hline
        refine ⟨hs₁, hrx₁, ?_, hadds⟩
        rw [hcl₁, Header.after, hlength]
        rfl
    obtain ⟨hstate₁, hrx₁, hcl₁, hadds₁⟩ := hone
    obtain ⟨hstate', hrx', hcl', hadds'⟩ := ih (fun h' hm => hnames h' (List.mem_cons_of_mem _ hm))
      (fun h' hm => hvalues h' (List.mem_cons_of_mem _ hm)) hstate₁ hrest
    rw [hcl₁] at hcl' hadds'
    exact ⟨hstate', hrx'.trans hrx₁, hcl', hadds₁.trans hadds'⟩

/-- The rows of a version take one digit each. -/
theorem version_rows (k : ParserClass) :
    (stateTransitionTable .h6 k = .xx ∨ stateTransitionTable .h6 k = .act .ha) ∧
      (stateTransitionTable .h8 k = .xx ∨ stateTransitionTable .h8 k = .act .hb) := by
  cases k <;> decide

/-- **The version** of a request is reported with its two digits. -/
theorem version_feed {r : Request} (hstate : p.state = .h1)
    (hfeed : feed record r.version (p, log) = (true, q, log')) :
    q.state = .c1 ∧ q.rx = p.rx ∧ q.cl = p.cl ∧
      Adds log log' [(.versionMajor, digit r.major), (.versionMinor, digit r.minor)] := by
  simp only [Request.version, List.cons_append, List.nil_append] at hfeed
  have h₁ := feed_goto (s := .h2) (by rw [hstate]; rfl) hfeed
  have h₂ := feed_goto (s := .h3) rfl h₁
  have h₃ := feed_goto (s := .h4) rfl h₂
  have h₄ := feed_goto (s := .h5) rfl h₃
  have h₅ := feed_goto (s := .h6) rfl h₄
  have hmajor := ((version_rows (classOf r.major)).1).resolve_left (row_of_feed h₅)
  obtain ⟨p₁, log₁, hperform₁, h₆⟩ := feed_act hmajor h₅
  obtain ⟨rfl, rfl⟩ := Prod.mk.inj (Prod.mk.inj hperform₁).2
  have h₇ := feed_goto (s := .h8) rfl h₆
  have hminor := ((version_rows (classOf r.minor)).2).resolve_left (row_of_feed h₇)
  obtain ⟨p₂, log₂, hperform₂, h₈⟩ := feed_act hminor h₇
  obtain ⟨rfl, rfl⟩ := Prod.mk.inj (Prod.mk.inj hperform₂).2
  obtain ⟨hstate', hrx', hcl', rfl⟩ := lineEnd_eol r.crlf rfl h₈
  dsimp only [modify, emit, record, HttpParser.goto] at hrx' hcl'
  exact ⟨hstate', hrx', hcl', [_, _], List.append_assoc _ _ _, rfl⟩

/-- **The empty line** ends the request, or its headers. -/
theorem last_feed {crlf : Bool} (hstate : p.state = .c1)
    (hfeed : feed record (lineEnd crlf) (p, log) = (true, q, log')) :
    (p.rx.post = true ∧ p.cl ≠ 0 → (∃ step, q = inBody step p.cl) ∧
        Adds log log' [(.headerEnd, 0)]) ∧
      (¬ (p.rx.post = true ∧ p.cl ≠ 0) → q.rx.ready = true ∧
        Adds log log' [(.headerEnd, 0), (.ready, 0)]) := by
  -- a carriage return comes first, or not
  obtain ⟨p₁, hrow, hrx, hcl, hlf⟩ : ∃ p₁ : HttpParser,
      stateTransitionTable p₁.state (classOf 10) = .act .eh ∧ p₁.rx = p.rx ∧ p₁.cl = p.cl ∧
        feed record [10] (p₁, log) = (true, q, log') := by
    cases crlf with
    | false => exact ⟨p, by rw [hstate]; rfl, rfl, rfl, hfeed⟩
    | true =>
      have hcr := feed_goto (s := .fi) (by rw [hstate]; rfl) hfeed
      exact ⟨{ p with step := p.step + 1, state := .fi }, rfl, rfl, rfl, hcr⟩
  obtain ⟨p₂, log₂, hperform, hnil⟩ := feed_act hrow hlf
  obtain ⟨rfl, rfl⟩ := Prod.mk.inj (Prod.mk.inj hnil).2
  rw [perform_eh] at hperform
  simp only [hrx, hcl] at hperform
  refine ⟨fun hbody => ?_, fun hnone => ?_⟩
  · rw [if_pos hbody.1, if_neg hbody.2] at hperform
    obtain ⟨rfl, rfl⟩ := Prod.mk.inj (Prod.mk.inj hperform).2
    rw [← hcl]
    exact ⟨⟨p₁.step + 1, rfl⟩, [_], rfl, rfl⟩
  · split_ifs at hperform with hpost hzero
    · obtain ⟨rfl, rfl⟩ := Prod.mk.inj (Prod.mk.inj hperform).2
      exact ⟨rfl, [_, _], List.append_assoc _ _ _, rfl⟩
    · exact absurd ⟨hpost, hzero⟩ hnone
    · obtain ⟨rfl, rfl⟩ := Prod.mk.inj (Prod.mk.inj hperform).2
      exact ⟨rfl, [_, _], List.append_assoc _ _ _, rfl⟩

end Line

/-! ## The request -/

theorem charsAs_type {t : CallbackType} {cs : List UInt8} : ∀ v ∈ charsAs t cs, v.1 = t := by
  intro v hv
  obtain ⟨c, -, rfl⟩ := List.mem_map.1 hv
  rfl

/-- A line of the headers does not end a request. -/
theorem headerReports_unready (cl : UInt32) (hs : List Header) :
    ∀ v ∈ headerReports cl hs, v.1 ≠ .ready := by
  induction hs generalizing cl with
  | nil => simp [headerReports]
  | cons h hs ih =>
    intro v hv
    rcases List.mem_append.1 hv with hv | hv
    · rw [Header.reports] at hv
      split_ifs at hv
      · simp only [List.mem_cons, List.not_mem_nil, or_false] at hv
        rcases hv with rfl | rfl <;> simp
      · simp only [List.mem_append, List.mem_cons, List.not_mem_nil, or_false] at hv
        rcases hv with (hv | rfl | hv) | rfl
        · simp [charsAs_type v hv]
        · simp
        · simp [charsAs_type v hv]
        · simp
    · exact ih _ v hv

/-- Nothing up to the end of the headers does. -/
theorem reports_unready (r : Request) : ∀ v ∈ r.reports, v.1 ≠ .ready := by
  intro v hv
  simp only [Request.reports, Http.reports, Bool.false_eq_true, if_false, List.mem_append,
    List.mem_cons, List.not_mem_nil, or_false] at hv
  rcases hv with (((rfl | hv | rfl | hv) | rfl | rfl) | hv) | rfl
  · simp
  · simp [charsAs_type v hv]
  · simp
  · simp [charsAs_type v hv]
  · simp
  · simp
  · exact headerReports_unready 0 r.headers v hv
  · simp

/-- **A request that is taken is reported part by part.**  Behind its headers the parser is at the
first byte of the body, or the request is ready. -/
theorem head_reported {r : Request} (hplain : r.Plain) {q : HttpParser} {log : List HttpEvent}
    (hfeed : feed record r.head (.reset, []) = (true, q, log)) :
    if r.hasBody then log.map HttpEvent.view = r.reports ∧ ∃ step, q = inBody step r.length
    else log.map HttpEvent.view = r.reports ++ [(.ready, 0)] ∧ q.rx.ready = true := by
  have hmethod : ∃ step log₀, feed record (methodText r.method) (.reset, []) =
      (true, inTarget (r.method = .post) false step 0, log₀) ∧
        log₀.map HttpEvent.view = [(.method, r.method.value)] := by
    cases r.method with
    | get => exact ⟨4, _, rfl, rfl⟩
    | post => exact ⟨5, _, rfl, rfl⟩
  obtain ⟨step, log₀, hmethod, hlog₀⟩ := hmethod
  simp only [Request.head] at hfeed
  obtain ⟨p₄, log₄, hfeed, hlast⟩ := feed_append_record hfeed
  obtain ⟨p₃, log₃, hfeed, hheaders⟩ := feed_append_record hfeed
  obtain ⟨p₂, log₂, hfeed, hversion⟩ := feed_append_record hfeed
  rw [List.append_assoc] at hfeed
  obtain ⟨p₁, log₁, hfirst, htarget⟩ := feed_append_record hfeed
  rw [hmethod] at hfirst
  obtain ⟨rfl, rfl⟩ := Prod.mk.inj (Prod.mk.inj hfirst).2
  obtain ⟨⟨step', hp₂⟩, evs, hlog₂, hevs⟩ := feed_target _ rfl hplain.target htarget
  obtain ⟨hstate₃, hrx₃, hcl₃, hadds₃⟩ := version_feed (by rw [hp₂]) hversion
  obtain ⟨hstate₄, hrx₄, hcl₄, hadds₄⟩ := headers_feed hplain.names hplain.values hstate₃ hheaders
  obtain ⟨hbody, hnone⟩ := last_feed hstate₄ hlast
  have hadds₂ : Adds log₀ log₂ (Http.reports false r.target) := ⟨evs, hlog₂, hevs⟩
  have hcl : p₃.cl = 0 := by
    rw [hcl₃, hp₂]
    rfl
  have hpost : p₄.rx.post = decide (r.method = .post) := by
    rw [hrx₄, hrx₃, hp₂]
    rfl
  have hlength : p₄.cl = r.length := by
    rw [hcl₄, hcl, Request.length]
  rw [hcl] at hadds₄
  have hhead := hadds₂.trans (hadds₃.trans hadds₄)
  -- what is reported in front of the empty line
  have hall : ∀ views, Adds log₄ log views → log.map HttpEvent.view =
      (.method, r.method.value) :: Http.reports false r.target ++
        [(.versionMajor, digit r.major), (.versionMinor, digit r.minor)] ++
          headerReports 0 r.headers ++ views := by
    intro views hviews
    obtain ⟨evs', rfl, hevs'⟩ := hhead.trans hviews
    rw [List.map_append, hlog₀, hevs']
    simp
  have hcond : (p₄.rx.post = true ∧ p₄.cl ≠ 0) ↔ r.hasBody = true := by
    rw [hpost, hlength, Request.hasBody]
    simp
  split_ifs with hhas
  · obtain ⟨hq, hadds⟩ := hbody (hcond.2 hhas)
    rw [hlength] at hq
    exact ⟨hall _ hadds, hq⟩
  · obtain ⟨hready, hadds⟩ := hnone fun h => hhas (hcond.1 h)
    refine ⟨?_, hready⟩
    rw [hall _ hadds, Request.reports, List.append_assoc _ [(CallbackType.headerEnd, (0 : Int32))]]
    rfl

/-- The bytes of the body that belongs to a request. -/
structure Request.Takes (r : Request) (body : List UInt8) : Prop where
  length : r.hasBody = true → body.length = r.length.toNat
  bytes : ∀ c ∈ body, stateTransitionTable .bt (classOf c) ≠ .xx
  complete : Complete body
  none : r.hasBody = false → body = []

/-- **A whole request is reported**, its body decoded. -/
theorem request_reported {r : Request} (hplain : r.Plain) {body : List UInt8} (hbody : r.Takes body)
    (hhead : (feed record r.head (.reset, [])).1 = true) :
    ∃ q evs e, feed record (r.head ++ body) (.reset, []) = (true, q, evs ++ [e]) ∧
      evs.map HttpEvent.view = r.reports ++ charsAs .bodyChar (decode body) ∧ e.type = .ready := by
  obtain ⟨p, log, hfeed⟩ : ∃ p log, feed record r.head (.reset, []) = (true, p, log) :=
    ⟨_, _, Prod.ext hhead rfl⟩
  have hreported := head_reported hplain hfeed
  obtain ⟨q, log', hrun, hviews⟩ : ∃ q log', feed record (r.head ++ body) (.reset, []) =
      (true, q, log') ∧ log'.map HttpEvent.view =
        (r.reports ++ charsAs .bodyChar (decode body)) ++ [(.ready, 0)] := by
    rw [feed_append, hfeed, if_pos rfl]
    cases hhas : r.hasBody with
    | false =>
      rw [hhas, if_neg Bool.false_ne_true] at hreported
      rw [hbody.none hhas]
      exact ⟨p, log, rfl, by rw [hreported.1]; simp [decode, charsAs]⟩
    | true =>
      rw [hhas, if_pos rfl] at hreported
      obtain ⟨hlog, step, rfl⟩ := hreported
      have hlen := hbody.length hhas
      have hne : body ≠ [] := by
        rintro rfl
        have hzero : r.length = 0 := UInt32.toNat_inj.1 hlen.symm
        rw [Request.hasBody, hzero] at hhas
        simp at hhas
      have hbodyRun : BodyRun body (decode body) (inBody step r.length) log :=
        feed_body hbody.complete hne hbody.bytes hlen.symm log
      obtain ⟨q, evs, hrun, hevs⟩ := hbodyRun.run
      refine ⟨q, log ++ evs, hrun, ?_⟩
      rw [List.map_append, hlog, List.append_assoc]
      exact congrArg _ hevs
  obtain ⟨evs, last, rfl, hevs, hlast⟩ := List.map_eq_append_iff.1 hviews
  obtain ⟨e, rfl, he⟩ := List.map_eq_singleton_iff.1 hlast
  exact ⟨q, evs, e, hrun, hevs, congrArg Prod.fst he⟩

/-- Nothing in front of the end of a request ends it. -/
theorem views_unready {r : Request} {body : List UInt8} {evs : List HttpEvent}
    (h : evs.map HttpEvent.view = r.reports ++ charsAs .bodyChar (decode body)) :
    ∀ e ∈ evs, e.type ≠ .ready := by
  intro e he
  have hmem : e.view ∈ r.reports ++ charsAs .bodyChar (decode body) :=
    h ▸ List.mem_map_of_mem he
  rcases List.mem_append.1 hmem with hmem | hmem
  · exact reports_unready r e.view hmem
  · rw [show e.type = .bodyChar from charsAs_type e.view hmem]
    simp

/-! ## Any callback -/

/-- The events do not depend on those that are recorded already. -/
theorem feed_record (cs : List UInt8) (p : HttpParser) (log : List HttpEvent) :
    feed record cs (p, log) = ((feed record cs (p, [])).1, (feed record cs (p, [])).2.1,
      log ++ (feed record cs (p, [])).2.2) := by
  induction cs generalizing p log with
  | nil => simp [feed]
  | cons c cs ih =>
    rw [feed, feed, parse_record]
    rcases parseHttpChar record c (p, []) with ⟨_ | _, q, evs⟩
    · rfl
    · simp only
      rw [ih q (log ++ evs), ih q evs, List.append_assoc]

/-- **A callback sees a request that a recording one sees.** -/
theorem feed_resetting {σ : Type*} {callback : HttpCallback σ} (hcb : Resetting callback)
    {bs : List UInt8} {p q : HttpParser} {ph : Phase} (hfollows : Follows p ph)
    {evs : List HttpEvent} {e : HttpEvent} (he : e.type = .ready)
    (hevs : ∀ e ∈ evs, e.type ≠ .ready)
    (h : feed record bs (p, []) = (true, q, evs ++ [e])) (s : σ) :
    feed callback bs (p, s) = (true, callback e (q, replay callback s evs)) := by
  induction bs generalizing p ph evs s with
  | nil =>
    obtain ⟨-, hnil⟩ := Prod.mk.inj (Prod.mk.inj h).2
    exact absurd hnil.symm (by simp)
  | cons c cs ih =>
    obtain ⟨hok, hmirror⟩ := parse_mirrors hcb c p s
    have hout := parse_follows hfollows c
    rw [feed] at h ⊢
    generalize parseHttpChar callback c (p, s) = x at hok hmirror
    generalize parseHttpChar record c (p, []) = r at hok hmirror hout h
    obtain ⟨ok, x⟩ := x
    obtain rfl : ok = r.1 := hok
    cases hout with
    | refused q' => exact absurd h (by simp)
    | goes p₁ evs₁ ph₁ hrun hfollows₁ hnone =>
      -- the end of the request is yet to come
      simp only at h ⊢
      obtain ⟨hctx, hsame⟩ : x.2 = replay callback s evs₁ ∧ x.1 = p₁ := by
        rcases hmirror with hsame | ⟨evs', e', hlog, htype, -⟩
        · exact ⟨hsame.context, hsame.parser⟩
        · exact absurd htype (hnone e' (by rw [show evs₁ = evs' ++ [e'] from hlog]; simp))
      rw [feed_record] at h
      obtain ⟨hok', hq, hlog⟩ : (feed record cs (p₁, [])).1 = true ∧
          (feed record cs (p₁, [])).2.1 = q ∧
            evs₁ ++ (feed record cs (p₁, [])).2.2 = evs ++ [e] := by
        simpa using h
      obtain ⟨evs₂, hevs₂, hrest⟩ : ∃ evs₂, (feed record cs (p₁, [])).2.2 = evs₂ ++ [e] ∧
          evs = evs₁ ++ evs₂ := by
        rcases List.eq_nil_or_concat (feed record cs (p₁, [])).2.2 with hnil | ⟨evs₂, e₂, hcons⟩
        · rw [hnil, List.append_nil] at hlog
          exact absurd he (hnone e (by rw [hlog]; simp))
        · rw [List.concat_eq_append] at hcons
          rw [hcons, ← List.append_assoc] at hlog
          obtain ⟨hinit, hlast⟩ := List.append_inj' hlog rfl
          obtain rfl := (List.cons.inj hlast).1
          exact ⟨evs₂, hcons, hinit.symm⟩
      subst hrest
      obtain ⟨x₁, x₂⟩ := x
      obtain rfl : x₁ = p₁ := hsame
      obtain rfl : x₂ = replay callback s evs₁ := hctx
      rw [ih hfollows₁ (fun e he => hevs e (List.mem_append_right _ he))
        (Prod.ext hok' (Prod.ext hq hevs₂)), replay_append]
    | completes p₁ evs₁ e₁ hrun htype hready hnone =>
      -- behind it the parser refuses every byte
      simp only at h ⊢
      cases cs with
      | cons d ds =>
        rw [feed, parseHttpChar_refused record _ (.inr hready)] at h
        exact absurd (Prod.mk.inj h).1 (by simp)
      | nil =>
        obtain ⟨rfl, hlog⟩ := Prod.mk.inj (Prod.mk.inj h).2
        obtain ⟨rfl, hlast⟩ := List.append_inj' hlog rfl
        obtain rfl := (List.cons.inj hlast).1
        rcases hmirror with hsame | ⟨evs', e', hlog', -, hx⟩
        · exact absurd htype (hsame.unready e₁ (by simp))
        · obtain ⟨rfl, hlast'⟩ := List.append_inj' hlog' rfl
          obtain rfl := (List.cons.inj hlast').1
          exact congrArg (Prod.mk true) hx

/-- **In front of the end of a request** a callback sees the events so far, and no `HTTP_READY`. -/
theorem feed_inside {σ : Type*} {callback : HttpCallback σ} (hcb : Resetting callback)
    {bs cs : List UInt8} (hcs : cs ≠ []) {p : HttpParser} {ph : Phase} (hfollows : Follows p ph)
    (h : (feed record (bs ++ cs) (p, [])).1 = true) (s : σ) :
    ∃ q evs, feed callback bs (p, s) = (true, q, replay callback s evs) ∧
      ∀ e ∈ evs, e.type ≠ .ready := by
  induction bs generalizing p ph s with
  | nil => exact ⟨p, [], rfl, by simp⟩
  | cons c bs ih =>
    obtain ⟨hok, hmirror⟩ := parse_mirrors hcb c p s
    have hout := parse_follows hfollows c
    rw [List.cons_append, feed] at h
    rw [feed]
    generalize parseHttpChar callback c (p, s) = x at hok hmirror
    generalize parseHttpChar record c (p, []) = r at hok hmirror hout h
    obtain ⟨ok, x⟩ := x
    obtain rfl : ok = r.1 := hok
    cases hout with
    | refused q => exact absurd h (by simp)
    | goes p₁ evs₁ ph₁ hrun hfollows₁ hnone =>
      simp only at h ⊢
      obtain ⟨hctx, hsame⟩ : x.2 = replay callback s evs₁ ∧ x.1 = p₁ := by
        rcases hmirror with hsame | ⟨evs', e', hlog, htype, -⟩
        · exact ⟨hsame.context, hsame.parser⟩
        · exact absurd htype (hnone e' (by rw [show evs₁ = evs' ++ [e'] from hlog]; simp))
      obtain ⟨x₁, x₂⟩ := x
      obtain rfl : x₁ = p₁ := hsame
      obtain rfl : x₂ = replay callback s evs₁ := hctx
      rw [feed_record] at h
      obtain ⟨q, evs₂, hrest, hnone₂⟩ := ih hfollows₁ h (replay callback s evs₁)
      refine ⟨q, evs₁ ++ evs₂, by rw [hrest, replay_append], fun e he => ?_⟩
      exact (List.mem_append.1 he).elim (hnone e) (hnone₂ e)
    | completes p₁ evs₁ e₁ hrun htype hready hnone =>
      -- there is another byte, and the parser refuses it
      obtain ⟨d, ds, hd⟩ := List.exists_cons_of_ne_nil (List.append_ne_nil_of_right_ne_nil bs hcs)
      simp only [hd] at h
      rw [feed, parseHttpChar_refused record _ (.inr hready)] at h
      exact absurd h (by simp)

end Ape.Http
