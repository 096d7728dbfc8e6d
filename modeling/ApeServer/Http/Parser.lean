import Mathlib

/-!
# The HTTP parser of `ape_http_parser.c`

`parse_http_char` takes one byte and reports what it finds to a callback.  The callback may reset
the parser it is called from, so it gets the parser and gives it back.

* `ParserState`, `ParserClass`, `ParserAction` — the enumerations of the source;
* `asciiClass`, `stateTransitionTable` — its two tables;
* `parseHttpChar` — the function, for any callback;
* `feed` — the bytes of a connection up to the first that is refused.
-/

namespace Ape.Http

/-! ## Events -/

/-- `callback_type`. -/
inductive CallbackType where
  | parseError
  | method
  | pathChar
  | pathEnd
  | qsChar
  | bodyChar
  | versionMajor
  | versionMinor
  | headerKey
  | headerKeyc
  | headerVal
  | headerValc
  | clVal
  | headerEnd
  | ready
  deriving DecidableEq, Repr

/-- One call of the callback. -/
structure HttpEvent where
  type : CallbackType
  value : Int32
  step : UInt32
  deriving DecidableEq, Repr

/-- `http_method_t`. -/
inductive HttpMethod where
  | get
  | post
  deriving DecidableEq, Repr

/-- The number of a method. -/
def HttpMethod.value : HttpMethod → Int32
  | .get => 0
  | .post => 1

/-! ## States, classes and actions -/

/-- `parser_state`. -/
inductive ParserState where
  | go | g1 | g2 | g3 | p1 | p2 | p3 | p4 | pt | h1 | h2 | h3 | h4 | h5 | h6 | h7 | h8 | el | er | hh
  | hi | c1 | c2 | c3 | c4 | c5 | c6 | c7 | c8 | c9 | ca | cb | cc | cd | ce | cf | cg | cv | e1 | e2
  | fi | bt
  deriving DecidableEq, Repr

/-- `parser_class`. -/
inductive ParserClass where
  | nul | space | white | cr | lf | colon | comma | quote | backs | slash | plus | minus | point
  | mark | pct | digit | etc | star | abdf | e | g | t | p | h | o | s | c | n | l | uscore
  deriving DecidableEq, Repr

/-- `parser_actions`. -/
inductive ParserAction where
  | mg | mp | pe | ha | hb | kh | vh | kc | vc | ve | ea | eb | eh | bc | pc | qs | bh | hk | hv
  deriving DecidableEq, Repr

/-- `ascii_class`. -/
def asciiClass : List ParserClass := [
  .nul, .nul, .nul, .nul, .nul, .nul, .nul, .nul,
  .nul, .nul, .lf, .nul, .nul, .cr, .nul, .nul,
  .nul, .nul, .nul, .nul, .nul, .nul, .nul, .nul,
  .nul, .nul, .nul, .nul, .nul, .nul, .nul, .nul,
  .space, .etc, .quote, .etc, .etc, .pct, .etc, .etc,
  .etc, .etc, .star, .plus, .comma, .minus, .point, .slash,
  .digit, .digit, .digit, .digit, .digit, .digit, .digit, .digit,
  .digit, .digit, .colon, .etc, .etc, .etc, .etc, .mark,
  .etc, .abdf, .abdf, .c, .abdf, .e, .abdf, .g,
  .h, .etc, .etc, .etc, .l, .etc, .n, .o,
  .p, .etc, .etc, .s, .t, .etc, .etc, .etc,
  .etc, .etc, .etc, .etc, .backs, .etc, .etc, .uscore,
  .etc, .abdf, .abdf, .c, .abdf, .e, .abdf, .g,
  .h, .etc, .etc, .etc, .l, .etc, .n, .o,
  .p, .etc, .etc, .s, .t, .etc, .etc, .etc,
  .etc, .etc, .etc, .etc, .etc, .etc, .etc, .nul]

/-- The class of a byte. -/
def classOf (c : UInt8) : ParserClass :=
  if c ≥ 128 then .etc else asciiClass.getD c.toNat .nul

/-- An entry of the table: `__`, a state to go to, or an action. -/
inductive Cell where
  | xx
  | goto (state : ParserState)
  | act (action : ParserAction)
  deriving DecidableEq, Repr

section Table

open Cell ParserState ParserAction

/-- An entry that is a state. -/
local instance : Coe ParserState Cell := ⟨goto⟩

/-- An entry that is an action. -/
local instance : Coe ParserAction Cell := ⟨act⟩

/-- The rows of `state_transition_table`. -/
def tableRow : ParserState → List Cell
  | .go =>
    [xx,xx,xx,xx,xx,xx,xx,xx,xx,xx,xx,xx,xx,xx,xx,xx,xx,xx,xx,xx,g1,xx,p1,xx,xx,xx,xx,xx,xx,xx]
  | .g1 =>
    [xx,xx,xx,xx,xx,xx,xx,xx,xx,xx,xx,xx,xx,xx,xx,xx,xx,xx,xx,g2,xx,xx,xx,xx,xx,xx,xx,xx,xx,xx]
  | .g2 =>
    [xx,xx,xx,xx,xx,xx,xx,xx,xx,xx,xx,xx,xx,xx,xx,xx,xx,xx,xx,xx,xx,g3,xx,xx,xx,xx,xx,xx,xx,xx]
  | .g3 =>
    [xx,mg,xx,xx,xx,xx,xx,xx,xx,xx,xx,xx,xx,xx,xx,xx,xx,xx,xx,xx,xx,xx,xx,xx,xx,xx,xx,xx,xx,xx]
  | .p1 =>
    [xx,xx,xx,xx,xx,xx,xx,xx,xx,xx,xx,xx,xx,xx,xx,xx,xx,xx,xx,xx,xx,xx,xx,xx,p2,xx,xx,xx,xx,xx]
  | .p2 =>
    [xx,xx,xx,xx,xx,xx,xx,xx,xx,xx,xx,xx,xx,xx,xx,xx,xx,xx,xx,xx,xx,xx,xx,xx,xx,p3,xx,xx,xx,xx]
  | .p3 =>
    [xx,xx,xx,xx,xx,xx,xx,xx,xx,xx,xx,xx,xx,xx,xx,xx,xx,xx,xx,xx,xx,p4,xx,xx,xx,xx,xx,xx,xx,xx]
  | .p4 =>
    [xx,mp,xx,xx,xx,xx,xx,xx,xx,xx,xx,xx,xx,xx,xx,xx,xx,xx,xx,xx,xx,xx,xx,xx,xx,xx,xx,xx,xx,xx]
  | .pt =>
    [xx,pe,xx,xx,xx,pc,pc,xx,xx,pc,pc,pc,pc,qs,e1,pc,pc,xx,pc,pc,pc,pc,pc,pc,pc,pc,pc,pc,pc,pc]
  | .h1 =>
    [xx,xx,xx,xx,xx,xx,xx,xx,xx,xx,xx,xx,xx,xx,xx,xx,xx,xx,xx,xx,xx,xx,xx,h2,xx,xx,xx,xx,xx,xx]
  | .h2 =>
    [xx,xx,xx,xx,xx,xx,xx,xx,xx,xx,xx,xx,xx,xx,xx,xx,xx,xx,xx,xx,xx,h3,xx,xx,xx,xx,xx,xx,xx,xx]
  | .h3 =>
    [xx,xx,xx,xx,xx,xx,xx,xx,xx,xx,xx,xx,xx,xx,xx,xx,xx,xx,xx,xx,xx,h4,xx,xx,xx,xx,xx,xx,xx,xx]
  | .h4 =>
    [xx,xx,xx,xx,xx,xx,xx,xx,xx,xx,xx,xx,xx,xx,xx,xx,xx,xx,xx,xx,xx,xx,h5,xx,xx,xx,xx,xx,xx,xx]
  | .h5 =>
    [xx,xx,xx,xx,xx,xx,xx,xx,xx,h6,xx,xx,xx,xx,xx,xx,xx,xx,xx,xx,xx,xx,xx,xx,xx,xx,xx,xx,xx,xx]
  | .h6 =>
    [xx,xx,xx,xx,xx,xx,xx,xx,xx,xx,xx,xx,xx,xx,xx,ha,xx,xx,xx,xx,xx,xx,xx,xx,xx,xx,xx,xx,xx,xx]
  | .h7 =>
    [xx,xx,xx,xx,xx,xx,xx,xx,xx,xx,xx,xx,h8,xx,xx,xx,xx,xx,xx,xx,xx,xx,xx,xx,xx,xx,xx,xx,xx,xx]
  | .h8 =>
    [xx,xx,xx,xx,xx,xx,xx,xx,xx,xx,xx,xx,xx,xx,xx,hb,xx,xx,xx,xx,xx,xx,xx,xx,xx,xx,xx,xx,xx,xx]
  | .el =>
    [xx,xx,xx,er,c1,xx,xx,xx,xx,xx,xx,xx,xx,xx,xx,xx,xx,xx,xx,xx,xx,xx,xx,xx,xx,xx,xx,xx,xx,xx]
  | .er =>
    [xx,xx,xx,xx,c1,xx,xx,xx,xx,xx,xx,xx,xx,xx,xx,xx,xx,xx,xx,xx,xx,xx,xx,xx,xx,xx,xx,xx,xx,xx]
  | .hh =>
    [xx,xx,xx,xx,xx,kh,xx,xx,xx,xx,xx,hk,xx,xx,xx,xx,hk,xx,hk,hk,hk,hk,hk,hk,hk,hk,hk,hk,hk,xx]
  | .hi =>
    [xx,hv,xx,vh,vh,hv,hv,hv,hv,hv,hv,hv,hv,hv,hv,hv,hv,hv,hv,hv,hv,hv,hv,hv,hv,hv,hv,hv,hv,hv]
  | .c1 =>
    [xx,xx,xx,fi,eh,kh,xx,xx,xx,xx,xx,hk,xx,xx,xx,xx,hk,xx,hk,hk,hk,hk,hk,hk,hk,hk,c2,hk,hk,xx]
  | .c2 =>
    [xx,xx,xx,xx,xx,kh,xx,xx,xx,xx,xx,hk,xx,xx,xx,xx,hk,xx,hk,hk,hk,hk,hk,hk,c3,hk,hk,hk,hk,xx]
  | .c3 =>
    [xx,xx,xx,xx,xx,kh,xx,xx,xx,xx,xx,hk,xx,xx,xx,xx,hk,xx,hk,hk,hk,hk,hk,hk,hk,hk,hk,c4,hk,xx]
  | .c4 =>
    [xx,xx,xx,xx,xx,kh,xx,xx,xx,xx,xx,hk,xx,xx,xx,xx,hk,xx,hk,hk,hk,c5,hk,hk,hk,hk,hk,hk,hk,xx]
  | .c5 =>
    [xx,xx,xx,xx,xx,kh,xx,xx,xx,xx,xx,hk,xx,xx,xx,xx,hk,xx,hk,c6,hk,hk,hk,hk,hk,hk,hk,hk,hk,xx]
  | .c6 =>
    [xx,xx,xx,xx,xx,kh,xx,xx,xx,xx,xx,hk,xx,xx,xx,xx,hk,xx,hk,hk,hk,hk,hk,hk,hk,hk,hk,c7,hk,xx]
  | .c7 =>
    [xx,xx,xx,xx,xx,kh,xx,xx,xx,xx,xx,hk,xx,xx,xx,xx,hk,xx,hk,hk,hk,c8,hk,hk,hk,hk,hk,hk,hk,xx]
  | .c8 =>
    [xx,xx,xx,xx,xx,kh,xx,xx,xx,xx,xx,c9,xx,xx,xx,xx,hk,xx,hk,hk,hk,hk,hk,hk,hk,hk,hk,hk,hk,xx]
  | .c9 =>
    [xx,xx,xx,xx,xx,kh,xx,xx,xx,xx,xx,hk,xx,xx,xx,xx,hk,xx,hk,hk,hk,hk,hk,hk,hk,hk,hk,hk,ca,xx]
  | .ca =>
    [xx,xx,xx,xx,xx,kh,xx,xx,xx,xx,xx,hk,xx,xx,xx,xx,hk,xx,hk,cb,hk,hk,hk,hk,hk,hk,hk,hk,hk,xx]
  | .cb =>
    [xx,xx,xx,xx,xx,kh,xx,xx,xx,xx,xx,hk,xx,xx,xx,xx,hk,xx,hk,hk,hk,hk,hk,hk,hk,hk,hk,cc,hk,xx]
  | .cc =>
    [xx,xx,xx,xx,xx,kh,xx,xx,xx,xx,xx,hk,xx,xx,xx,xx,hk,xx,hk,hk,cd,hk,hk,hk,hk,hk,hk,hk,hk,xx]
  | .cd =>
    [xx,xx,xx,xx,xx,kh,xx,xx,xx,xx,xx,hk,xx,xx,xx,xx,hk,xx,hk,hk,hk,ce,hk,hk,hk,hk,hk,hk,hk,xx]
  | .ce =>
    [xx,xx,xx,xx,xx,kh,xx,xx,xx,xx,xx,hk,xx,xx,xx,xx,hk,xx,hk,hk,hk,hk,hk,cf,hk,hk,hk,hk,hk,xx]
  | .cf =>
    [xx,xx,xx,xx,xx,cg,xx,xx,xx,xx,xx,hk,xx,xx,xx,xx,hk,xx,hk,hk,hk,hk,hk,hk,hk,hk,hk,hk,hk,xx]
  | .cg =>
    [xx,kc,xx,xx,xx,xx,xx,xx,xx,xx,xx,xx,xx,xx,xx,xx,xx,xx,xx,xx,xx,xx,xx,xx,xx,xx,xx,xx,xx,xx]
  | .cv =>
    [xx,xx,xx,ve,ve,xx,xx,xx,xx,xx,xx,xx,xx,xx,xx,vc,xx,xx,xx,xx,xx,xx,xx,xx,xx,xx,xx,xx,xx,xx]
  | .e1 =>
    [xx,xx,xx,xx,xx,xx,xx,xx,xx,xx,xx,xx,xx,xx,xx,ea,xx,xx,ea,ea,xx,xx,xx,xx,xx,xx,ea,xx,xx,xx]
  | .e2 =>
    [xx,xx,xx,xx,xx,xx,xx,xx,xx,xx,xx,xx,xx,xx,xx,eb,xx,xx,eb,eb,xx,xx,xx,xx,xx,xx,eb,xx,xx,xx]
  | .fi =>
    [xx,xx,xx,xx,eh,xx,xx,xx,xx,xx,xx,xx,xx,xx,xx,xx,xx,xx,xx,xx,xx,xx,xx,xx,xx,xx,xx,xx,xx,xx]
  | .bt =>
    [xx,bc,bc,bc,bc,xx,xx,xx,xx,bc,bc,bc,bc,xx,bh,bc,bc,xx,bc,bc,bc,bc,bc,bc,bc,bc,bc,bc,bc,bc]

end Table

/-- `state_transition_table`. -/
def stateTransitionTable (s : ParserState) (k : ParserClass) : Cell :=
  (tableRow s).getD k.ctorIdx .xx

/-! ## The parser -/

/-- `rx`: its four flags, and the low half, which holds the first digit of an escape in its low byte
and the character itself above it.  The twelve bits in between are never written. -/
structure Rx where
  post : Bool
  qs : Bool
  bodyContent : Bool
  ready : Bool
  low : UInt16
  deriving DecidableEq, Repr

/-- The word itself. -/
def Rx.word (rx : Rx) : UInt32 :=
  (if rx.post then 0x80000000 else 0) ||| (if rx.qs then 0x40000000 else 0) |||
    (if rx.bodyContent then 0x20000000 else 0) ||| (if rx.ready then 0x10000000 else 0) |||
    rx.low.toUInt32

/-- `http_parser` without the callback, which the caller passes along. -/
structure HttpParser where
  rx : Rx
  step : UInt32
  cl : UInt32
  state : ParserState
  deriving DecidableEq, Repr

namespace HttpParser

/-- `HTTP_PARSER_RESET`. -/
def reset : HttpParser := ⟨⟨false, false, false, false, 0⟩, 0, 0, .go⟩

/-- `parser->state = s`. -/
def goto (s : ParserState) (p : HttpParser) : HttpParser := { p with state := s }

/-- `parser->rx |= HTTP_FLG_READY`. -/
def setReady (p : HttpParser) : HttpParser := { p with rx := { p.rx with ready := true } }

/-- `--parser->cl`. -/
def decCl (p : HttpParser) : HttpParser := { p with cl := p.cl - 1 }

/-- A digit of the content length. -/
def addDigit (c : UInt8) (p : HttpParser) : HttpParser :=
  { p with cl := p.cl * 10 + (c.toUInt32 - 48) }

/-- `MP`: the path of a `POST`. -/
def startPost (p : HttpParser) : HttpParser :=
  { p with rx := { p.rx with post := true }, state := .pt }

/-- `QS`: the query string. -/
def startQs (p : HttpParser) : HttpParser := { p with rx := { p.rx with qs := true } }

/-- `EH`: the body of a `POST`. -/
def startBody (p : HttpParser) : HttpParser :=
  { p with state := .bt, rx := ⟨true, true, true, false, 0⟩ }

/-- `EA`: the first digit of an escape is kept in `rx`, and the character `c`. -/
def hexed (digit c : UInt8) (p : HttpParser) : HttpParser :=
  { p with
    rx := { p.rx with low := p.rx.low ||| (digit.toUInt16 ||| c.toUInt16 <<< 8) }, state := .e2 }

/-- `EB`: the state behind an escape, and `parser->rx &= 0xF0000000`. -/
def unhexed (p : HttpParser) : HttpParser :=
  { p with state := if p.rx.bodyContent then .bt else .pt, rx := { p.rx with low := 0 } }

end HttpParser

/-- `HTTP_parser_callback`; the parser it is called from belongs to its context. -/
abbrev HttpCallback (σ : Type*) := HttpEvent → HttpParser × σ → HttpParser × σ

section Parse

variable {σ : Type*} (callback : HttpCallback σ)

/-- `parser->callback(parser->ctx, type, value, parser->step)`. -/
def emit (type : CallbackType) (value : Int32) (ps : HttpParser × σ) : HttpParser × σ :=
  callback ⟨type, value, ps.1.step⟩ ps

/-- A store to the parser. -/
def modify (f : HttpParser → HttpParser) (ps : HttpParser × σ) : HttpParser × σ := (f ps.1, ps.2)

/-- `HTTP_PATHORQS`. -/
def pathOrQs (p : HttpParser) : CallbackType := if p.rx.qs then .qsChar else .pathChar

/-- `HTTP_CONSUME_BODY`. -/
def consumeBody (ps : HttpParser × σ) : HttpParser × σ :=
  let ps := modify HttpParser.decCl ps
  if ps.1.cl = 0 then emit callback .ready 0 (modify HttpParser.setReady ps) else ps

/-- `HTTP_BODY_AS_ENDED`: whether it has, and the parser behind it. -/
def bodyAsEnded (p : HttpParser) : Bool × HttpParser :=
  if p.rx.bodyContent then
    let p := p.decCl
    if p.cl = 0 then (true, p.setReady) else (false, p)
  else (false, p)

/-- The value of a hexadecimal digit, plus `base`. -/
def hexDigit (base c : UInt8) : UInt8 :=
  let ch := c ||| 0x20
  base + 10 + ch - (if '0'.toUInt8 ≤ ch ∧ ch ≤ '9'.toUInt8 then '0'.toUInt8 + 10 else 'a'.toUInt8)

/-- `c - '0'`. -/
def digit (c : UInt8) : Int32 := Int32.ofNat c.toNat - 48

/-- The `switch` of `parse_http_char`: the result and what is left of the parser. -/
def perform (a : ParserAction) (c : UInt8) (k : ParserClass) (ps : HttpParser × σ) :
    Bool × HttpParser × σ :=
  match a with
  | .mg =>
    let ps := emit callback .method HttpMethod.get.value ps
    (true, modify (.goto .pt) ps)
  | .mp =>
    let ps := emit callback .method HttpMethod.post.value ps
    (true, modify HttpParser.startPost ps)
  | .pe =>
    let ps := if ps.1.rx.qs then ps else emit callback .pathEnd 0 ps
    (true, modify (.goto .h1) ps)
  | .ha =>
    let ps := emit callback .versionMajor (digit c) ps
    (true, modify (.goto .h7) ps)
  | .hb =>
    let ps := emit callback .versionMinor (digit c) ps
    (true, modify (.goto .el) ps)
  | .kh =>
    let ps := emit callback .headerKey 0 ps
    (true, modify (.goto .hi) ps)
  | .vh =>
    let ps := emit callback .headerVal 0 ps
    (true, modify (.goto (if k = .cr then .er else .c1)) ps)
  | .kc =>
    let ps := emit callback .headerKey 0 ps
    (true, modify (.goto .cv) ps)
  | .vc =>
    let ps := modify (HttpParser.addDigit c) ps
    if ps.1.cl > 1048576 then (false, ps) else (true, modify (.goto .cv) ps)
  | .ve =>
    let ps := emit callback .clVal ps.1.cl.toInt32 ps
    (true, modify (.goto (if k = .cr then .er else .c1)) ps)
  | .ea =>
    let (ended, p) := bodyAsEnded ps.1
    if ended then (false, p, ps.2) else (true, p.hexed (hexDigit 0 c) c, ps.2)
  | .eb =>
    let ch := hexDigit (ps.1.rx.low.toUInt8 <<< 4) c
    let ps := emit callback (if ps.1.rx.bodyContent then .bodyChar else pathOrQs ps.1)
      (Int32.ofNat ch.toNat) ps
    let ps := modify HttpParser.unhexed ps
    (true, if ps.1.rx.bodyContent then consumeBody callback ps else ps)
  | .eh =>
    let ps := emit callback .headerEnd 0 ps
    let ps := if ps.1.rx.post then modify HttpParser.startBody ps else ps
    if ps.1.rx.post && ps.1.cl ≠ 0 then (true, ps)
    else (true, emit callback .ready 0 (modify HttpParser.setReady ps))
  | .bc =>
    let ps := emit callback .bodyChar (Int32.ofNat c.toNat) ps
    (true, consumeBody callback ps)
  | .pc =>
    let ps := modify (.goto .pt) ps
    (true, emit callback (pathOrQs ps.1) (Int32.ofNat c.toNat) ps)
  | .qs =>
    let ps := modify (.goto .pt) ps
    if ps.1.rx.qs then (true, emit callback (pathOrQs ps.1) (Int32.ofNat c.toNat) ps)
    else
      let ps := modify HttpParser.startQs ps
      (true, emit callback .pathEnd 0 ps)
  | .bh =>
    let (ended, p) := bodyAsEnded ps.1
    if ended then (false, p, ps.2) else (true, p.goto .e1, ps.2)
  | .hk =>
    let ps := emit callback .headerKeyc (Int32.ofNat c.toNat) ps
    (true, modify (.goto .hh) ps)
  | .hv =>
    let ps := emit callback .headerValc (Int32.ofNat c.toNat) ps
    (true, modify (.goto .hi) ps)

/-- An entry of the table: `state >= 0` is a state to go to, the rest is for the `switch`. -/
def enter (cell : Cell) (c : UInt8) (k : ParserClass) (ps : HttpParser × σ) :
    Bool × HttpParser × σ :=
  match cell with
  | .goto s => (true, modify (.goto s) ps)
  | .act a => perform callback a c k ps
  | .xx => (false, ps)

/-- `parse_http_char`. -/
def parseHttpChar (c : UInt8) (ps : HttpParser × σ) : Bool × HttpParser × σ :=
  let ps := modify (fun p => { p with step := p.step + 1 }) ps
  let k := classOf c
  if k = .nul ∨ ps.1.rx.ready then (false, ps)
  else enter callback (stateTransitionTable ps.1.state k) c k ps

/-- A bad byte, or any byte when the request is ready, is refused. -/
theorem parseHttpChar_refused {c : UInt8} {p : HttpParser} (s : σ)
    (h : classOf c = .nul ∨ p.rx.ready = true) :
    parseHttpChar callback c (p, s) = (false, { p with step := p.step + 1 }, s) := if_pos h

/-- Any other byte is looked up. -/
theorem parseHttpChar_enter {c : UInt8} {p : HttpParser} (s : σ)
    (h : ¬ (classOf c = .nul ∨ p.rx.ready = true)) :
    parseHttpChar callback c (p, s) = enter callback (stateTransitionTable p.state (classOf c)) c
      (classOf c) ({ p with step := p.step + 1 }, s) := if_neg h

/-- The bytes of a connection, up to the first that is refused. -/
def feed : List UInt8 → HttpParser × σ → Bool × HttpParser × σ
  | [], ps => (true, ps)
  | c :: cs, ps =>
    match parseHttpChar callback c ps with
    | (true, ps) => feed cs ps
    | (false, ps) => (false, ps)

/-- Bytes fed one after another, whatever the results. -/
def feedAll (cs : List UInt8) (ps : HttpParser × σ) : HttpParser × σ :=
  cs.foldl (fun ps c => (parseHttpChar callback c ps).2) ps

end Parse

end Ape.Http
