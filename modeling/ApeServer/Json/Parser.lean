import ApeServer.Json.Document
import ApeServer.Lib.Decimal

/-!
# The JSON parser

`JSON_parser.c` reads a text one character at a time with a table of states and character classes,
a stack of modes, and a buffer for the string or the number it is in.  It tells the callback of
every bracket, key and scalar.  A parser that has refused a character can be fed on, and then the
assertions of `decode_unicode_char` may fail; the others hold in every parser (`Json.Steady`).

* `Parser` — `JSON_parser_struct`;
* `stateTransitionTable` — the table;
* `jsonParserChar`, `jsonParserDone` — `JSON_parser_char` and `JSON_parser_done`;
* `initJsonParser` — `init_json_parser`: a text is read into a tree.
-/

namespace Ape.Json

/-! ## States, classes and actions -/

/-- `enum classes`. -/
inductive Classes where
  | space | white | lcurb | rcurb | lsqrb | rsqrb | colon | comma | quote | backs | slash | plus
  | minus | point | zero | digit | lowA | lowB | lowC | lowD | lowE | lowF | lowL | lowN | lowR
  | lowS | lowT | lowU | abcdf | e | etc | star
  deriving DecidableEq, Repr

/-- `enum states`. -/
inductive States where
  | go | ok | ob | ke | co | va | ar | st | es | u1 | u2 | u3 | u4 | mi | ze | it | fr | e1 | e2 | e3
  | t1 | t2 | t3 | f1 | f2 | f3 | f4 | n1 | n2 | n3 | c1 | c2 | c3 | fx | d1 | d2
  deriving DecidableEq, Repr

/-- `enum actions`, and behind them the ones without a name, `-2` to `-9`. -/
inductive Actions where
  | cb | ce | fa | tr | nu | de | df | sb | mx | zx | ix | ex | uc
  | m2 | m3 | m4 | m5 | m6 | m7 | m8 | m9
  deriving DecidableEq, Repr

/-- `enum modes`. -/
inductive Modes where
  | array | done | key | object
  deriving DecidableEq, Repr

section Classes

open Classes

/-- `ascii_class`, eight characters to a row; `__` is `none`. -/
def asciiClass : List (List (Option Classes)) := [
  [none, none, none, none, none, none, none, none],
  [none, white, white, none, none, white, none, none],
  [none, none, none, none, none, none, none, none],
  [none, none, none, none, none, none, none, none],
  [space, etc, quote, etc, etc, etc, etc, etc],
  [etc, etc, star, plus, comma, minus, point, slash],
  [zero, digit, digit, digit, digit, digit, digit, digit],
  [digit, digit, colon, etc, etc, etc, etc, etc],
  [etc, abcdf, abcdf, abcdf, abcdf, e, abcdf, etc],
  [etc, etc, etc, etc, etc, etc, etc, etc],
  [etc, etc, etc, etc, etc, etc, etc, etc],
  [etc, etc, etc, lsqrb, backs, rsqrb, etc, etc],
  [etc, lowA, lowB, lowC, lowD, lowE, lowF, etc],
  [etc, etc, etc, etc, lowL, etc, lowN, etc],
  [etc, etc, lowR, lowS, lowT, lowU, etc, etc],
  [etc, etc, etc, lcurb, etc, rcurb, etc, etc]]

end Classes

/-- The class of a character that is not negative. -/
def classOf (c : Int) : Option Classes :=
  if c ≥ 128 then some .etc else (asciiClass.getD (c.toNat / 8) []).getD (c.toNat % 8) none

/-- An entry of the table: `__`, a state to go to, or an action. -/
inductive Cell where
  | xx
  | goto (state : States)
  | act (action : Actions)
  deriving DecidableEq, Repr

section Table

open Cell States Actions

/-- An entry that is a state. -/
local instance : Coe States Cell := ⟨goto⟩

/-- An entry that is an action. -/
local instance : Coe Actions Cell := ⟨act⟩

/-- The rows of `state_transition_table`. -/
def tableRow : States → List Cell
  | .go =>
   [go,go,m6,xx,m5,xx,xx,xx,xx,xx,cb,xx,xx,xx,xx,xx,xx,xx,xx,xx,xx,xx,xx,xx,xx,xx,xx,xx,xx,xx,xx,xx]
  | .ok =>
   [ok,ok,xx,m8,xx,m7,xx,m3,xx,xx,cb,xx,xx,xx,xx,xx,xx,xx,xx,xx,xx,xx,xx,xx,xx,xx,xx,xx,xx,xx,xx,xx]
  | .ob =>
   [ob,ob,xx,m9,xx,xx,xx,xx,sb,xx,cb,xx,xx,xx,xx,xx,xx,xx,xx,xx,xx,xx,xx,xx,xx,xx,xx,xx,xx,xx,xx,xx]
  | .ke =>
   [ke,ke,xx,xx,xx,xx,xx,xx,sb,xx,cb,xx,xx,xx,xx,xx,xx,xx,xx,xx,xx,xx,xx,xx,xx,xx,xx,xx,xx,xx,xx,xx]
  | .co =>
   [co,co,xx,xx,xx,xx,m2,xx,xx,xx,cb,xx,xx,xx,xx,xx,xx,xx,xx,xx,xx,xx,xx,xx,xx,xx,xx,xx,xx,xx,xx,xx]
  | .va =>
   [va,va,m6,xx,m5,xx,xx,xx,sb,xx,cb,xx,mx,xx,zx,ix,xx,xx,xx,xx,xx,fa,xx,nu,xx,xx,tr,xx,xx,xx,xx,xx]
  | .ar =>
   [ar,ar,m6,xx,m5,m7,xx,xx,sb,xx,cb,xx,mx,xx,zx,ix,xx,xx,xx,xx,xx,fa,xx,nu,xx,xx,tr,xx,xx,xx,xx,xx]
  | .st =>
   [st,xx,st,st,st,st,st,st,m4,ex,st,st,st,st,st,st,st,st,st,st,st,st,st,st,st,st,st,st,st,st,st,st]
  | .es =>
   [xx,xx,xx,xx,xx,xx,xx,xx,st,st,st,xx,xx,xx,xx,xx,xx,st,xx,xx,xx,st,xx,st,st,xx,st,u1,xx,xx,xx,xx]
  | .u1 =>
   [xx,xx,xx,xx,xx,xx,xx,xx,xx,xx,xx,xx,xx,xx,u2,u2,u2,u2,u2,u2,u2,u2,xx,xx,xx,xx,xx,xx,u2,u2,xx,xx]
  | .u2 =>
   [xx,xx,xx,xx,xx,xx,xx,xx,xx,xx,xx,xx,xx,xx,u3,u3,u3,u3,u3,u3,u3,u3,xx,xx,xx,xx,xx,xx,u3,u3,xx,xx]
  | .u3 =>
   [xx,xx,xx,xx,xx,xx,xx,xx,xx,xx,xx,xx,xx,xx,u4,u4,u4,u4,u4,u4,u4,u4,xx,xx,xx,xx,xx,xx,u4,u4,xx,xx]
  | .u4 =>
   [xx,xx,xx,xx,xx,xx,xx,xx,xx,xx,xx,xx,xx,xx,uc,uc,uc,uc,uc,uc,uc,uc,xx,xx,xx,xx,xx,xx,uc,uc,xx,xx]
  | .mi =>
   [xx,xx,xx,xx,xx,xx,xx,xx,xx,xx,xx,xx,xx,xx,ze,it,xx,xx,xx,xx,xx,xx,xx,xx,xx,xx,xx,xx,xx,xx,xx,xx]
  | .ze =>
   [ok,ok,xx,m8,xx,m7,xx,m3,xx,xx,cb,xx,xx,df,xx,xx,xx,xx,xx,xx,xx,xx,xx,xx,xx,xx,xx,xx,xx,xx,xx,xx]
  | .it =>
   [ok,ok,xx,m8,xx,m7,xx,m3,xx,xx,cb,xx,xx,df,it,it,xx,xx,xx,xx,de,xx,xx,xx,xx,xx,xx,xx,xx,de,xx,xx]
  | .fr =>
   [ok,ok,xx,m8,xx,m7,xx,m3,xx,xx,cb,xx,xx,xx,fr,fr,xx,xx,xx,xx,e1,xx,xx,xx,xx,xx,xx,xx,xx,e1,xx,xx]
  | .e1 =>
   [xx,xx,xx,xx,xx,xx,xx,xx,xx,xx,xx,e2,e2,xx,e3,e3,xx,xx,xx,xx,xx,xx,xx,xx,xx,xx,xx,xx,xx,xx,xx,xx]
  | .e2 =>
   [xx,xx,xx,xx,xx,xx,xx,xx,xx,xx,xx,xx,xx,xx,e3,e3,xx,xx,xx,xx,xx,xx,xx,xx,xx,xx,xx,xx,xx,xx,xx,xx]
  | .e3 =>
   [ok,ok,xx,m8,xx,m7,xx,m3,xx,xx,xx,xx,xx,xx,e3,e3,xx,xx,xx,xx,xx,xx,xx,xx,xx,xx,xx,xx,xx,xx,xx,xx]
  | .t1 =>
   [xx,xx,xx,xx,xx,xx,xx,xx,xx,xx,xx,xx,xx,xx,xx,xx,xx,xx,xx,xx,xx,xx,xx,xx,t2,xx,xx,xx,xx,xx,xx,xx]
  | .t2 =>
   [xx,xx,xx,xx,xx,xx,xx,xx,xx,xx,xx,xx,xx,xx,xx,xx,xx,xx,xx,xx,xx,xx,xx,xx,xx,xx,xx,t3,xx,xx,xx,xx]
  | .t3 =>
   [xx,xx,xx,xx,xx,xx,xx,xx,xx,xx,cb,xx,xx,xx,xx,xx,xx,xx,xx,xx,ok,xx,xx,xx,xx,xx,xx,xx,xx,xx,xx,xx]
  | .f1 =>
   [xx,xx,xx,xx,xx,xx,xx,xx,xx,xx,xx,xx,xx,xx,xx,xx,f2,xx,xx,xx,xx,xx,xx,xx,xx,xx,xx,xx,xx,xx,xx,xx]
  | .f2 =>
   [xx,xx,xx,xx,xx,xx,xx,xx,xx,xx,xx,xx,xx,xx,xx,xx,xx,xx,xx,xx,xx,xx,f3,xx,xx,xx,xx,xx,xx,xx,xx,xx]
  | .f3 =>
   [xx,xx,xx,xx,xx,xx,xx,xx,xx,xx,xx,xx,xx,xx,xx,xx,xx,xx,xx,xx,xx,xx,xx,xx,xx,f4,xx,xx,xx,xx,xx,xx]
  | .f4 =>
   [xx,xx,xx,xx,xx,xx,xx,xx,xx,xx,cb,xx,xx,xx,xx,xx,xx,xx,xx,xx,ok,xx,xx,xx,xx,xx,xx,xx,xx,xx,xx,xx]
  | .n1 =>
   [xx,xx,xx,xx,xx,xx,xx,xx,xx,xx,xx,xx,xx,xx,xx,xx,xx,xx,xx,xx,xx,xx,xx,xx,xx,xx,xx,n2,xx,xx,xx,xx]
  | .n2 =>
   [xx,xx,xx,xx,xx,xx,xx,xx,xx,xx,xx,xx,xx,xx,xx,xx,xx,xx,xx,xx,xx,xx,n3,xx,xx,xx,xx,xx,xx,xx,xx,xx]
  | .n3 =>
   [xx,xx,xx,xx,xx,xx,xx,xx,xx,xx,cb,xx,xx,xx,xx,xx,xx,xx,xx,xx,xx,xx,ok,xx,xx,xx,xx,xx,xx,xx,xx,xx]
  | .c1 =>
   [xx,xx,xx,xx,xx,xx,xx,xx,xx,xx,xx,xx,xx,xx,xx,xx,xx,xx,xx,xx,xx,xx,xx,xx,xx,xx,xx,xx,xx,xx,xx,c2]
  | .c2 =>
   [c2,c2,c2,c2,c2,c2,c2,c2,c2,c2,c2,c2,c2,c2,c2,c2,c2,c2,c2,c2,c2,c2,c2,c2,c2,c2,c2,c2,c2,c2,c2,c3]
  | .c3 =>
   [c2,c2,c2,c2,c2,c2,c2,c2,c2,c2,ce,c2,c2,c2,c2,c2,c2,c2,c2,c2,c2,c2,c2,c2,c2,c2,c2,c2,c2,c2,c2,c3]
  | .fx =>
   [ok,ok,xx,m8,xx,m7,xx,m3,xx,xx,xx,xx,xx,xx,fr,fr,xx,xx,xx,xx,e1,xx,xx,xx,xx,xx,xx,xx,xx,e1,xx,xx]
  | .d1 =>
   [xx,xx,xx,xx,xx,xx,xx,xx,xx,d2,xx,xx,xx,xx,xx,xx,xx,xx,xx,xx,xx,xx,xx,xx,xx,xx,xx,xx,xx,xx,xx,xx]
  | .d2 =>
   [xx,xx,xx,xx,xx,xx,xx,xx,xx,xx,xx,xx,xx,xx,xx,xx,xx,xx,xx,xx,xx,xx,xx,xx,xx,xx,xx,u1,xx,xx,xx,xx]

end Table

/-- `state_transition_table`. -/
def stateTransitionTable (s : States) (k : Classes) : Cell := (tableRow s).getD k.ctorIdx .xx

/-! ## The parser -/

/-- What the code uses of the C library for numbers that are not integers, and of the locale. -/
structure Libc where
  strtod : List UInt8 → UInt64
  decimalPoint : UInt8

/-- `JSON_parser_struct`: the stack has its top in front, and the buffer holds the first
`parse_buffer_count` bytes.  `callback` is whether there is one. -/
structure Parser where
  state : States := .go
  beforeCommentState : States := .go
  type : JsonType := .none
  escaped : Bool := false
  comment : Bool := false
  allowComments : Bool := false
  callback : Bool := true
  utf16HighSurrogate : Nat := 0
  depth : Int := 127
  stack : List Modes := []
  parseBuffer : List UInt8 := []
  deriving DecidableEq, Repr

/-- What a call leaves: its result, the parser, the calls it has made of the callback, and whether
the process was lost in it, by an assertion that failed or by a read below the stack. -/
structure Outcome where
  ok : Bool
  parser : Parser
  events : List Event := []
  lost : Bool := false
  deriving DecidableEq, Repr

/-- One call and, if it returned `true`, another one. -/
def Outcome.andThen (o : Outcome) (f : Parser → Outcome) : Outcome :=
  if o.ok then
    { f o.parser with
      events := o.events ++ (f o.parser).events, lost := o.lost || (f o.parser).lost }
  else o

/-- A call that returns `true` and calls nothing. -/
def proceed (jc : Parser) : Outcome := { ok := true, parser := jc }

/-- A call that returns `false`. -/
def refuse (jc : Parser) : Outcome := { ok := false, parser := jc }

/-- A call that does not return. -/
def abort (jc : Parser) : Outcome := { ok := false, parser := jc, lost := true }

/-- A call of the callback, which always goes on: `json_callback` returns 1. -/
def emit (e : Event) (jc : Parser) : Outcome :=
  { ok := true, parser := jc, events := if jc.callback then [e] else [] }

/-- `push`: `top` is one less than the length of the stack. -/
def push (mode : Modes) (jc : Parser) : Outcome :=
  if 0 ≤ jc.depth ∧ (jc.stack.length : Int) - 1 = jc.depth then refuse jc
  else proceed { jc with stack := mode :: jc.stack }

/-- `pop`. -/
def pop (mode : Modes) (jc : Parser) : Outcome :=
  if jc.stack.head? = some mode then proceed { jc with stack := jc.stack.tail } else refuse jc

/-- `parse_buffer_clear`. -/
def Parser.bufferClear (jc : Parser) : Parser := { jc with parseBuffer := [] }

/-- `parse_buffer_pop_back_char`. -/
def Parser.bufferPop (jc : Parser) : Parser := { jc with parseBuffer := jc.parseBuffer.dropLast }

/-- `parse_buffer_push_back_char`. -/
def Parser.bufferPush (c : UInt8) (jc : Parser) : Parser :=
  { jc with parseBuffer := jc.parseBuffer ++ [c] }

/-- `new_JSON_parser`. -/
def newParser (callback : Bool) (depth : Int) (allowComments : Bool) : Parser :=
  { callback, allowComments, depth := if depth = 0 then 1 else if depth > 0 then depth else -1
    stack := [.done] }

/-- White space, as `sscanf` skips it. -/
def isSpace (c : UInt8) : Bool := c == 32 || (9 ≤ c && c ≤ 13)

/-- A decimal digit. -/
def isDigit (c : UInt8) : Bool := 48 ≤ c && c ≤ 57

/-- `sscanf` with `%lld`: white space, a sign and digits; a value out of range is cut to the nearest
that is in range. -/
def scanInteger (buffer : List UInt8) : Int64 :=
  let value (ds : List UInt8) : Nat := Decimal.value (ds.takeWhile isDigit)
  match buffer.dropWhile isSpace with
  | 45 :: ds => Int64.ofInt (max (-(value ds : Int)) (-2 ^ 63))
  | 43 :: ds => Int64.ofInt (min (value ds : Int) (2 ^ 63 - 1))
  | ds => Int64.ofInt (min (value ds : Int) (2 ^ 63 - 1))

section Calls

variable (libc : Libc)

/-- What the type and the buffer say: the scalar that is told to the callback. -/
def Parser.scalar (jc : Parser) : Option Scalar :=
  match jc.type with
  | .float => some (.float (libc.strtod jc.parseBuffer))
  | .integer => some (.integer (scanInteger jc.parseBuffer))
  | .string => some (.string jc.parseBuffer)
  | .null => some .null
  | .true => some .true
  | .false => some .false
  | _ => none

/-- `parse_parse_buffer`. -/
def parseParseBuffer (jc : Parser) : Outcome :=
  let told := match jc.scalar libc with
    | some value => emit (.value value) jc
    | none => proceed jc
  told.andThen fun jc => proceed jc.bufferClear

/-- The value of a hexadecimal digit, as `decode_unicode_char` computes it. -/
def hexValue (c : UInt8) : Nat :=
  if c.toNat ≥ 97 then c.toNat - 87 else if c.toNat ≥ 65 then c.toNat - 55 else c.toNat &&& 0xCF

/-- `utf8_lead_bits`. -/
def utf8LeadBits : List Nat := [0x00, 0xC0, 0xE0, 0xF0]

/-- The bytes a character is written as. -/
def encodeUtf8 (uc trailBytes : Nat) : List UInt8 :=
  UInt8.ofNat ((uc >>> (trailBytes * 6)) ||| utf8LeadBits.getD trailBytes 0) ::
    (List.range trailBytes).reverse.map fun i => UInt8.ofNat (((uc >>> (i * 6)) &&& 0x3F) ||| 0x80)

/-- The last four characters of the buffer. -/
def Parser.digits (jc : Parser) : List UInt8 := jc.parseBuffer.drop (jc.parseBuffer.length - 4)

/-- The assertions of `decode_unicode_char`. -/
def Parser.Decodable (jc : Parser) : Prop :=
  6 ≤ jc.parseBuffer.length ∧ ∀ c ∈ jc.digits, hexValue c < 16

instance (jc : Parser) : Decidable jc.Decodable := inferInstanceAs (Decidable (_ ∧ _))

/-- `decode_unicode_char` behind its assertions. -/
def decodeDigits (jc : Parser) : Outcome :=
  let uc := jc.digits.foldl (fun uc c => uc <<< 4 ||| hexValue c) 0
  let jc := { jc with parseBuffer := jc.parseBuffer.take (jc.parseBuffer.length - 6) }
  let write (uc trailBytes : Nat) (jc : Parser) : Outcome :=
    proceed { jc with parseBuffer := jc.parseBuffer ++ encodeUtf8 uc trailBytes }
  let isHighSurrogate := uc &&& 0xFC00 = 0xD800
  let isLowSurrogate := uc &&& 0xFC00 = 0xDC00
  if jc.utf16HighSurrogate ≠ 0 then
    if isLowSurrogate then
      write (((jc.utf16HighSurrogate &&& 0x3FF) <<< 10) + (uc &&& 0x3FF) + 0x10000) 3
        { jc with utf16HighSurrogate := 0 }
    else refuse jc
  else if uc < 0x80 then write uc 0 jc
  else if uc < 0x800 then write uc 1 jc
  else if isHighSurrogate then proceed { jc with utf16HighSurrogate := uc }
  else if isLowSurrogate then refuse jc
  else write uc 2 jc

/-- `decode_unicode_char`. -/
def decodeUnicodeChar (jc : Parser) : Outcome :=
  if jc.Decodable then decodeDigits jc else abort jc

/-- The character an escape stands for; `\u` is handled apart. -/
def unescape (c : Int) : Option UInt8 :=
  if c = 98 then some 8
  else if c = 102 then some 12
  else if c = 110 then some 10
  else if c = 114 then some 13
  else if c = 116 then some 9
  else if c = 34 then some 34
  else if c = 92 then some 92
  else if c = 47 then some 47
  else none

/-- `add_escaped_char_to_parse_buffer`. -/
def addEscapedChar (nextChar : Int) (jc : Parser) : Outcome :=
  let jc := { jc with escaped := false }.bufferPop
  if nextChar = 117 then proceed ((jc.bufferPush 92).bufferPush 117)
  else match unescape nextChar with
    | some c => proceed (jc.bufferPush c)
    | none => refuse jc

/-- A character of `int` as a `char`. -/
def toByte (c : Int) : UInt8 := UInt8.ofNat (c % 256).toNat

/-- `add_char_to_parse_buffer`. -/
def addChar (nextChar : Int) (nextClass : Classes) (jc : Parser) : Outcome :=
  if jc.escaped then addEscapedChar nextChar jc
  else if jc.comment then proceed jc
  else if jc.type ≠ .none ∨ ¬ (nextClass = .space ∨ nextClass = .white) then
    proceed (jc.bufferPush (toByte nextChar))
  else proceed jc

/-! ## One character -/

/-- `-6` and `-5`, an opening bracket. -/
def opening (kind : Kind) (mode : Modes) (state : States) (jc : Parser) : Outcome :=
  (emit (.containerBegin kind) jc.bufferPop).andThen fun jc =>
  (push mode jc).andThen fun jc =>
  proceed { jc with state }

/-- `-8` and `-7`, a closing bracket. -/
def closing (kind : Kind) (mode : Modes) (jc : Parser) : Outcome :=
  (parseParseBuffer libc jc.bufferPop).andThen fun jc =>
  (emit (.containerEnd kind) jc).andThen fun jc =>
  (pop mode jc).andThen fun jc =>
  proceed { jc with type := .none, state := .ok }

/-- `-9`, the bracket that closes an empty object. -/
def closingEmpty (jc : Parser) : Outcome :=
  (emit (.containerEnd .object) jc.bufferClear).andThen fun jc =>
  (pop .key jc).andThen fun jc =>
  proceed { jc with state := .ok }

/-- `-4`, the quote behind a string. -/
def stringEnd (jc : Parser) : Outcome :=
  let jc := jc.bufferPop
  match jc.stack.head? with
  | some .key =>
    (emit (.key jc.parseBuffer) { jc with type := .none, state := .co }).andThen fun jc =>
    proceed jc.bufferClear
  | some .array | some .object =>
    (parseParseBuffer libc jc).andThen fun jc =>
    proceed { jc with type := .none, state := .ok }
  | some .done => refuse jc
  | none => abort jc

/-- The `switch` behind a comma: it flips from object mode to key mode. -/
def nextMember (jc : Parser) : Outcome :=
  match jc.stack.head? with
  | some .object =>
    (pop .object jc).andThen fun jc =>
    (push .key jc).andThen fun jc =>
    proceed { jc with type := .none, state := .ke }
  | some .array => proceed { jc with type := .none, state := .va }
  | some _ => refuse jc
  | none => abort jc

/-- `-3`, a comma. -/
def comma (jc : Parser) : Outcome := (parseParseBuffer libc jc.bufferPop).andThen nextMember

/-- `-2`, a colon: it flips from key mode to object mode. -/
def colon (jc : Parser) : Outcome :=
  (pop .key jc.bufferPop).andThen fun jc =>
  (push .object jc).andThen fun jc =>
  proceed { jc with state := .va }

/-- `CB`. -/
def commentBegin (jc : Parser) : Outcome :=
  if jc.allowComments then
    (parseParseBuffer libc jc.bufferPop).andThen fun jc =>
    match jc.stack.head? with
    | none => abort jc
    | some mode =>
      let before := match mode, jc.state with
        | .array, .va | .array, .ar | .object, .va | .object, .ar => jc.state
        | .array, _ | .object, _ => .ok
        | _, state => state
      proceed { jc with beforeCommentState := before, type := .none, state := .c1, comment := true }
  else refuse jc

/-- The `switch` over the actions. -/
def act (action : Actions) (jc : Parser) : Outcome :=
  match action with
  | .uc => (decodeUnicodeChar jc).andThen fun jc =>
    proceed { jc with state := if jc.utf16HighSurrogate ≠ 0 then .d1 else .st }
  | .ex => proceed { jc with escaped := true, state := .es }
  | .mx => proceed { jc with type := .integer, state := .mi }
  | .zx => proceed { jc with type := .integer, state := .ze }
  | .ix => proceed { jc with type := .integer, state := .it }
  | .de => proceed { jc with type := .float, state := .e1 }
  | .df => proceed { jc.bufferPop.bufferPush libc.decimalPoint with type := .float, state := .fx }
  | .sb => proceed { jc.bufferClear with type := .string, state := .st }
  | .nu => proceed { jc with type := .null, state := .n1 }
  | .fa => proceed { jc with type := .false, state := .f1 }
  | .tr => proceed { jc with type := .true, state := .t1 }
  | .ce => proceed { jc with comment := false, state := jc.beforeCommentState }
  | .cb => commentBegin libc jc
  | .m9 => closingEmpty jc
  | .m8 => closing libc .object .object jc
  | .m7 => closing libc .array .array jc
  | .m6 => opening .object .key .ob jc
  | .m5 => opening .array .array .ar jc
  | .m4 => stringEnd libc jc
  | .m3 => comma libc jc
  | .m2 => colon jc

/-- **`JSON_parser_char`**. -/
def jsonParserChar (nextChar : Int) (jc : Parser) : Outcome :=
  if nextChar < 0 then refuse jc
  else match classOf nextChar with
    | none => refuse jc
    | some nextClass =>
      (addChar nextChar nextClass jc).andThen fun jc =>
      match stateTransitionTable jc.state nextClass with
      | .goto state => proceed { jc with state }
      | .act action => act libc action jc
      | .xx => refuse jc

/-- The characters of a text, one after the other, up to one that is refused. -/
def feed : List Int → Parser → Outcome
  | [], jc => proceed jc
  | c :: cs, jc => (jsonParserChar libc c jc).andThen (feed cs)

/-- **`JSON_parser_done`**. -/
def jsonParserDone (jc : Parser) : Outcome :=
  if jc.state = .ok ∨ jc.state = .go then pop .done jc else refuse jc

/-- The characters of a C string, as `char`. -/
def chars (text : List UInt8) : List Int := (text.takeWhile (· ≠ 0)).map fun c => c.toInt8.toInt

/-- **`init_json_parser`**: the context when the text is accepted, whose head is returned. -/
def initJsonParser (text : List UInt8) : Option Context :=
  let o := (feed libc (chars text) (newParser true 15 false)).andThen jsonParserDone
  if o.ok then build o.events else none

end Calls

end Ape.Json
