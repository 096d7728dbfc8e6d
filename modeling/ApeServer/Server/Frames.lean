import ApeServer.Json.Language
import ApeServer.Json.Steady
import ApeServer.Lib.Runs
import ApeServer.Server.Callback

/-!
# The frames of a client

`ape_server_on_ws_frame` reads the payload of a frame with the JSON parser of the client.  The parser
is made for the first frame only, and its callback writes to a context in the frame of that call.

* `onWsFrame` — the function of `ape_server.c`;
* `valid_iff` — what a parser of its own takes: white space and the text of a document;
* `FrameRight` — what is promised of a frame: what a parser of its own makes of it;
* `processed_once` — **of the frames of a connection at most one is ever processed**;
* `frames_right` — **the promise is kept in every run of frames that find no parser, or are no
  documents and are refused by the one left over before it comes to tell anything**.
-/

namespace Ape.Server

open Codec (ascii)
open Http (HttpParser feed)
open Json (Blank Context DocumentText Finishes Libc Members Outcome Parser Steady build
  documentEvents idle jsonCallback jsonParserChar jsonParserDone newParser)
open Runs

/-! ## The frames -/

/-- What is done with a frame: `ape_cmd_process_multi` with the tree, if the callback followed no
null pointer, or the reply `PATTERN_ERR_BAD_JSON`. -/
inductive Reaction where
  | process (tree : Option Context)
  | badJson
  deriving DecidableEq, Repr

/-- A client as its frames find it: the parser, what was done, and whether the process is lost, because
an assertion failed, a callback wrote to the context of a call that is over, or an index went beyond an
`int`. -/
structure Session where
  json : Option Parser
  log : List Reaction
  lost : Bool
  deriving DecidableEq, Repr

/-- The client when its first frame comes. -/
def Session.of (c : Client) : Session := ⟨c.json, [], c.lost⟩

/-- The parser that is made for the first frame. -/
def frameParser : Parser := newParser true 15 false

/-- What a call leaves: the parser and, unless the process is lost, what was done with the frame. -/
def Session.after (s : Session) (o : Outcome) (tree : Option Context) (lost : Bool) : Session :=
  ⟨some o.parser, if lost then s.log else s.log ++ [if o.ok then .process tree else .badJson], lost⟩

section Functions

variable (libc : Libc)

/-- `JSON_parser_char` for the bytes of a frame, and `JSON_parser_done`. -/
def readFrame (payload : List UInt8) (jc : Parser) : Outcome :=
  (Json.feed libc (payload.map fun b => (b.toNat : Int)) jc).andThen jsonParserDone

/-- The index of the loop over the bytes of a frame, an `int`, goes beyond what it can hold: the first
`2 ^ 31` of them are all taken. -/
def overruns (payload : List UInt8) (jc : Parser) : Bool :=
  decide (2 ^ 31 ≤ payload.length) &&
    (Json.feed libc ((payload.take (2 ^ 31)).map fun b => (b.toNat : Int)) jc).ok

/-- **`ape_server_on_ws_frame`**: the context of this call is written by a parser of this call.  A
parser that is left over has no callback, or one whose context is gone. -/
def onWsFrame (s : Session) (payload : List UInt8) : Session :=
  if s.lost then s
  else match s.json with
  | none =>
    let o := readFrame libc payload frameParser
    s.after o (build o.events) (o.lost || overruns libc payload frameParser)
  | some jc =>
    let o := readFrame libc payload jc
    s.after o (build []) (o.lost || !o.events.isEmpty || overruns libc payload jc)

/-! ## What a parser of its own takes -/

/-- A parser of its own takes the payload. -/
def Valid (payload : List UInt8) : Prop := (readFrame libc payload frameParser).ok = true

instance (payload : List UInt8) : Decidable (Valid libc payload) :=
  inferInstanceAs (Decidable (_ = true))

/-- The text of a document. -/
def IsDocument (payload : List UInt8) : Prop :=
  ∃ (kind : Json.Kind) (m : Members kind), DocumentText libc m payload

/-- A text that is taken, and its events. -/
theorem finishes_readFrame (text : List UInt8) (es : List Json.Event) :
    Finishes libc frameParser text es ↔
      Valid libc text ∧ (readFrame libc text frameParser).events = es := by
  have hcall : (Json.proceed frameParser).andThen (Json.feed libc (Json.codes text)) =
      Json.feed libc (Json.codes text) frameParser := Json.proceed_andThen ..
  unfold Finishes Json.Outcome.Leads Valid readFrame
  rw [hcall]
  exact Iff.rfl

/-- What is taken, and the events that are told. -/
theorem valid_iff (text : List UInt8) (es : List Json.Event) :
    Valid libc text ∧ (readFrame libc text frameParser).events = es ↔
      Blank text ∧ es = [] ∨ ∃ (kind : Json.Kind) (m : Members kind),
        DocumentText libc m text ∧ es = documentEvents m := by
  rw [← finishes_readFrame]
  exact Json.finishes_iff

/-- **A parser of its own takes white space and documents**, and nothing else. -/
theorem valid_iff_document (text : List UInt8) :
    Valid libc text ↔ Blank text ∨ IsDocument libc text := by
  constructor
  · intro h
    rcases (valid_iff libc text _).1 ⟨h, rfl⟩ with ⟨hblank, -⟩ | ⟨kind, m, htext, -⟩
    · exact .inl hblank
    · exact .inr ⟨kind, m, htext⟩
  · rintro (hblank | ⟨kind, m, htext⟩)
    · exact ((valid_iff libc text []).2 (.inl ⟨hblank, rfl⟩)).1
    · exact ((valid_iff libc text _).2 (.inr ⟨kind, m, htext, rfl⟩)).1

/-- A blank payload is valid, and nothing is told of it. -/
theorem readFrame_blank {payload : List UInt8} (h : Blank payload) :
    Valid libc payload ∧ (readFrame libc payload frameParser).events = [] :=
  (valid_iff libc payload []).2 (.inl ⟨h, rfl⟩)

/-- A valid payload that is not blank begins with an opening bracket. -/
theorem valid_first {payload : List UInt8} (h : Valid libc payload) (hblank : ¬ Blank payload) :
    ∃ kind es, (readFrame libc payload frameParser).events = Json.Event.containerBegin kind :: es := by
  rcases (valid_iff libc payload _).1 ⟨h, rfl⟩ with ⟨hyes, -⟩ | ⟨kind, m, -, hevents⟩
  · exact absurd hyes hblank
  · exact ⟨kind, _, hevents⟩

/-- A document is not blank. -/
theorem IsDocument.not_blank {payload : List UInt8} (h : IsDocument libc payload) :
    ¬ Blank payload := by
  obtain ⟨kind, m, a, i, b, rfl, -⟩ := h
  intro hblank
  have hopens := hblank kind.opens (by simp)
  cases kind <;> exact absurd hopens (by decide)

instance (payload : List UInt8) : Decidable (IsDocument libc payload) :=
  decidable_of_iff (Valid libc payload ∧ ¬ Blank payload) <| by
    rw [valid_iff_document]
    exact ⟨fun h => h.1.resolve_left h.2, fun h => ⟨.inr h, h.not_blank⟩⟩

/-! ## What is promised -/

/-- What belongs to a payload: a command on its tree, or the reply. -/
def answer (payload : List UInt8) : Reaction :=
  if Valid libc payload then .process (build (readFrame libc payload frameParser).events) else .badJson

/-- A frame is answered as the first one would be, and the process is not lost. -/
@[mk_iff]
structure FrameRight (s : Session) (payload : List UInt8) : Prop where
  reaction : (onWsFrame libc s payload).log = s.log ++ [answer libc payload]
  running : (onWsFrame libc s payload).lost = false

/-- The bytes of the frame can be counted in an `int`, and the frame finds no parser.  Or it is neither
white space nor a document, and the one left over refuses it before it comes to tell anything; or it is
white space, and the one left over is outside of a document and has not come to its end. -/
structure FrameOk (s : Session) (payload : List UInt8) : Prop where
  running : s.lost = false
  short : payload.length < 2 ^ 31
  left : ∀ jc, s.json = some jc →
    (¬ Blank payload ∧ ¬ IsDocument libc payload ∧ idle jc.state payload = true) ∨
      (Blank payload ∧ (jc.state = .go ∨ jc.state = .ok) ∧ jc.stack.head? = some .done)

/-! ## One frame -/

theorem overruns_of_short {payload : List UInt8} (hshort : payload.length < 2 ^ 31) (jc : Parser) :
    overruns libc payload jc = false := by
  rw [overruns, decide_eq_false (Nat.not_le.2 hshort), Bool.false_and]

/-- **A frame that finds no parser** is answered for itself, if the process is not lost with it. -/
theorem onWsFrame_kept {s : Session} (hrunning : s.lost = false) (h : s.json = none)
    {payload : List UInt8} (hkept : (onWsFrame libc s payload).lost = false) :
    onWsFrame libc s payload =
      ⟨some (readFrame libc payload frameParser).parser, s.log ++ [answer libc payload], false⟩ := by
  unfold onWsFrame at hkept ⊢
  rw [if_neg (by simp [hrunning]), h] at hkept ⊢
  simp only [Session.after] at hkept ⊢
  rw [hkept]
  rfl

/-- The process is not lost with a frame that finds no parser and whose bytes an `int` can count. -/
theorem onWsFrame_none {s : Session} (hrunning : s.lost = false) (h : s.json = none)
    {payload : List UInt8} (hshort : payload.length < 2 ^ 31) : onWsFrame libc s payload =
      ⟨some (readFrame libc payload frameParser).parser, s.log ++ [answer libc payload], false⟩ := by
  have hlost : (readFrame libc payload frameParser).lost = false := Json.lost_text libc true 15 _
  refine onWsFrame_kept libc hrunning h ?_
  unfold onWsFrame
  rw [if_neg (by simp [hrunning]), h]
  simp only [Session.after, hlost, overruns_of_short libc hshort, Bool.or_self]

/-- A frame that finds a parser is read by it, and the process is lost with whatever it tells. -/
theorem onWsFrame_some {s : Session} (hrunning : s.lost = false) {jc : Parser} (h : s.json = some jc)
    (payload : List UInt8) : onWsFrame libc s payload =
      s.after (readFrame libc payload jc) (build []) ((readFrame libc payload jc).lost ||
        !(readFrame libc payload jc).events.isEmpty || overruns libc payload jc) := by
  unfold onWsFrame
  rw [if_neg (by simp [hrunning]), h]

/-- Every parser that a client can have, whatever it has refused. -/
def Session.Sound (s : Session) : Prop := ∀ jc, s.json = some jc → Steady jc

/-- **A frame that meets the condition** is right. -/
theorem FrameOk.right {s : Session} {payload : List UInt8} (h : FrameOk libc s payload)
    (hsound : s.Sound) : FrameRight libc s payload := by
  cases hjson : s.json with
  | none =>
    rw [frameRight_iff, onWsFrame_none libc h.running hjson h.short]
    exact ⟨rfl, rfl⟩
  | some jc =>
    have hsteady := hsound jc hjson
    rw [frameRight_iff, onWsFrame_some libc h.running hjson, overruns_of_short libc h.short]
    rcases h.left jc hjson with ⟨hblank, hdocument, hidle⟩ | ⟨hblank, hstate, hdone⟩
    · obtain ⟨jc', hread⟩ := Json.feed_idle libc hsteady hidle
      have hno : ¬ Valid libc payload := by
        rw [valid_iff_document]
        exact fun h => h.elim hblank hdocument
      have hcall : readFrame libc payload jc = Json.refuse jc' := hread
      rw [hcall, answer, if_neg hno]
      exact ⟨rfl, rfl⟩
    · obtain ⟨jc', hread, hstate', hstack⟩ := Json.feed_white libc hsteady hstate hblank
      have hcall : readFrame libc payload jc = Json.pop .done jc' := by
        have hfeed : Json.feed libc (payload.map fun b => (b.toNat : Int)) jc = Json.proceed jc' :=
          hread
        rw [readFrame, hfeed, Json.proceed_andThen, jsonParserDone,
          if_pos (hstate'.symm ▸ hstate.symm)]
      obtain ⟨hvalid, hevents⟩ := readFrame_blank libc hblank
      rw [hcall, Json.pop, if_pos (hstack.symm ▸ hdone), answer, if_pos hvalid, hevents]
      exact ⟨rfl, rfl⟩

/-- The parser of a session stays sound. -/
theorem Session.Sound.next {s : Session} (h : s.Sound) (payload : List UInt8) :
    (onWsFrame libc s payload).Sound := by
  have hread : ∀ jc, Steady jc → Steady (readFrame libc payload jc).parser := by
    intro jc hjc
    refine Json.parser_andThen (P := Steady) (hjc.feed libc _) (fun _ h => h) fun jc h => ?_
    exact h.jsonParserDone
  unfold onWsFrame Session.after
  split_ifs
  · exact h
  · cases hjson : s.json with
    | none =>
      rintro jc hjc
      obtain rfl := Option.some.inj hjc
      exact hread _ (Json.steady_newParser true 15)
    | some left =>
      rintro jc hjc
      obtain rfl := Option.some.inj hjc
      exact hread _ (h left hjson)

/-! ## Runs -/

/-- How often the parser of a client can still come to the end of a document. -/
def Session.ends (s : Session) : Nat := (s.json.getD frameParser).ends

/-- A frame is processed. -/
def Reaction.isProcess : Reaction → Bool
  | .process _ => true
  | .badJson => false

/-- A frame that is processed costs the parser its end. -/
theorem onWsFrame_ends (s : Session) (payload : List UInt8) :
    (onWsFrame libc s payload).log.countP Reaction.isProcess + (onWsFrame libc s payload).ends ≤
      s.log.countP Reaction.isProcess + s.ends := by
  have hafter : ∀ (jc : Parser) (tree : Option Context) (lost : Bool), s.ends = jc.ends →
      (s.after (readFrame libc payload jc) tree lost).log.countP Reaction.isProcess +
          (s.after (readFrame libc payload jc) tree lost).ends ≤
        s.log.countP Reaction.isProcess + s.ends := by
    intro jc tree lost hends
    have haccepted := @Json.accepted jc libc (payload.map fun b => (b.toNat : Int))
    have hread : (readFrame libc payload jc).parser.ends +
        (if (readFrame libc payload jc).ok then 1 else 0) ≤ s.ends := by
      rw [hends]
      unfold readFrame
      split_ifs at haccepted ⊢ <;> exact haccepted
    have hsame : (s.after (readFrame libc payload jc) tree lost).ends =
        (readFrame libc payload jc).parser.ends := rfl
    rw [hsame]
    cases lost with
    | true =>
      have hlog : (s.after (readFrame libc payload jc) tree true).log = s.log := rfl
      rw [hlog]
      omega
    | false =>
      have hlog : (s.after (readFrame libc payload jc) tree false).log =
          s.log ++ [if (readFrame libc payload jc).ok then .process tree else .badJson] := rfl
      have hone : [if (readFrame libc payload jc).ok then Reaction.process tree else .badJson].countP
          Reaction.isProcess = if (readFrame libc payload jc).ok then 1 else 0 := by
        cases (readFrame libc payload jc).ok <;> rfl
      rw [hlog, List.countP_append, hone]
      omega
  unfold onWsFrame
  split_ifs
  · exact le_rfl
  · cases hjson : s.json with
    | none => exact hafter frameParser _ _ (by rw [Session.ends, hjson, Option.getD_none])
    | some jc => exact hafter jc _ _ (by rw [Session.ends, hjson, Option.getD_some])

/-- A fact about the parser of a client. -/
def Client.Keeps (P : Parser → Prop) (c : Client) : Prop := ∀ jc, c.json = some jc → P jc

theorem Client.Keeps.json {P : Parser → Prop} {c c' : Client} (h : c.Keeps P)
    (hjson : c'.json = c.json) : c'.Keeps P := fun jc hjc => h jc (hjson ▸ hjc)

/-- The answer to a request leaves the parser alone. -/
theorem apeServerHttpReady_json (sha1 : List UInt8 → List UInt8) (p : HttpParser) (c : Client) :
    (apeServerHttpReady sha1 (p, c)).2.json = c.json := by
  have hend : ∀ c : Client, (endRequest (p, c)).2.json = c.json := by
    intro c
    unfold endRequest
    simp only
    split <;> rfl
  have hanswer : ∀ value (c : Client), (answerUpgrade sha1 value c).json = c.json := by
    intro value c
    unfold answerUpgrade
    generalize apeWsComputeKey sha1 value = key
    cases key with
    | none => rfl
    | some key => rfl
  unfold apeServerHttpReady
  cases c.list with
  | none => rfl
  | some list =>
    simp only
    split_ifs
    · cases list.lookup (ascii "Sec-WebSocket-Key") with
      | none => exact hend _
      | some value =>
        refine (hanswer value _).trans ?_
        rw [readProtocol_eq]
    · exact hend c

/-- **What an event of a request does to the parser**: it is kept, it is a new one, or it is fed. -/
theorem onHttpEvent_json (sha1 : List UInt8 → List UInt8) (e : Http.HttpEvent) (c : Client) :
    (onHttpEvent sha1 libc e (.reset, c)).2.json = c.json ∨
      (onHttpEvent sha1 libc e (.reset, c)).2.json = some (newParser false 15 false) ∨
      (onHttpEvent sha1 libc e (.reset, c)).2.json = (jsonChar libc (byteOf e) c).json := by
  obtain ⟨type, value, step⟩ := e
  cases type with
  | pathChar =>
    left
    simp only [onHttpEvent, appended]
    cases c.path <;> rfl
  | headerKeyc =>
    left
    simp only [onHttpEvent, appended]
    cases c.tkey <;> rfl
  | headerValc =>
    left
    simp only [onHttpEvent, appended]
    cases c.tval <;> rfl
  | qsChar | bodyChar =>
    simp only [onHttpEvent]
    split_ifs
    · exact .inr (.inr rfl)
    · exact .inl rfl
  | pathEnd =>
    simp only [onHttpEvent, onPathEnd]
    cases c.path with
    | none => exact .inl rfl
    | some path =>
      simp only
      split_ifs
      · exact .inr (.inl rfl)
      · exact .inl rfl
  | headerVal =>
    left
    simp only [onHttpEvent, onHeaderVal]
    split <;> rfl
  | ready =>
    left
    refine (apeServerHttpReady_json sha1 _ _).trans ?_
    unfold onReady
    split <;> rfl
  | _ => exact .inl rfl

section Kept

variable {P : Parser → Prop} (hnew : P (newParser false 15 false))
  (hchar : ∀ jc (b : UInt8), P jc → P (jsonParserChar libc b.toNat jc).parser)

include hchar in
theorem Client.Keeps.jsonChar {c : Client} (h : c.Keeps P) (b : UInt8) :
    (Server.jsonChar libc b c).Keeps P := by
  intro jc hjc
  unfold Server.jsonChar at hjc
  cases hjson : c.json with
  | none =>
    rw [hjson] at hjc
    exact h jc hjc
  | some left =>
    rw [hjson] at hjc
    obtain rfl := Option.some.inj hjc
    exact hchar left b (h left hjson)

include hnew hchar in
/-- An event of a request makes a parser or feeds it. -/
theorem Client.Keeps.next (sha1 : List UInt8 → List UInt8) {c : Client} (h : c.Keeps P)
    (e : Http.HttpEvent) : (apeHttpCallback sha1 libc e (.reset, c)).2.Keeps P := by
  by_cases hlost : c.lost = true
  · rw [apeHttpCallback_lost sha1 libc hlost]
    exact h
  rw [apeHttpCallback_running sha1 libc (by simpa using hlost)]
  rcases onHttpEvent_json libc sha1 e c with hkept | hmade | hfed
  · exact h.json hkept
  · intro jc hjc
    obtain rfl := Option.some.inj (hmade.symm.trans hjc)
    exact hnew
  · exact (h.jsonChar libc hchar (byteOf e)).json hfed

include hnew hchar in
/-- **What a new parser has and every character keeps**, the parser of a client has whatever its
connection sends. -/
theorem keeps_feed (sha1 : List UInt8 → List UInt8) (bs : List UInt8) :
    (Http.feed (apeHttpCallback sha1 libc) bs (.reset, .new)).2.2.Keeps P := by
  have hstart : Client.new.Keeps P := fun jc hjc => absurd hjc (Option.some_ne_none jc).symm
  obtain ⟨-, hkept⟩ := Http.feed_follows (P := fun c _ => c.Keeps P)
    (resetting_apeHttpCallback sha1 libc)
    (fun e c _ _ h _ => h.next libc hnew hchar sha1 e) bs (.inr Http.follows_reset) hstart
  exact hkept

end Kept

end Functions

/-- **The frames of a client** are all answered as they should be, and the process is not lost, when
each meets the condition. -/
theorem frames_right (sha1 : List UInt8 → List UInt8) (libc : Libc) (bs : List UInt8)
    (frames : List (List UInt8))
    (h : EachStep (onWsFrame libc) (FrameOk libc)
      (.of (Http.feed (apeHttpCallback sha1 libc) bs (.reset, .new)).2.2) frames) :
    EachStep (onWsFrame libc) (FrameRight libc)
      (.of (Http.feed (apeHttpCallback sha1 libc) bs (.reset, .new)).2.2) frames := by
  have hsound : (Session.of (Http.feed (apeHttpCallback sha1 libc) bs (.reset, .new)).2.2).Sound :=
    keeps_feed libc (Json.steady_newParser false 15) (fun _ b h => h.jsonParserChar libc b.toNat)
      sha1 bs
  exact eachStep_mono (fun s payload hs => hs.next libc payload)
    (fun s payload hs hok => hok.right libc hs) hsound h

/-- The request of a handshake. -/
def upgradeRequest : List UInt8 :=
  ascii "GET / HTTP/1.1\r\nUpgrade: websocket\r\nSec-WebSocket-Key: a\r\n\r\n"

/-- A handshake, a document and a text that is refused at its first byte. -/
theorem frames_right_two : EachStep (onWsFrame ⟨fun _ => 0, 46⟩) (FrameRight ⟨fun _ => 0, 46⟩)
    (.of (Http.feed (apeHttpCallback (fun _ => []) ⟨fun _ => 0, 46⟩) upgradeRequest
      (.reset, .new)).2.2) [ascii "[1]", ascii "x"] :=
  frames_right (fun _ => []) ⟨fun _ => 0, 46⟩ upgradeRequest [ascii "[1]", ascii "x"]
    ⟨⟨by decide, by decide, by decide⟩, ⟨by decide, by decide, by decide⟩, trivial⟩

/-- **Of all frames of a connection at most one is processed**, whatever its requests and its frames
are. -/
theorem processed_once (sha1 : List UInt8 → List UInt8) (libc : Libc) (bs : List UInt8)
    (frames : List (List UInt8)) :
    ((frames.foldl (onWsFrame libc)
      (.of (Http.feed (apeHttpCallback sha1 libc) bs (.reset, .new)).2.2)).log.countP
        Reaction.isProcess) ≤ 1 := by
  have hrun : ∀ (frames : List (List UInt8)) (s : Session),
      (frames.foldl (onWsFrame libc) s).log.countP Reaction.isProcess +
        (frames.foldl (onWsFrame libc) s).ends ≤ s.log.countP Reaction.isProcess + s.ends := by
    intro frames
    induction frames with
    | nil => exact fun s => le_rfl
    | cons payload frames ih => exact fun s => (ih _).trans (onWsFrame_ends libc s payload)
  have hkept := keeps_feed libc (P := fun jc => jc.ends ≤ 1) (le_refl 1)
    (fun _ b h => Json.within_jsonParserChar libc b.toNat h) sha1 bs
  have hends : (Session.of (Http.feed (apeHttpCallback sha1 libc) bs (.reset, .new)).2.2).ends ≤ 1 := by
    unfold Session.ends Session.of
    cases hjson : (Http.feed (apeHttpCallback sha1 libc) bs (.reset, .new)).2.2.json with
    | none => exact le_rfl
    | some jc => exact hkept jc hjson
  have hcount := (Nat.le_add_right _ _).trans (hrun frames
    (.of (Http.feed (apeHttpCallback sha1 libc) bs (.reset, .new)).2.2))
  exact hcount.trans ((Nat.zero_add _).trans_le hends)

/-- **The second document**: it is refused, though it is valid. -/
theorem frames_fail : ¬ ∀ sha1 libc (frames : List (List UInt8)),
    (Http.feed (apeHttpCallback sha1 libc) upgradeRequest (.reset, .new)).2.2.upgraded = true →
      EachStep (onWsFrame libc) (FrameRight libc)
        (.of (Http.feed (apeHttpCallback sha1 libc) upgradeRequest (.reset, .new)).2.2) frames := by
  intro h
  have hrun := h (fun _ => []) ⟨fun _ => 0, 46⟩ [ascii "[]", ascii "[]"] (by decide)
  exact absurd hrun.2.1.reaction (by decide)

end Ape.Server
