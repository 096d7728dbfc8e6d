import ApeServer.Http.Request
import ApeServer.Json.Assertions
import ApeServer.Server.Callback
import ApeServer.Sha1.Digest
import ApeServer.Table.Headers

/-!
# Requests on a connection

A request that the parser takes reaches `ape_server_http_ready` with its parts in the fields of the
client, unless its text for the JSON parser makes an assertion fail.  An upgrade is answered by a
handshake; behind any other request of no transport, or of a static one, the connection is as it was
before.

* `jsonFed` — the JSON parser behind a text, whatever it refuses of it, if no assertion fails;
* `jsonFed_plain` — **none fails in a text without a backslash**;
* `Client.reading` — the client that a request is to leave for the answer;
* `feed_request` — **it is left by every request that the parser takes**, or the process is lost;
* `upgrade_answered` — **the handshake has the digest of the key and the GUID**;
* `feed_pipelined` — **requests in a row are read one by one**.
-/

namespace Ape.Server

open Codec (ascii base64 base64EncodeB_eq)
open Http (CallbackType Header HttpEvent HttpMethod HttpParser Request charsAs feed
  headerReports replay targetPath targetQuery)
open Percent (decode)
open Table (ApeArray)

/-! ## The parts of a request in a client -/

/-- The headers that are kept: all but `Content-Length`. -/
def fields (hs : List Header) : List (List UInt8 × List UInt8) :=
  (hs.filter fun h => !h.isLength).map fun h => (h.key, h.value)

/-- The path as a string. -/
def pathOf (r : Request) : List UInt8 := decode (targetPath r.target) ++ [0]

/-- The text for the JSON parser. -/
def jsonText (r : Request) (body : List UInt8) : List UInt8 :=
  if r.method = .get then decode (targetQuery r.target) else decode body

section Functions

variable (sha1 : List UInt8 → List UInt8) (libc : Json.Libc)

/-- A parser behind some bytes, whatever it refuses; `none` if an assertion fails. -/
def jsonFed (bs : List UInt8) (jc : Json.Parser) : Option Json.Parser :=
  bs.foldlM (fun jc b =>
    let o := Json.jsonParserChar libc b.toNat jc
    if o.lost then none else some o.parser) jc

/-- The text of a request is for no JSON parser, or it makes no assertion of it fail. -/
def Harmless (r : Request) (body : List UInt8) : Prop :=
  (apeGetTransport (pathOf r)).qsIsJson = true →
    (jsonFed libc (jsonText r body) (Json.newParser false 15 false)).isSome = true

instance (r : Request) (body : List UInt8) : Decidable (Harmless libc r body) :=
  inferInstanceAs (Decidable (_ → _))

/-- **The client that a request is to leave** for `ape_server_http_ready`. -/
def Client.reading (r : Request) (body : List UInt8) (c : Client) : Client :=
  { c with
    method := r.method
    transport := apeGetTransport (pathOf r)
    path := some (pathOf r)
    list := some ((ApeArray.new 16).addAll (fields r.headers))
    tkey := none
    tval := none
    json := if (apeGetTransport (pathOf r)).qsIsJson then
      jsonFed libc (jsonText r body) (Json.newParser false 15 false) else c.json }

/-- What an event makes of a client. -/
def Client.see (c : Client) (v : CallbackType × Int32) : Client :=
  (apeHttpCallback sha1 libc ⟨v.1, v.2, 0⟩ (.reset, c)).2

/-- The step of an event does not matter. -/
theorem replay_views (evs : List HttpEvent) (c : Client) :
    replay (apeHttpCallback sha1 libc) c evs =
      (evs.map HttpEvent.view).foldl (Client.see sha1 libc) c := by
  induction evs generalizing c with
  | nil => rfl
  | cons e evs ih => exact ih _

/-- The byte of a character that is reported. -/
theorem byteOf_char (type : CallbackType) (b : UInt8) (step : UInt32) :
    byteOf ⟨type, Int32.ofNat b.toNat, step⟩ = b := by
  have hall : ∀ b : UInt8, (Int32.ofNat b.toNat).toUInt32.toUInt8 = b :=
    CString.forall_byte (by decide) (by decide)
  exact hall b

/-- An event of a process that is running. -/
theorem see_running {c : Client} (h : c.lost = false) (v : CallbackType × Int32) :
    c.see sha1 libc v = (onHttpEvent sha1 libc ⟨v.1, v.2, 0⟩ (.reset, c)).2 := by
  rw [Client.see, apeHttpCallback_running sha1 libc h]

/-- Nothing is seen of a process that is lost. -/
theorem see_lost {c : Client} (h : c.lost = true) (vs : List (CallbackType × Int32)) :
    vs.foldl (Client.see sha1 libc) c = c := by
  induction vs with
  | nil => rfl
  | cons v vs ih =>
    have hsee : c.see sha1 libc v = c := by rw [Client.see, apeHttpCallback_lost sha1 libc h]
    rw [List.foldl_cons, hsee, ih]

/-! ## The text for the JSON parser -/

theorem jsonFed_cons (b : UInt8) (bs : List UInt8) (jc : Json.Parser) :
    jsonFed libc (b :: bs) jc = if (Json.jsonParserChar libc b.toNat jc).lost then none
      else jsonFed libc bs (Json.jsonParserChar libc b.toNat jc).parser := by
  simp only [jsonFed, List.foldlM_cons]
  split_ifs <;> rfl

/-- **No assertion fails in a text without a backslash**, whatever is refused of it. -/
theorem jsonFed_plain {bs : List UInt8} (h : 92 ∉ bs) {jc : Json.Parser} (hjc : Json.Outside jc) :
    (jsonFed libc bs jc).isSome = true := by
  induction bs generalizing jc with
  | nil => rfl
  | cons b bs ih =>
    obtain ⟨hb, hbs⟩ := not_or.1 (mt List.mem_cons.2 h)
    have hc : ((b.toNat : Nat) : Int) ≠ 92 := by
      intro heq
      exact hb (UInt8.toNat_inj.1 (by exact_mod_cast heq.symm))
    obtain ⟨hkept, hleft⟩ := Json.outside_jsonParserChar libc hjc hc
    rw [jsonFed_cons, if_neg (by simp [hkept])]
    exact ih hbs hleft

/-- A request whose text for the parser has no backslash. -/
theorem harmless_plain {r : Request} {body : List UInt8} (h : 92 ∉ jsonText r body) :
    Harmless libc r body :=
  fun _ => jsonFed_plain libc h (Json.outside_newParser false 15)

/-! ## What the events of a part do -/

/-- Characters that are taken one by one into a part of the client. -/
theorem see_chars {α : Type} {type : CallbackType} (put : α → Client) (f : α → UInt8 → α)
    (hone : ∀ a b, Client.see sha1 libc (put a) (type, Int32.ofNat b.toNat) = put (f a b)) (a : α)
    (bs : List UInt8) :
    (charsAs type bs).foldl (Client.see sha1 libc) (put a) = put (bs.foldl f a) := by
  induction bs generalizing a with
  | nil => rfl
  | cons b bs ih => rw [charsAs, List.map_cons, List.foldl_cons, hone, ← charsAs, ih, List.foldl_cons]

theorem foldl_snoc (bytes bs : List UInt8) :
    bs.foldl (fun bytes b => bytes ++ [b]) bytes = bytes ++ bs := by
  induction bs generalizing bytes with
  | nil => exact (List.append_nil _).symm
  | cons b bs ih => rw [List.foldl_cons, ih, List.append_assoc, List.singleton_append]

section Running

variable {c : Client} (hrunning : c.lost = false)

include hrunning

/-- The characters of a path are put behind what there is of it. -/
theorem see_path (path bs : List UInt8) :
    (charsAs .pathChar bs).foldl (Client.see sha1 libc) { c with path := some path } =
      { c with path := some (path ++ bs) } := by
  rw [see_chars sha1 libc (fun path => { c with path := some path }) (fun bytes b => bytes ++ [b])
    (fun path b => ?_) path bs, foldl_snoc]
  rw [see_running sha1 libc (c := { c with path := some path }) hrunning]
  simp only [onHttpEvent, appended, byteOf_char]

/-- The key and the value of a header. -/
theorem see_header (list : ApeArray (List UInt8)) (key value : List UInt8) :
    (charsAs .headerKeyc key ++ (CallbackType.headerKey, 0) :: charsAs .headerValc value ++
      [(CallbackType.headerVal, 0)]).foldl (Client.see sha1 libc)
        { c with list := some list, tkey := some [], tval := some [] } =
      { c with list := some (list.addB key value), tkey := some [], tval := some [] } := by
  have hone : ∀ tkey tval v, Client.see sha1 libc { c with list := some list, tkey, tval } v =
      (onHttpEvent sha1 libc ⟨v.1, v.2, 0⟩ (.reset, { c with list := some list, tkey, tval })).2 :=
    fun tkey tval v =>
      see_running sha1 libc (c := { c with list := some list, tkey, tval }) hrunning v
  have hkey := @see_chars sha1 libc _ .headerKeyc
    (fun bytes => { c with list := some list, tkey := some bytes, tval := some [] })
    (fun bytes b => bytes ++ [b])
    (fun bytes b => by
      rw [hone]
      simp only [onHttpEvent, appended, byteOf_char]) [] key
  have hvalue := @see_chars sha1 libc _ .headerValc
    (fun bytes => { c with list := some list, tkey := some key, tval := some bytes })
    (fun bytes b => bytes ++ [b])
    (fun bytes b => by
      rw [hone]
      simp only [onHttpEvent, appended, byteOf_char]) [] value
  rw [foldl_snoc, List.nil_append] at hkey hvalue
  simp only [List.foldl_append, List.foldl_cons, List.foldl_nil]
  rw [hkey, hone]
  show Client.see sha1 libc ((charsAs .headerValc value).foldl (Client.see sha1 libc)
    { c with list := some list, tkey := some key, tval := some [] }) (.headerVal, 0) = _
  rw [hvalue, hone]
  rfl

/-- The lines of the headers are added to the list, one after the other. -/
theorem see_headers (list : ApeArray (List UInt8)) (cl : UInt32) (hs : List Header) :
    (headerReports cl hs).foldl (Client.see sha1 libc)
        { c with list := some list, tkey := some [], tval := some [] } =
      { c with list := some (list.addAll (fields hs)), tkey := some [], tval := some [] } := by
  induction hs generalizing list cl with
  | nil => rfl
  | cons h hs ih =>
    rw [headerReports, List.foldl_append, Header.reports]
    cases hlength : h.isLength with
    | true =>
      rw [if_pos rfl]
      have hlen : [(CallbackType.headerKey, (0 : Int32)), (.clVal, (h.after cl).toInt32)].foldl
          (Client.see sha1 libc) { c with list := some list, tkey := some [], tval := some [] } =
            { c with list := some list, tkey := some [], tval := some [] } := by
        have hone : ∀ v, v.1 = .headerKey ∨ v.1 = .clVal → Client.see sha1 libc
            { c with list := some list, tkey := some [], tval := some [] } v =
              { c with list := some list, tkey := some [], tval := some [] } := by
          rintro ⟨type, n⟩ (rfl | rfl) <;>
            exact see_running sha1 libc
              (c := { c with list := some list, tkey := some [], tval := some [] }) hrunning _
        rw [List.foldl_cons, hone _ (.inl rfl), List.foldl_cons, hone _ (.inr rfl), List.foldl_nil]
      rw [hlen, ih]
      simp [fields, hlength]
    | false =>
      rw [if_neg Bool.false_ne_true, see_header sha1 libc hrunning, ih]
      simp [fields, hlength, ApeArray.addAll]

/-- Characters that change nothing one by one change nothing in a row. -/
theorem see_ignored {type : CallbackType}
    (hone : ∀ b : UInt8, (onHttpEvent sha1 libc ⟨type, Int32.ofNat b.toNat, 0⟩ (.reset, c)).2 = c)
    (bs : List UInt8) : (charsAs type bs).foldl (Client.see sha1 libc) c = c :=
  see_chars sha1 libc (fun _ : Unit => c) (fun _ _ => ())
    (fun _ b => (see_running sha1 libc hrunning _).trans (hone b)) () bs

/-- **Characters for the JSON parser** are fed to it, or an assertion of it fails. -/
theorem see_json {t : CallbackType}
    (hone : ∀ (b : UInt8) json, (onHttpEvent sha1 libc ⟨t, Int32.ofNat b.toNat, 0⟩
      (.reset, { c with json })).2 = jsonChar libc b { c with json }) (jc : Json.Parser)
    (bs : List UInt8) :
    (∀ jc', jsonFed libc bs jc = some jc' →
      (charsAs t bs).foldl (Client.see sha1 libc) { c with json := some jc } =
        { c with json := some jc' }) ∧
    (jsonFed libc bs jc = none →
      ((charsAs t bs).foldl (Client.see sha1 libc) { c with json := some jc }).crashed = true) := by
  have hfine : c.crashed = false := (Bool.or_eq_false_iff.1 hrunning).1
  induction bs generalizing jc with
  | nil => exact ⟨fun jc' h => by rw [← Option.some.inj h]; rfl, fun h => absurd h (by simp [jsonFed])⟩
  | cons b bs ih =>
    have hsee : Client.see sha1 libc { c with json := some jc } (t, Int32.ofNat b.toNat) =
        { c with
          json := some (Json.jsonParserChar libc b.toNat jc).parser
          crashed := c.crashed || (Json.jsonParserChar libc b.toNat jc).lost } :=
      (see_running sha1 libc (c := { c with json := some jc }) hrunning _).trans (hone b (some jc))
    rw [charsAs, List.map_cons, List.foldl_cons, ← charsAs, hsee, jsonFed_cons, hfine, Bool.false_or]
    by_cases hlost : (Json.jsonParserChar libc b.toNat jc).lost = true
    · -- the process ends here
      rw [if_pos hlost, see_lost sha1 libc (by simp [Client.lost, hlost]), hlost]
      exact ⟨fun jc' h => absurd h (Option.some_ne_none jc').symm, fun _ => rfl⟩
    · rw [if_neg hlost]
      replace hlost : (Json.jsonParserChar libc b.toNat jc).lost = false := by simpa using hlost
      rw [hlost, ← hfine]
      exact ih _

/-- A query string goes to the JSON parser of a `GET`, if there is one. -/
theorem see_query (hjson : c.transport.qsIsJson = true) (jc : Json.Parser) (bs : List UInt8) :
    (∀ jc', (if c.method = .get then jsonFed libc bs jc else some jc) = some jc' →
      (charsAs .qsChar bs).foldl (Client.see sha1 libc) { c with json := some jc } =
        { c with json := some jc' }) ∧
    (c.method = .get → jsonFed libc bs jc = none →
      ((charsAs .qsChar bs).foldl (Client.see sha1 libc) { c with json := some jc }).crashed =
        true) := by
  by_cases hget : c.method = .get
  · have hboth := see_json sha1 libc hrunning (t := .qsChar)
      (fun b json => by simp only [onHttpEvent, hget, hjson, and_self, if_true, byteOf_char]) jc bs
    rw [if_pos hget]
    exact ⟨hboth.1, fun _ => hboth.2⟩
  · rw [if_neg hget]
    refine ⟨fun jc' h => ?_, fun h => absurd h hget⟩
    rw [← Option.some.inj h]
    exact see_ignored sha1 libc (c := { c with json := some jc }) hrunning
      (fun b => by simp only [onHttpEvent, hget, false_and, if_false]) bs

/-- A body goes to the JSON parser, if there is one, whatever the method is. -/
theorem see_body (hjson : c.transport.qsIsJson = true) (jc : Json.Parser) (bs : List UInt8) :
    (∀ jc', jsonFed libc bs jc = some jc' →
      (charsAs .bodyChar bs).foldl (Client.see sha1 libc) { c with json := some jc } =
        { c with json := some jc' }) ∧
    (jsonFed libc bs jc = none →
      ((charsAs .bodyChar bs).foldl (Client.see sha1 libc) { c with json := some jc }).crashed =
        true) :=
  see_json sha1 libc hrunning
    (fun b json => by simp only [onHttpEvent, hjson, if_true, byteOf_char]) jc bs

/-- Where there is none to read it, nothing is made of them. -/
theorem see_unread (hjson : c.transport.qsIsJson = false) {type : CallbackType}
    (htype : type = .qsChar ∨ type = .bodyChar) (bs : List UInt8) :
    (charsAs type bs).foldl (Client.see sha1 libc) c = c := by
  refine see_ignored sha1 libc hrunning (fun b => ?_) bs
  rcases htype with rfl | rfl
  · simp only [onHttpEvent, hjson, Bool.false_eq_true, and_false, if_false]
  · simp only [onHttpEvent, hjson, Bool.false_eq_true, if_false]

end Running

/-! ## A request -/

/-- The client behind the target of a request, with this JSON parser. -/
def Client.targeted (r : Request) (json : Option Json.Parser) (c : Client) : Client :=
  { c with
    method := r.method, transport := apeGetTransport (pathOf r), path := some (pathOf r)
    list := some (.new 16), tkey := some [], tval := some [], json }

/-- The client behind its headers. -/
def Client.headed (r : Request) (json : Option Json.Parser) (c : Client) : Client :=
  { c.targeted r json with list := some ((ApeArray.new 16).addAll (fields r.headers)) }

/-- What is reported of a request up to the question mark of its target. -/
def front (r : Request) : List (CallbackType × Int32) :=
  (.method, r.method.value) :: charsAs .pathChar (decode (targetPath r.target)) ++ [(.pathEnd, 0)]

/-- What is reported between its target and its body. -/
def middle (r : Request) : List (CallbackType × Int32) :=
  (.versionMajor, Http.digit r.major) :: (.versionMinor, Http.digit r.minor) ::
    headerReports 0 r.headers ++ [(.headerEnd, 0)]

theorem reports_eq (r : Request) : r.reports =
    front r ++ charsAs .qsChar (decode (targetQuery r.target)) ++ middle r := by
  simp [Request.reports, Http.reports, front, middle]

section Running

variable {c : Client} (hrunning : c.lost = false) {r : Request}

include hrunning

theorem see_front : (front r).foldl (Client.see sha1 libc) c = c.targeted r
    (if (apeGetTransport (pathOf r)).qsIsJson then some (Json.newParser false 15 false)
      else c.json) := by
  have hmethod : Client.see sha1 libc c (.method, r.method.value) =
      { c with
        method := r.method, path := some [], list := some (.new 16), tkey := some []
        tval := some [] } := by
    rw [see_running sha1 libc hrunning]
    cases r.method <;> rfl
  have hpath := see_path sha1 libc (c := { c with
    method := r.method, list := some (.new 16), tkey := some [], tval := some [] }) hrunning []
    (decode (targetPath r.target))
  simp only [front, List.cons_append, List.foldl_cons, List.foldl_append, List.foldl_nil, hmethod]
  rw [hpath, List.nil_append, see_running sha1 libc (c := { c with
    method := r.method, path := some (decode (targetPath r.target)), list := some (.new 16)
    tkey := some [], tval := some [] }) hrunning]
  rfl

theorem see_middle (json : Option Json.Parser) :
    (middle r).foldl (Client.see sha1 libc) (c.targeted r json) = c.headed r json := by
  have hsame : ∀ (c' : Client) n, c'.lost = c.lost → c'.see sha1 libc (.versionMajor, n) = c' ∧
      c'.see sha1 libc (.versionMinor, n) = c' ∧ c'.see sha1 libc (.headerEnd, n) = c' :=
    fun c' n hc' => ⟨see_running sha1 libc (hc'.trans hrunning) _,
      see_running sha1 libc (hc'.trans hrunning) _, see_running sha1 libc (hc'.trans hrunning) _⟩
  have hheaders := see_headers sha1 libc (c := c.targeted r json) hrunning (.new 16) 0 r.headers
  simp only [middle, List.cons_append, List.foldl_cons, List.foldl_append, List.foldl_nil]
  rw [(hsame (c.targeted r json) _ rfl).1, (hsame (c.targeted r json) _ rfl).2.1]
  refine (congrArg (fun c' => Client.see sha1 libc c' (.headerEnd, 0)) hheaders).trans ?_
  exact (hsame (c.headed r json) 0 rfl).2.2

/-- A request that is for no JSON parser leaves the parser that there was. -/
theorem see_request_unread (hjson : (apeGetTransport (pathOf r)).qsIsJson = false) (body : List UInt8) :
    (r.reports ++ charsAs .bodyChar (decode body)).foldl (Client.see sha1 libc) c =
      c.headed r c.json := by
  rw [reports_eq, List.foldl_append, List.foldl_append, List.foldl_append, see_front sha1 libc hrunning,
    hjson, if_neg Bool.false_ne_true,
    see_unread sha1 libc (c := c.targeted r c.json) hrunning hjson (.inl rfl),
    see_middle sha1 libc hrunning,
    see_unread sha1 libc (c := c.headed r c.json) hrunning hjson (.inr rfl)]

/-- A `GET` for a JSON parser feeds it the query string, or ends the process in it. -/
theorem see_request_get (hjson : (apeGetTransport (pathOf r)).qsIsJson = true) (hget : r.method = .get) :
    (∀ jc, jsonFed libc (decode (targetQuery r.target)) (Json.newParser false 15 false) = some jc →
      (r.reports ++ charsAs .bodyChar (decode [])).foldl (Client.see sha1 libc) c =
        c.headed r (some jc)) ∧
    (jsonFed libc (decode (targetQuery r.target)) (Json.newParser false 15 false) = none →
      ((r.reports ++ charsAs .bodyChar (decode [])).foldl (Client.see sha1 libc) c).crashed =
        true) := by
  have hquery := see_query sha1 libc (c := c.targeted r none) hrunning hjson
    (Json.newParser false 15 false) (decode (targetQuery r.target))
  rw [reports_eq, List.foldl_append, List.foldl_append, List.foldl_append, see_front sha1 libc hrunning,
    hjson, if_pos rfl]
  constructor
  · intro jc hfed
    have hleft := hquery.1 jc ((if_pos hget).trans hfed)
    refine Eq.trans ?_ (see_middle sha1 libc hrunning (some jc))
    exact congrArg ((middle r).foldl (Client.see sha1 libc)) hleft
  · intro hfed
    have hcrashed := hquery.2 hget hfed
    have hlost : ((charsAs .qsChar (decode (targetQuery r.target))).foldl (Client.see sha1 libc)
        (c.targeted r (some (Json.newParser false 15 false)))).lost = true :=
      Bool.or_eq_true_iff.2 (.inl hcrashed)
    rw [see_lost sha1 libc hlost, see_lost sha1 libc hlost]
    exact hcrashed

/-- A `POST` for a JSON parser feeds it the body, or ends the process in it. -/
theorem see_request_post (hjson : (apeGetTransport (pathOf r)).qsIsJson = true) (hpost : r.method = .post)
    (body : List UInt8) :
    (∀ jc, jsonFed libc (decode body) (Json.newParser false 15 false) = some jc →
      (r.reports ++ charsAs .bodyChar (decode body)).foldl (Client.see sha1 libc) c =
        c.headed r (some jc)) ∧
    (jsonFed libc (decode body) (Json.newParser false 15 false) = none →
      ((r.reports ++ charsAs .bodyChar (decode body)).foldl (Client.see sha1 libc) c).crashed =
        true) := by
  have hquery := (see_query sha1 libc (c := c.targeted r none) hrunning hjson
    (Json.newParser false 15 false) (decode (targetQuery r.target))).1
    (Json.newParser false 15 false) (if_neg (by simp [Client.targeted, hpost]))
  have hmiddle : (middle r).foldl (Client.see sha1 libc)
      ((charsAs .qsChar (decode (targetQuery r.target))).foldl (Client.see sha1 libc)
        (c.targeted r (some (Json.newParser false 15 false)))) =
      c.headed r (some (Json.newParser false 15 false)) :=
    (congrArg ((middle r).foldl (Client.see sha1 libc)) hquery).trans
      (see_middle sha1 libc hrunning _)
  rw [reports_eq, List.foldl_append, List.foldl_append, List.foldl_append, see_front sha1 libc hrunning,
    hjson, if_pos rfl, hmiddle]
  exact see_body sha1 libc (c := c.headed r none) hrunning hjson (Json.newParser false 15 false)
    (decode body)

/-- **The events of a request** leave the client that it is to leave, or end the process in its text
for the JSON parser. -/
theorem see_request {body : List UInt8} (hbody : r.method = .get → body = []) :
    (Harmless libc r body → ∃ json,
      (r.reports ++ charsAs .bodyChar (decode body)).foldl (Client.see sha1 libc) c =
          c.headed r json ∧ onReady (c.headed r json) = c.reading libc r body) ∧
    (¬ Harmless libc r body →
      ((r.reports ++ charsAs .bodyChar (decode body)).foldl (Client.see sha1 libc) c).crashed =
        true) := by
  cases hjson : (apeGetTransport (pathOf r)).qsIsJson with
  | false =>
    refine ⟨fun _ => ⟨c.json, see_request_unread sha1 libc hrunning hjson body, ?_⟩,
      fun hno => absurd (fun h => absurd (hjson.symm.trans h) Bool.false_ne_true) hno⟩
    simp only [onReady, Client.headed, Client.targeted, Client.reading, hjson, Bool.false_eq_true,
      if_false]
  | true =>
    have hready : ∀ jc, jsonFed libc (jsonText r body) (Json.newParser false 15 false) = some jc →
        onReady (c.headed r (some jc)) = c.reading libc r body := by
      intro jc hfed
      simp only [onReady, Client.headed, Client.targeted, Client.reading, hjson, if_true, hfed]
    have hread : (∀ jc, jsonFed libc (jsonText r body) (Json.newParser false 15 false) = some jc →
          (r.reports ++ charsAs .bodyChar (decode body)).foldl (Client.see sha1 libc) c =
            c.headed r (some jc)) ∧
        (jsonFed libc (jsonText r body) (Json.newParser false 15 false) = none →
          ((r.reports ++ charsAs .bodyChar (decode body)).foldl (Client.see sha1 libc) c).crashed =
            true) := by
      cases hmethod : r.method with
      | get =>
        have htext : jsonText r body = decode (targetQuery r.target) := if_pos hmethod
        rw [htext, hbody hmethod]
        exact see_request_get sha1 libc hrunning hjson hmethod
      | post =>
        have htext : jsonText r body = decode body := if_neg (by simp [hmethod])
        rw [htext]
        exact see_request_post sha1 libc hrunning hjson hmethod body
    constructor
    · intro hharmless
      obtain ⟨jc, hfed⟩ := Option.isSome_iff_exists.1 (hharmless hjson)
      exact ⟨some jc, hread.1 jc hfed, hready jc hfed⟩
    · intro hharm
      refine hread.2 ?_
      by_contra hfed
      exact hharm fun _ => Option.isSome_iff_ne_none.2 hfed

end Running

/-- A request with its body, which the parser takes. -/
structure Taken (r : Request) (body : List UInt8) : Prop where
  plain : r.Plain
  body : r.Takes body
  head : (feed Http.record r.head (.reset, [])).1 = true

/-- A request on a connection, up to the answer. -/
theorem feed_taken {r : Request} {body : List UInt8} (h : Taken r body) (c : Client) :
    ∃ q e, e.type = .ready ∧ feed (apeHttpCallback sha1 libc) (r.head ++ body) (.reset, c) =
      (true, apeHttpCallback sha1 libc e (q,
        (r.reports ++ charsAs .bodyChar (decode body)).foldl (Client.see sha1 libc) c)) := by
  obtain ⟨q, evs, e, hfeed, hviews, he⟩ := Http.request_reported h.plain h.body h.head
  have hcall := Http.feed_resetting (resetting_apeHttpCallback sha1 libc) Http.follows_reset he
    (Http.views_unready hviews) hfeed c
  refine ⟨q, e, he, hcall.trans ?_⟩
  rw [replay_views, hviews]

theorem Taken.get {r : Request} {body : List UInt8} (h : Taken r body) :
    r.method = .get → body = [] := by
  intro hget
  refine h.body.none ?_
  rw [Request.hasBody, hget]
  rfl

/-- **A request on a connection** gets to the answer with the client that it is to leave. -/
theorem feed_request {r : Request} {body : List UInt8} (h : Taken r body)
    (hharmless : Harmless libc r body) {c : Client} (hrunning : c.lost = false) :
    ∃ q, feed (apeHttpCallback sha1 libc) (r.head ++ body) (.reset, c) =
      (true, apeServerHttpReady sha1 (q, c.reading libc r body)) := by
  obtain ⟨q, e, he, hfeed⟩ := feed_taken sha1 libc h c
  obtain ⟨json, hsee, hready⟩ := (see_request sha1 libc hrunning h.get).1 hharmless
  refine ⟨q, hfeed.trans ?_⟩
  rw [hsee, apeHttpCallback_running sha1 libc (x := (q, c.headed r json)) hrunning, ← hready]
  simp only [onHttpEvent, he]

/-- A request whose text makes an assertion fail. -/
theorem feed_harmful {r : Request} {body : List UInt8} (h : Taken r body)
    (hharm : ¬ Harmless libc r body) {c : Client} (hrunning : c.lost = false) :
    (feed (apeHttpCallback sha1 libc) (r.head ++ body) (.reset, c)).2.2.crashed = true := by
  obtain ⟨q, e, he, hfeed⟩ := feed_taken sha1 libc h c
  have hcrashed := (see_request sha1 libc hrunning h.get).2 hharm
  have hlost := apeHttpCallback_lost sha1 libc (x := (q,
    (r.reports ++ charsAs .bodyChar (decode body)).foldl (Client.see sha1 libc) c))
    (Bool.or_eq_true_iff.2 (.inl hcrashed)) e
  rw [hfeed, hlost]
  exact hcrashed

/-- **What is read of a request** in a process that is running: its method, its decoded path as a string,
the headers as they are looked up, and the text for the JSON parser; nothing is sent in front of the
answer.  Or the text makes an assertion of the parser fail, and there is no answer. -/
theorem request_read {r : Request} {body : List UInt8} (h : Taken r body) {c : Client}
    (hrunning : c.lost = false) :
    (Harmless libc r body ∧
      ∃ q c', feed (apeHttpCallback sha1 libc) (r.head ++ body) (.reset, c) =
          (true, apeServerHttpReady sha1 (q, c')) ∧
        c'.method = r.method ∧ c'.path = some (decode (targetPath r.target) ++ [0]) ∧
        (∃ list, c'.list = some list ∧ ((∀ h ∈ fields r.headers, h.1.length < 2 ^ 31) →
          ∀ name, 0 ∉ name → list.lookup name =
            ((Assoc.first (Table.SameName name) (fields r.headers)).bind fun f =>
              Assoc.last (fun k => k = f.1) (fields r.headers)).map Prod.snd)) ∧
        (c'.transport.qsIsJson = true →
          c'.json = jsonFed libc (jsonText r body) (Json.newParser false 15 false)) ∧
        c'.sent = c.sent ∧ c'.misused = c.misused ∧ c'.lost = false) ∨
    (¬ Harmless libc r body ∧ 92 ∈ jsonText r body ∧
      (feed (apeHttpCallback sha1 libc) (r.head ++ body) (.reset, c)).2.2.crashed = true) := by
  by_cases hharmless : Harmless libc r body
  · obtain ⟨q, hfeed⟩ := feed_request sha1 libc h hharmless hrunning
    exact .inl ⟨hharmless, q, c.reading libc r body, hfeed, rfl, rfl,
      ⟨_, rfl, fun hshort _ hname => Table.lookup_addAll 15 hshort hname⟩,
      fun hjson => if_pos hjson, rfl, rfl, hrunning⟩
  · refine .inr ⟨hharmless, ?_, feed_harmful sha1 libc h hharmless hrunning⟩
    by_contra hplain
    exact hharmless (harmless_plain libc hplain)

/-- `POST /1/`, with the body `[%31]`. -/
def samplePost : Request :=
  ⟨.post, [47, 49, 47], 49, 49, true, [⟨[72, 111, 115, 116], [32, 97], true⟩,
    ⟨[99, 111, 110, 116, 101, 110, 116, 45, 108, 101, 110, 103, 116, 104], [32, 53], false⟩], true⟩

/-- The parser takes that request with its body. -/
theorem taken_samplePost : Taken samplePost ([91, 37, 51, 49, 93]) :=
  { plain := ⟨by simp [samplePost], by simp [samplePost], by simp [samplePost]⟩
    body := ⟨fun _ => by decide, by decide +kernel,
      .plain (by decide) (.escape (x := 49) (by decide) (.plain (by decide) .nil)), by decide⟩
    head := by decide }

/-- The `POST` is read to its end on a new connection. -/
theorem request_read_samplePost :
    (Harmless ⟨fun _ => 0, 46⟩ samplePost [91, 37, 51, 49, 93] ∧
      ∃ q c', feed (apeHttpCallback id ⟨fun _ => 0, 46⟩) (samplePost.head ++ [91, 37, 51, 49, 93])
          (.reset, .new) = (true, apeServerHttpReady id (q, c')) ∧
        c'.method = samplePost.method ∧
        c'.path = some (decode (targetPath samplePost.target) ++ [0]) ∧
        (∃ list, c'.list = some list ∧ ((∀ h ∈ fields samplePost.headers, h.1.length < 2 ^ 31) →
          ∀ name, 0 ∉ name → list.lookup name =
            ((Assoc.first (Table.SameName name) (fields samplePost.headers)).bind fun f =>
              Assoc.last (fun k => k = f.1) (fields samplePost.headers)).map Prod.snd)) ∧
        (c'.transport.qsIsJson = true → c'.json = jsonFed ⟨fun _ => 0, 46⟩
          (jsonText samplePost [91, 37, 51, 49, 93]) (Json.newParser false 15 false)) ∧
        c'.sent = Client.new.sent ∧ c'.misused = Client.new.misused ∧ c'.lost = false) ∨
    (¬ Harmless ⟨fun _ => 0, 46⟩ samplePost [91, 37, 51, 49, 93] ∧
      92 ∈ jsonText samplePost [91, 37, 51, 49, 93] ∧
      (feed (apeHttpCallback id ⟨fun _ => 0, 46⟩) (samplePost.head ++ [91, 37, 51, 49, 93])
        (.reset, .new)).2.2.crashed = true) :=
  request_read id ⟨fun _ => 0, 46⟩ taken_samplePost rfl

/-- `["\xu0041`: the refused `x` leaves `u0041` without its backslash, and the process is lost. -/
example : jsonFed ⟨fun _ => 0, 46⟩ [91, 34, 92, 120, 117, 48, 48, 52, 49]
    (Json.newParser false 15 false) = none := by decide

/-! ## Requests in a row -/

/-- A connection without a request, in a process that is running. -/
structure AtRest (c : Client) : Prop where
  running : c.lost = false
  method : c.method = .get
  transport : c.transport = .nu
  path : c.path = none
  list : c.list = none
  tkey : c.tkey = none
  tval : c.tval = none

/-- A request that is neither for a transport with commands nor for an upgrade. -/
structure Passing (r : Request) : Prop where
  transport : apeGetTransport (pathOf r) = .nu ∨ apeGetTransport (pathOf r) = .ft
  headers : ((ApeArray.new 16).addAll (fields r.headers)).lookup (ascii "upgrade") ≠
    some (ascii " websocket")

/-- Nothing of it is for the JSON parser. -/
theorem Passing.harmless {r : Request} (h : Passing r) (body : List UInt8) :
    Harmless libc r body := by
  intro hjson
  rcases h.transport with ht | ht <;> rw [ht] at hjson <;> exact absurd hjson Bool.false_ne_true

/-- Behind such a request the connection is as it was. -/
theorem apeServerHttpReady_passing {r : Request} (h : Passing r) {c : Client} (hrest : AtRest c)
    (body : List UInt8) (q : HttpParser) :
    apeServerHttpReady sha1 (q, c.reading libc r body) = (.reset, c) := by
  obtain ⟨-, hmethod, htransport, hpath, hlist, hkey, hval⟩ := hrest
  obtain ⟨method, transport, path, list, tkey, tval, json, upgraded, sent, misused, crashed, strayed⟩ := c
  subst hmethod htransport hpath hlist hkey hval
  simp only [apeServerHttpReady, Client.reading, if_neg h.headers, endRequest]
  rcases h.transport with ht | ht <;> simp [ht, Transport.qsIsJson]

/-- **Requests in a row are read one by one**: behind any number of them the connection takes what
comes next as it would have taken it at first. -/
theorem feed_pipelined {rs : List (Request × List UInt8)} (htaken : ∀ x ∈ rs, Taken x.1 x.2)
    (hpassing : ∀ x ∈ rs, Passing x.1) {c : Client} (hrest : AtRest c) (rest : List UInt8) :
    feed (apeHttpCallback sha1 libc) (rs.flatMap (fun x => x.1.head ++ x.2) ++ rest) (.reset, c) =
      feed (apeHttpCallback sha1 libc) rest (.reset, c) := by
  induction rs with
  | nil => rfl
  | cons x rs ih =>
    have hpass := hpassing x List.mem_cons_self
    obtain ⟨q, hfeed⟩ := feed_request sha1 libc (htaken x List.mem_cons_self)
      (hpass.harmless libc x.2) hrest.running
    rw [apeServerHttpReady_passing sha1 libc hpass hrest] at hfeed
    rw [List.flatMap_cons, List.append_assoc, Http.feed_append, hfeed, if_pos rfl]
    exact ih (fun y hy => htaken y (List.mem_cons_of_mem x hy))
      (fun y hy => hpassing y (List.mem_cons_of_mem x hy))

/-- `GET /a?b HTTP/1.0`. -/
def sampleGet : Request := ⟨.get, [47, 97, 63, 98], 49, 48, false, [], false⟩

theorem taken_sampleGet : Taken sampleGet [] :=
  { plain := ⟨by simp [sampleGet], by simp [sampleGet], by simp [sampleGet]⟩
    body := ⟨by decide, by simp, .nil, fun _ => rfl⟩
    head := by decide }

theorem passing_sampleGet : Passing sampleGet := ⟨.inl (by decide), by decide⟩

/-- Two of them in front of some bytes. -/
theorem feed_pipelined_sampleGet :
    feed (apeHttpCallback id ⟨fun _ => 0, 46⟩)
        ([(sampleGet, []), (sampleGet, [])].flatMap (fun x => x.1.head ++ x.2) ++ [71, 69])
        (.reset, .new) =
      feed (apeHttpCallback id ⟨fun _ => 0, 46⟩) [71, 69] (.reset, .new) :=
  feed_pipelined id ⟨fun _ => 0, 46⟩
    (by simpa using taken_sampleGet) (by simpa using passing_sampleGet)
    ⟨rfl, rfl, rfl, rfl, rfl, rfl, rfl⟩ [71, 69]

end Functions

/-! ## An upgrade -/

/-- An upgrade with a key of at most 32 bytes.  Its protocols, if it names any, have a value. -/
structure Upgrading (r : Request) (k : List UInt8) : Prop where
  upgrade : ((ApeArray.new 16).addAll (fields r.headers)).lookup (ascii "upgrade") =
    some (ascii " websocket")
  key : ((ApeArray.new 16).addAll (fields r.headers)).lookup (ascii "Sec-WebSocket-Key") =
    some (32 :: k)
  short : k.length ≤ 32
  protocol : ((ApeArray.new 16).addAll (fields r.headers)).lookup (ascii "Sec-WebSocket-Protocol") ≠
    some []

/-- What is sent to a key. -/
def handshake (k : List UInt8) : List UInt8 :=
  acceptHead ++ base64 (Fips180.sha1 (k ++ wsGuid)) ++ acceptTail

/-- `ape_server_http_ready` answers a request for an upgrade with the handshake of its key. -/
theorem apeServerHttpReady_upgrading (stack : Sha1.Buffer) (libc : Json.Libc) {r : Request}
    {k : List UInt8} (h : Upgrading r k) (c : Client) (body : List UInt8) (q : HttpParser) :
    apeServerHttpReady (Sha1.sha1Csum stack) (q, c.reading libc r body) =
      (q, { c.reading libc r body with
        transport := .ws, upgraded := true, sent := c.sent ++ handshake k }) := by
  have hshort := h.short
  have hguid : wsGuid.length = 36 := by decide
  have hlength : keyLen (32 :: k) = k.length := by
    rw [keyLen, if_neg (List.cons_ne_nil _ _), List.length_cons, Nat.add_sub_cancel]
    exact Nat.mod_eq_of_lt (by omega)
  have hdigest : apeWsComputeKey (Sha1.sha1Csum stack) (32 :: k) =
      some (base64 (Fips180.sha1 (k ++ wsGuid))) := by
    rw [apeWsComputeKey, hlength, if_neg (by omega), base64EncodeB_eq, keyOf, hlength, List.drop_one,
      List.tail_cons, List.take_length, Sha1.sha1Csum_eq stack (by
        rw [List.length_append, hguid]
        omega)]
  simp only [apeServerHttpReady, Client.reading, if_pos h.upgrade, h.key, readProtocol,
    if_neg h.protocol, answerUpgrade, hdigest, Client.send, handshake, List.append_assoc]

/-- **The handshake**: an upgrade with a key of at most 32 bytes is answered with the digest of the key
and the GUID that the standard gives, whatever else the request has that leaves the process running. -/
theorem upgrade_answered (stack : Sha1.Buffer) (libc : Json.Libc) {r : Request}
    {body k : List UInt8} (h : Taken r body) (hharmless : Harmless libc r body)
    (hupgrade : ((ApeArray.new 16).addAll (fields r.headers)).lookup (ascii "upgrade") =
      some (ascii " websocket"))
    (hkey : ((ApeArray.new 16).addAll (fields r.headers)).lookup (ascii "Sec-WebSocket-Key") =
      some (32 :: k))
    (hlen : k.length ≤ 32)
    (hprotocol : ((ApeArray.new 16).addAll (fields r.headers)).lookup
      (ascii "Sec-WebSocket-Protocol") ≠ some []) {c : Client} (hrunning : c.lost = false) :
    (feed (apeHttpCallback (Sha1.sha1Csum stack) libc) (r.head ++ body) (.reset, c)).2.2 =
      { c.reading libc r body with
        transport := .ws, upgraded := true
        sent := c.sent ++ acceptHead ++ base64 (Fips180.sha1 (k ++ wsGuid)) ++ acceptTail } := by
  obtain ⟨q, hfeed⟩ := feed_request (Sha1.sha1Csum stack) libc h hharmless hrunning
  rw [hfeed, apeServerHttpReady_upgrading stack libc ⟨hupgrade, hkey, hlen, hprotocol⟩]
  simp only [handshake, List.append_assoc]

/-- `GET /2/`, an upgrade. -/
def sampleUpgrade : Request :=
  ⟨.get, [47, 50, 47], 49, 49, true,
    [⟨[85, 112, 103, 114, 97, 100, 101], [32, 119, 101, 98, 115, 111, 99, 107, 101, 116], true⟩,
      ⟨[83, 101, 99, 45, 87, 101, 98, 83, 111, 99, 107, 101, 116, 45, 75, 101, 121],
        [32, 107, 101, 121], true⟩], true⟩

theorem taken_sampleUpgrade : Taken sampleUpgrade [] :=
  { plain := ⟨by simp [sampleUpgrade], by simp [sampleUpgrade], by simp [sampleUpgrade]⟩
    body := ⟨by decide, by simp, .nil, fun _ => rfl⟩
    head := by decide }

theorem upgrading_sampleUpgrade : Upgrading sampleUpgrade [107, 101, 121] :=
  ⟨by decide +kernel, by decide +kernel, by decide, by decide +kernel⟩

/-- The sample upgrade is answered with the digest of its key. -/
theorem upgrade_answered_sample :
    (feed (apeHttpCallback (Sha1.sha1Csum ⟨List.replicate 64 0, rfl⟩) ⟨fun _ => 0, 46⟩)
        (sampleUpgrade.head ++ []) (.reset, .new)).2.2 =
      { Client.new.reading ⟨fun _ => 0, 46⟩ sampleUpgrade [] with
        transport := .ws, upgraded := true
        sent := Client.new.sent ++ acceptHead ++
          base64 (Fips180.sha1 ([107, 101, 121] ++ wsGuid)) ++ acceptTail } :=
  upgrade_answered ⟨List.replicate 64 0, rfl⟩ ⟨fun _ => 0, 46⟩ taken_sampleUpgrade
    (harmless_plain _ (by decide)) upgrading_sampleUpgrade.upgrade upgrading_sampleUpgrade.key
    upgrading_sampleUpgrade.short upgrading_sampleUpgrade.protocol rfl

end Ape.Server
