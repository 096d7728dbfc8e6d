import ApeServer.Http.Length
import ApeServer.Lib.Percent

/-!
# The request target

Between the method and the next space the parser reports the characters of the path, the end of the
path, and the characters of the query string, with their escapes decoded.  The first digit of an
escape waits in `rx`, between the flags.

* `escape_digits` — what the two states of an escape make of its digits;
* `reports` — what is to be reported of a target;
* `feed_target` — the run over a target, from anywhere inside it;
* `target_decoded` — **the events of a target are the decoded path, its end and the decoded query
  string, and only the flag of the query string is changed**.
-/

namespace Ape.Http

open CString (forall_byte)
open Percent (decode decode_cons_of_ne decode_escape escaped hexValue hexValue_of_escaped)

/-! ## Escapes -/

/-- The digits of an escape are the bytes the two states take. -/
theorem digit_rows (c : UInt8) :
    classOf c ≠ .nul ∧ (hexValue c).isSome = true ∧
        stateTransitionTable .e1 (classOf c) = .act .ea ∧
        stateTransitionTable .e2 (classOf c) = .act .eb ∨
      hexValue c = none ∧ stateTransitionTable .e1 (classOf c) = .xx ∧
        stateTransitionTable .e2 (classOf c) = .xx := by
  revert c
  refine forall_byte ?_ ?_ <;> decide

/-- What both states compute of a digit. -/
theorem hexDigit_eq (base : UInt8) {c x : UInt8} (hc : hexValue c = some x) :
    hexDigit base c = base + x := by
  have hshift : ∀ base a b : UInt8, base + 10 + a - b = base + (a + 10 - b) := by
    grind
  have hvalue : ∀ c : UInt8, (hexValue c).all (fun x => (c ||| 0x20) + 10 -
      (if '0'.toUInt8 ≤ c ||| 0x20 ∧ c ||| 0x20 ≤ '9'.toUInt8 then '0'.toUInt8 + 10
        else 'a'.toUInt8) = x) = true := by
    refine forall_byte ?_ ?_ <;> decide
  have hx := hvalue c
  rw [hc] at hx
  rw [hexDigit, hshift]
  exact congrArg (base + ·) (of_decide_eq_true hx)

/-- The digit that waits is found in the low byte. -/
theorem waiting_digit (x c : UInt8) :
    ((0 : UInt16) ||| (x.toUInt16 ||| c.toUInt16 <<< 8)).toUInt8 <<< (4 : UInt8) = x * 16 := by
  have hraw : ∀ c : UInt8, (c.toUInt16 <<< 8).toUInt8 = 0 := by
    refine forall_byte ?_ ?_ <;> decide
  have hshift : ∀ x : UInt8, x <<< (4 : UInt8) = x * 16 := by
    refine forall_byte ?_ ?_ <;> decide
  rw [UInt16.zero_or, UInt16.toUInt8_or, hraw, UInt8.toUInt8_toUInt16, UInt8.or_zero, hshift]

/-- **The two digits of an escape** give the byte it stands for. -/
theorem escape_digits {a b x : UInt8} (hx : escaped a b = some x) :
    hexDigit (((0 : UInt16) ||| ((hexDigit 0 a).toUInt16 ||| a.toUInt16 <<< 8)).toUInt8 <<< 4) b = x := by
  obtain ⟨y, z, hy, hz, rfl⟩ := hexValue_of_escaped hx
  rw [hexDigit_eq 0 hy, waiting_digit, hexDigit_eq _ hz, UInt8.zero_add]

/-! ## The target -/

/-- The path of a target, up to the first question mark. -/
def targetPath (t : List UInt8) : List UInt8 := t.takeWhile fun c => c ≠ 63

/-- Its query string, behind that. -/
def targetQuery (t : List UInt8) : List UInt8 := (t.dropWhile fun c => c ≠ 63).drop 1

/-- Characters that are reported. -/
def charsAs (type : CallbackType) (cs : List UInt8) : List (CallbackType × Int32) :=
  cs.map fun c => (type, Int32.ofNat c.toNat)

/-- What is to be reported of what is left of a target; `qs` is whether its question mark has come. -/
def reports (qs : Bool) (t : List UInt8) : List (CallbackType × Int32) :=
  if qs then charsAs .qsChar (decode t)
  else charsAs .pathChar (decode (targetPath t)) ++ (.pathEnd, 0) ::
    charsAs .qsChar (decode (targetQuery t))

theorem reports_plain {c : UInt8} (hpct : c ≠ 37) (hmark : c ≠ 63) (qs : Bool) (t : List UInt8) :
    reports qs (c :: t) =
      (if qs then .qsChar else .pathChar, Int32.ofNat c.toNat) :: reports qs t := by
  have hpath : targetPath (c :: t) = c :: targetPath t :=
    List.takeWhile_cons_of_pos (by simpa using hmark)
  have hquery : targetQuery (c :: t) = targetQuery t := by
    rw [targetQuery, List.dropWhile_cons_of_pos (by simpa using hmark), targetQuery]
  cases qs with
  | true =>
    simp only [reports, if_true, decode_cons_of_ne hpct]
    rfl
  | false =>
    simp only [reports, Bool.false_eq_true, if_false, hpath, hquery, decode_cons_of_ne hpct]
    rfl

theorem reports_mark (t : List UInt8) :
    reports false (63 :: t) = (.pathEnd, 0) :: reports true t ∧
      reports true (63 :: t) = (.qsChar, Int32.ofNat (63 : UInt8).toNat) :: reports true t := by
  constructor
  · rfl
  · simp only [reports, if_true, decode_cons_of_ne (by decide : (63 : UInt8) ≠ 37)]
    rfl

/-- No digit is a question mark. -/
theorem escaped_ne_mark {a b x : UInt8} (hx : escaped a b = some x) : a ≠ 63 ∧ b ≠ 63 := by
  obtain ⟨y, z, hy, hz, -⟩ := hexValue_of_escaped hx
  constructor
  · rintro rfl
    cases hy
  · rintro rfl
    cases hz

theorem reports_escape {a b x : UInt8} (hx : escaped a b = some x) (qs : Bool) (t : List UInt8) :
    reports qs (37 :: a :: b :: t) =
      (if qs then .qsChar else .pathChar, Int32.ofNat x.toNat) :: reports qs t := by
  obtain ⟨ha, hb⟩ := escaped_ne_mark hx
  have hpath : targetPath (37 :: a :: b :: t) = 37 :: a :: b :: targetPath t := by
    simp [targetPath, ha, hb]
  have hquery : targetQuery (37 :: a :: b :: t) = targetQuery t := by
    simp [targetQuery, ha, hb]
  cases qs with
  | true =>
    simp only [reports, if_true, decode_escape hx]
    rfl
  | false =>
    simp only [reports, Bool.false_eq_true, if_false, hpath, hquery, decode_escape hx]
    rfl

/-! ## The run -/

/-- The parser inside a target. -/
def inTarget (post qs : Bool) (step cl : UInt32) : HttpParser :=
  ⟨⟨post, qs, false, false, 0⟩, step, cl, .pt⟩

/-- A byte of a target is a blank, a `%`, a `?`, one that is refused, or a character of the path. -/
theorem target_row (c : UInt8) :
    c = 32 ∨ c = 37 ∨ c = 63 ∨ stateTransitionTable .pt (classOf c) = .xx ∨
      classOf c ≠ .nul ∧ stateTransitionTable .pt (classOf c) = .act .pc := by
  revert c
  refine forall_byte ?_ ?_ <;> decide

/-- A byte the table has no entry for. -/
theorem parse_refused_xx {c : UInt8} {p : HttpParser} {log : List HttpEvent}
    (h : stateTransitionTable p.state (classOf c) = .xx) :
    (parseHttpChar record c (p, log)).1 = false := by
  by_cases hbad : classOf c = .nul ∨ p.rx.ready = true
  · rw [parseHttpChar_refused record log hbad]
  · rw [parseHttpChar_enter record log hbad, h]
    rfl

section Run

variable (post qs : Bool) (step cl : UInt32) (log : List HttpEvent)

theorem parse_plain {c : UInt8} (hc : classOf c ≠ .nul)
    (hrow : stateTransitionTable .pt (classOf c) = .act .pc) :
    parseHttpChar record c (inTarget post qs step cl, log) = (true, inTarget post qs (step + 1) cl,
      log ++ [⟨if qs then .qsChar else .pathChar, Int32.ofNat c.toNat, step + 1⟩]) := by
  have hgood : ¬ (classOf c = .nul ∨ (inTarget post qs step cl).rx.ready = true) := by
    simp [hc, inTarget]
  rw [parseHttpChar_enter record log hgood]
  simp only [inTarget, hrow]
  rfl

theorem parse_mark : parseHttpChar record 63 (inTarget post qs step cl, log) =
    (true, inTarget post true (step + 1) cl,
      log ++ [if qs then ⟨.qsChar, Int32.ofNat (63 : UInt8).toNat, step + 1⟩
        else ⟨.pathEnd, 0, step + 1⟩]) := by
  cases qs <;> rfl

theorem parse_space : parseHttpChar record 32 (inTarget post qs step cl, log) =
    (true, { inTarget post qs (step + 1) cl with state := .h1 },
      log ++ if qs then [] else [⟨.pathEnd, 0, step + 1⟩]) := by
  cases qs with
  | false => rfl
  | true =>
    rw [if_pos rfl, List.append_nil]
    rfl

theorem parse_pct : parseHttpChar record 37 (inTarget post qs step cl, log) =
    (true, { inTarget post qs (step + 1) cl with state := .e1 }, log) := rfl

theorem parse_first {a x : UInt8} (hx : hexValue a = some x) :
    parseHttpChar record a ({ inTarget post qs step cl with state := .e1 }, log) =
      (true, (inTarget post qs (step + 1) cl).hexed (hexDigit 0 a) a, log) := by
  rcases digit_rows a with ⟨hnul, -, hrow, -⟩ | ⟨hnone, -, -⟩
  · have hgood : ¬ (classOf a = .nul ∨
        ({ inTarget post qs step cl with state := .e1 } : HttpParser).rx.ready = true) := by
      simp [hnul, inTarget]
    rw [parseHttpChar_enter record log hgood]
    simp only [hrow]
    rfl
  · rw [hnone] at hx
    cases hx

theorem parse_second {a b x : UInt8} (hx : escaped a b = some x) :
    parseHttpChar record b ((inTarget post qs step cl).hexed (hexDigit 0 a) a, log) =
      (true, inTarget post qs (step + 1) cl,
        log ++ [⟨if qs then .qsChar else .pathChar, Int32.ofNat x.toNat, step + 1⟩]) := by
  obtain ⟨y, z, -, hz, -⟩ := hexValue_of_escaped hx
  rcases digit_rows b with ⟨hnul, -, -, hrow⟩ | ⟨hnone, -, -⟩
  · have hgood : ¬ (classOf b = .nul ∨
        ((inTarget post qs step cl).hexed (hexDigit 0 a) a).rx.ready = true) := by
      simp [hnul, inTarget, HttpParser.hexed]
    have hstate : ((inTarget post qs step cl).hexed (hexDigit 0 a) a).state = .e2 := rfl
    rw [parseHttpChar_enter record log hgood, hstate, hrow]
    have hdigits := escape_digits hx
    simp only [enter, perform, inTarget, HttpParser.hexed, hdigits]
    rfl
  · rw [hnone] at hz
    cases hz

end Run

/-- Behind a byte that is taken the parser is fed the rest. -/
theorem feed_step {c : UInt8} {cs : List UInt8} {ps qs : HttpParser × List HttpEvent}
    (h : parseHttpChar record c ps = (true, qs)) : feed record (c :: cs) ps = feed record cs qs := by
  rw [feed, h]

/-- A run that goes on takes no byte without an entry. -/
theorem row_of_feed {c : UInt8} {cs : List UInt8} {p q : HttpParser} {log log' : List HttpEvent}
    (h : feed record (c :: cs) (p, log) = (true, q, log')) :
    stateTransitionTable p.state (classOf c) ≠ .xx := by
  intro hrow
  obtain ⟨p₁, log₁, hparse, -⟩ := feed_cons h
  have hrefused : (parseHttpChar record c (p, log)).1 = false := parse_refused_xx hrow
  rw [hparse] at hrefused
  cases hrefused

/-- **An escape** inside a target has its two digits. -/
theorem escape_of_feed {post qs : Bool} {step cl : UInt32} {log log' : List HttpEvent}
    {t : List UInt8} {q : HttpParser} (hspace : 32 ∉ t)
    (h : feed record (t ++ [32]) ({ inTarget post qs step cl with state := .e1 }, log) =
      (true, q, log')) :
    ∃ a b x t', t = a :: b :: t' ∧ escaped a b = some x ∧
      feed record (t' ++ [32]) (inTarget post qs (step + 1 + 1) cl,
        log ++ [⟨if qs then .qsChar else .pathChar, Int32.ofNat x.toNat, step + 1 + 1⟩]) =
          (true, q, log') := by
  cases t with
  | nil => exact absurd rfl (row_of_feed h)
  | cons a t =>
    have hrow := row_of_feed h
    rcases digit_rows a with ⟨-, hsome, -, -⟩ | ⟨-, hxx, -⟩
    · obtain ⟨y, hy⟩ := Option.isSome_iff_exists.1 hsome
      rw [List.cons_append, feed_step (parse_first post qs step cl log hy)] at h
      cases t with
      | nil => exact absurd rfl (row_of_feed h)
      | cons b t =>
        have hrow' := row_of_feed h
        rcases digit_rows b with ⟨-, hsome', -, -⟩ | ⟨-, -, hxx⟩
        · obtain ⟨z, hz⟩ := Option.isSome_iff_exists.1 hsome'
          have hx : escaped a b = some (y * 16 + z) := by
            rw [escaped, hy, hz]
            rfl
          rw [List.cons_append, feed_step (parse_second post qs (step + 1) cl log hx)] at h
          exact ⟨a, b, _, t, rfl, hx, h⟩
        · exact absurd hxx hrow'
    · exact absurd hxx hrow

/-- **The run over a target**, from anywhere inside it to the space behind it. -/
theorem feed_target {post : Bool} {cl : UInt32} {q : HttpParser} {log' : List HttpEvent}
    (n : Nat) {t : List UInt8} (hn : t.length = n) (hspace : 32 ∉ t) {qs : Bool} {step : UInt32}
    {log : List HttpEvent}
    (h : feed record (t ++ [32]) (inTarget post qs step cl, log) = (true, q, log')) :
    (∃ step', q = { inTarget post (qs || t.contains 63) step' cl with state := .h1 }) ∧
      ∃ evs, log' = log ++ evs ∧ (evs.map fun e => (e.type, e.value)) = reports qs t := by
  induction n using Nat.strong_induction_on generalizing t qs step log with
  | _ n ih =>
    cases t with
    | nil =>
      rw [List.nil_append, feed_step (parse_space post qs step cl log)] at h
      obtain ⟨rfl, rfl⟩ := Prod.mk.inj (Prod.mk.inj h).2
      refine ⟨⟨step + 1, by rw [List.contains_nil, Bool.or_false]⟩, _, rfl, ?_⟩
      cases qs <;> rfl
    | cons c t =>
      rw [List.mem_cons, not_or] at hspace
      rw [List.length_cons] at hn
      rcases target_row c with rfl | rfl | rfl | hxx | ⟨hnul, hrow⟩
      · exact absurd rfl hspace.1
      · -- an escape
        rw [List.cons_append, feed_step (parse_pct post qs step cl log)] at h
        obtain ⟨a, b, x, t', rfl, hx, hrest⟩ := escape_of_feed hspace.2 h
        simp only [List.mem_cons, not_or, List.length_cons] at hspace hn
        obtain ⟨⟨step', hq⟩, evs, hlog, hevs⟩ := ih t'.length (by omega) rfl hspace.2.2.2 hrest
        have hmark := escaped_ne_mark hx
        refine ⟨⟨step', ?_⟩, _ :: evs, by rw [hlog, List.append_assoc]; rfl, ?_⟩
        · rw [hq]
          simp [hmark.1.symm, hmark.2.symm]
        · rw [List.map_cons, hevs, reports_escape hx]
      · -- a question mark
        rw [List.cons_append, feed_step (parse_mark post qs step cl log)] at h
        obtain ⟨⟨step', hq⟩, evs, hlog, hevs⟩ := ih t.length (by omega) rfl hspace.2 h
        refine ⟨⟨step', ?_⟩, _ :: evs, by rw [hlog, List.append_assoc]; rfl, ?_⟩
        · rw [hq]
          simp
        · rw [List.map_cons, hevs]
          obtain ⟨hfirst, hlater⟩ := reports_mark t
          cases qs with
          | false => exact hfirst.symm
          | true => exact hlater.symm
      · exact absurd hxx (row_of_feed h)
      · rw [List.cons_append, feed_step (parse_plain post qs step cl log hnul hrow)] at h
        obtain ⟨⟨step', hq⟩, evs, hlog, hevs⟩ := ih t.length (by omega) rfl hspace.2 h
        have hpct : c ≠ 37 := by
          rintro rfl
          exact absurd hrow (by decide)
        have hmark : c ≠ 63 := by
          rintro rfl
          exact absurd hrow (by decide)
        refine ⟨⟨step', ?_⟩, _ :: evs, by rw [hlog, List.append_assoc]; rfl, ?_⟩
        · rw [hq]
          simp [hmark.symm]
        · rw [List.map_cons, hevs, reports_plain hpct hmark]

/-! ## What is promised -/

/-- The method of a request and the space behind it. -/
def methodText : HttpMethod → List UInt8
  | .get => [71, 69, 84, 32]
  | .post => [80, 79, 83, 84, 32]

theorem inTarget_low (post qs : Bool) : (⟨post, qs, false, false, 0⟩ : Rx).word &&& 0x0FFFFFFF = 0 := by
  cases post <;> cases qs <;> decide

/-- What is promised of a request target: `evs` are its events, and the parser was `p` in front of it
and is `q` behind it. -/
structure TargetDecoded (t : List UInt8) (p q : HttpParser) (evs : List HttpEvent) : Prop where
  reported : (evs.map fun e => (e.type, e.value)) =
    charsAs .pathChar (decode (targetPath t)) ++ (.pathEnd, 0) ::
      charsAs .qsChar (decode (targetQuery t))
  low : q.rx.word &&& 0x0FFFFFFF = 0
  flags : q.rx = { p.rx with qs := q.rx.qs }

/-- **The request target is decoded**: the run of the parser over a method, a target and the space
behind it, if it is accepted. -/
theorem target_decoded (m : HttpMethod) {t : List UInt8} (hspace : 32 ∉ t)
    (haccepted : (feed record (methodText m ++ t ++ [32]) (.reset, [])).1 = true) :
    ∃ p log evs, feed record (methodText m) (.reset, []) = (true, p, log) ∧
      (feed record (methodText m ++ t ++ [32]) (.reset, [])).2.2 = log ++ evs ∧
      TargetDecoded t p (feed record (methodText m ++ t ++ [32]) (.reset, [])).2.1 evs := by
  have hmethod : ∃ post step log, feed record (methodText m) (.reset, []) =
      (true, inTarget post false step 0, log) := by
    cases m with
    | get => exact ⟨false, 4, _, rfl⟩
    | post => exact ⟨true, 5, _, rfl⟩
  obtain ⟨post, step, log, hmethod⟩ := hmethod
  have hfeed : feed record (methodText m ++ t ++ [32]) (.reset, []) =
      feed record (t ++ [32]) (inTarget post false step 0, log) := by
    rw [List.append_assoc, feed_append, hmethod]
    exact if_pos rfl
  rw [hfeed] at haccepted ⊢
  obtain ⟨⟨step', hq⟩, evs, hlog, hevs⟩ := feed_target t.length rfl hspace
    (Prod.ext haccepted rfl : feed record (t ++ [32]) (inTarget post false step 0, log) =
      (true, (feed record (t ++ [32]) (inTarget post false step 0, log)).2))
  refine ⟨_, log, evs, hmethod, hlog, hevs, ?_, ?_⟩
  · rw [hq]
    exact inTarget_low post _
  · rw [hq]
    rfl

/-- A target with escapes, an escaped question mark among them, and two question marks. -/
theorem target_decoded_sample :
    ∃ p log evs, feed record (methodText .get) (.reset, []) = (true, p, log) ∧
      (feed record (methodText .get ++ [47, 37, 51, 102, 63, 97, 63, 37, 52, 49] ++ [32])
        (.reset, [])).2.2 = log ++ evs ∧
      TargetDecoded [47, 37, 51, 102, 63, 97, 63, 37, 52, 49] p
        (feed record (methodText .get ++ [47, 37, 51, 102, 63, 97, 63, 37, 52, 49] ++ [32])
          (.reset, [])).2.1 evs :=
  target_decoded .get (by decide) (by decide)

end Ape.Http
