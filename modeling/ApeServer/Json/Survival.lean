import ApeServer.Json.Key
import ApeServer.Json.Stored

/-!
# Strings that survive

What `json_to_string` prints for an object of strings is read again.

* `Property.Safe` — keys and values that need no other escapes than they get;
* `Survives` — the text is accepted, and each property is read as it was set;
* `reads_properties`, `misreads_properties` — **what the parser makes of the text**;
* `survives_iff` — **exactly the safe strings survive**.
-/

namespace Ape.Json

/-- A property that is read as it was set. -/
def Property.Safe (p : Property) : Prop :=
  (∀ c ∈ p.key, PlainByte c) ∧ ∀ c ∈ p.value, Escapable c

/-- The parser takes the text and tells of these events. -/
def Accepts (libc : Libc) (text : List UInt8) (es : List Event) : Prop :=
  ∃ jc, (feed libc (chars text) (newParser true 15 false)).andThen jsonParserDone = ⟨true, jc, es, false⟩

/-- The text of an object with these properties is stored in its block and accepted, and what the
parser tells of, and the tree that is built of it, is each property, with its key and its value, in
order. -/
def Survives (libc : Libc) (libm : Libm) (ps : List Property) : Prop :=
  ∃ items stored s, setProperties ps = some items ∧
    writeString (integerText libm) libm items (some 0) = some stored ∧
    Accepts libc stored.jstring (documentEvents (properties ps)) ∧
    initJsonParser libc stored.jstring = some s ∧ Mirrors s (properties ps)

section Objects

variable {libc : Libc} {stack : List Modes} {state : States} {p : Property} {ps : List Property}

theorem events_cons (p : Property) (ps : List Property) : (properties (p :: ps)).events =
    .key p.key :: .value (.string p.value) :: (properties ps).events := rfl

/-- The key of a property, and the quote in front of its value. -/
theorem reads_property_key (libc : Libc) (hstate : state = .ob ∨ state = .ke)
    (hkey : ∀ c ∈ p.key, PlainByte c) (hstack : stack.length ≤ 15) :
    Reads libc (reading state .none (.key :: stack) []) (34 :: (p.key ++ [34, 58]) ++ [34])
      (reading .st .string (.object :: stack) []) [.key p.key] := by
  have hrow : stateTransitionTable state .quote = .act .sb := by
    rcases hstate with rfl | rfl <;> rfl
  exact (reads_key hrow hkey hstack).append (reads_quote rfl)

/-- A property that is read as it was set. -/
theorem reads_property (libc : Libc) (hstate : state = .ob ∨ state = .ke) (hp : p.Safe)
    (hstack : stack.length ≤ 15) :
    Reads libc (reading state .none (.key :: stack) [])
      ((34 :: (p.key ++ [34, 58]) ++ [34]) ++ (escapeJsonString p.value ++ [34]))
      (reading .ok .none (.object :: stack) []) [.key p.key, .value (.string p.value)] := by
  have hvalue : Reads libc (reading .st .string (.object :: stack) []) (escapeJsonString p.value)
      (reading .st .string (.object :: stack) p.value) [] := reads_escaped p.ascii.2 hp.2 []
  exact (reads_property_key libc hstate hp.1 hstack).append
    (hvalue.append (reads_string_end libc (.inr rfl) p.value))

/-- What is behind a property: the bracket, or a comma and another property. -/
theorem reads_separator (libc : Libc) (hstack : stack.length ≤ 15) (ps : List Property) :
    ps = [] ∧ Reads libc (reading .ok .none (.object :: stack) []) (properties ps).separator
        (reading .ok .none stack []) [.containerEnd .object] ∨
      ps ≠ [] ∧ ∃ state, (state = .ob ∨ state = .ke) ∧
        Reads libc (reading .ok .none (.object :: stack) []) (properties ps).separator
          (reading state .none (.key :: stack) []) [] := by
  cases ps with
  | nil => exact .inl ⟨rfl, @reads_closer libc stack .object _ _ (Pending.of_none libc _)⟩
  | cons p ps =>
    exact .inr ⟨by simp, @reads_comma libc stack .object _ _ hstack (Pending.of_none libc _)⟩

/-- **Safe properties are read as they were set.** -/
theorem reads_properties (libc : Libc) (hstack : stack.length ≤ 15) (hsafe : ∀ p ∈ ps, p.Safe)
    (hne : ps ≠ []) (hstate : state = .ob ∨ state = .ke) :
    Reads libc (reading state .none (.key :: stack) []) (propertiesText ps)
      (reading .ok .none stack []) ((properties ps).events ++ [.containerEnd .object]) := by
  induction ps generalizing state with
  | nil => exact absurd rfl hne
  | cons p ps ih =>
    have hfirst := reads_property libc hstate (hsafe p (List.mem_cons_self ..)) hstack
    have htext : propertiesText (p :: ps) =
        ((34 :: (p.key ++ [34, 58]) ++ [34]) ++ (escapeJsonString p.value ++ [34])) ++
          ((properties ps).separator ++ propertiesText ps) := by
      simp [propertiesText]
    rw [htext, events_cons]
    rcases reads_separator libc hstack ps with ⟨rfl, hend⟩ | ⟨hrest, state', hstate', hcomma⟩
    · exact hfirst.append (hend.append (.nil _))
    · exact hfirst.append (hcomma.append
        (ih (fun q hq => hsafe q (List.mem_cons_of_mem _ hq)) hrest hstate'))

/-- **Other properties are not.** -/
theorem misreads_properties (hstack : stack.length ≤ 15) (hmisread : ¬ ∀ p ∈ ps, p.Safe)
    (hstate : state = .ob ∨ state = .ke) (es : List Event) (jc : Parser) :
    ¬ Reads libc (reading state .none (.key :: stack) []) (propertiesText ps) jc
      ((properties ps).events ++ es) := by
  induction ps generalizing state with
  | nil => exact absurd (fun p hp => absurd hp (by simp)) hmisread
  | cons p ps ih =>
    intro hreads
    have hrow : stateTransitionTable state .quote = .act .sb := by
      rcases hstate with rfl | rfl <;> rfl
    by_cases hkey : ∀ c ∈ p.key, PlainByte c
    · by_cases hvalue : ∀ c ∈ p.value, Escapable c
      · have hrest : ¬ ∀ q ∈ ps, q.Safe := by
          intro hall
          refine hmisread fun q hq => ?_
          rcases List.mem_cons.1 hq with rfl | hq
          · exact ⟨hkey, hvalue⟩
          · exact hall q hq
        have htext : propertiesText (p :: ps) =
            ((34 :: (p.key ++ [34, 58]) ++ [34]) ++ (escapeJsonString p.value ++ [34])) ++
              ((properties ps).separator ++ propertiesText ps) := by
          simp [propertiesText]
        rw [htext, events_cons] at hreads
        obtain ⟨es₁, hes, hbehind⟩ := hreads.behind (reads_property libc hstate ⟨hkey, hvalue⟩ hstack)
        rcases reads_separator libc hstack ps with ⟨rfl, -⟩ | ⟨-, state', hstate', hcomma⟩
        · exact hrest fun q hq => absurd hq (by simp)
        · obtain ⟨es₂, hes₂, hlast⟩ := hbehind.behind hcomma
          have hsame : (properties ps).events ++ es = es₁ :=
            (List.cons.inj (List.cons.inj hes).2).2
          rw [hes₂, List.nil_append] at hsame
          refine ih hrest hstate' ?_
          rwa [hsame]
      · have htext : propertiesText (p :: ps) = (34 :: (p.key ++ [34, 58]) ++ [34]) ++
            (escapeJsonString p.value ++ (34 :: ((properties ps).separator ++ propertiesText ps))) := by
          simp [propertiesText]
        rw [htext] at hreads
        obtain ⟨es₁, -, hbehind⟩ := hreads.behind (reads_property_key libc hstate hkey hstack)
        exact ((rejects_escaped p.ascii.2 hvalue []).append _).not_reads hbehind
    · have htext : propertiesText (p :: ps) = [34] ++ (p.key ++ (34 :: 58 :: 34 ::
          (escapeJsonString p.value ++ (34 :: ((properties ps).separator ++ propertiesText ps))))) := by
        simp [propertiesText]
      rw [htext, events_cons] at hreads
      obtain ⟨es₁, hes, hbehind⟩ := hreads.behind (reads_quote hrow)
      rw [List.nil_append] at hes
      subst hes
      exact key_misread hkey _ _ hbehind

/-! ## Texts of objects -/

theorem ascii_escapeJsonString {s : List UInt8} (hs : Ascii s) : Ascii (escapeJsonString s) := by
  have hbyte : ∀ c : UInt8, c.toNat < 128 → c ≠ 0 → Ascii (escapeJsonString [c]) :=
    CString.forall_ascii (by decide)
  induction s with
  | nil => exact hs
  | cons c s ih =>
    obtain ⟨hzero, hlt⟩ := hs c (List.mem_cons_self ..)
    have hfirst := hbyte c hlt hzero
    rw [escapeJsonString_cons]
    exact hfirst.append (ih fun x hx => hs x (List.mem_cons_of_mem _ hx))

theorem ascii_propertiesText (ps : List Property) : Ascii (propertiesText ps) := by
  induction ps with
  | nil => exact fun c hc => absurd hc (by simp [propertiesText])
  | cons p ps ih =>
    have hseparator : Ascii (properties ps).separator := by
      cases ps with
      | nil => decide
      | cons q ps => exact (by decide : Ascii [44])
    have hquote : Ascii [34] := by decide
    have hcolon : Ascii [34, 58] := by decide
    exact ((hquote.append (p.ascii.1.append hcolon)).append
      (hquote.append ((ascii_escapeJsonString p.ascii.2).append hquote))).append hseparator |>.append ih

theorem events_jsonParserDone (jc : Parser) : (jsonParserDone jc).events = [] := by
  unfold jsonParserDone pop
  split
  · split <;> rfl
  · rfl

/-- A text that is accepted is read. -/
theorem Accepts.reads {text : List UInt8} {es : List Event} (hascii : Ascii text)
    (h : Accepts libc text es) : ∃ jc, Reads libc (reading .go .none [.done] []) text jc es := by
  obtain ⟨jc, haccepts⟩ := h
  rw [chars_of_ascii hascii] at haccepts
  cases hfeed : feed libc (codes text) (newParser true 15 false) with
  | mk ok jc' es' lost =>
    rw [hfeed] at haccepts
    cases ok with
    | false => exact Bool.noConfusion (congrArg Outcome.ok haccepts)
    | true =>
      obtain ⟨-, -, hevents, hlost⟩ := Outcome.mk.inj haccepts
      obtain ⟨rfl, -⟩ := Bool.or_eq_false_iff.1 hlost
      obtain rfl : es' = es := by
        rw [← hevents, events_jsonParserDone]
        exact (List.append_nil _).symm
      exact ⟨jc', hascii, hfeed⟩

/-- A text that is taken to its end is accepted. -/
theorem Reads.accepts {text : List UInt8} {es : List Event}
    (h : Reads libc (reading .go .none [.done] []) text (reading .ok .none [.done] []) es) :
    Accepts libc text es := by
  have hfeed : feed libc (codes text) (newParser true 15 false) =
      ⟨true, reading .ok .none [.done] [], es, false⟩ := h.2
  refine ⟨reading .ok .none [] [], ?_⟩
  rw [chars_of_ascii h.1, hfeed, Outcome.andThen_mk, events_jsonParserDone, List.append_nil]
  rfl

/-- The bracket in front of an object. -/
theorem reads_brace (libc : Libc) : ∃ state, (state = .ob ∨ state = .ke) ∧
    Reads libc (reading .go .none [.done] []) [123] (reading state .none [.key, .done] [])
      [.containerBegin .object] :=
  reads_opener libc .object (.inl rfl) (by decide)

/-- Safe properties are a faithful document. -/
theorem faithful_properties (hsafe : ∀ q ∈ ps, q.Safe) : (properties ps).Faithful := by
  induction ps with
  | nil => trivial
  | cons p ps ih =>
    refine ⟨fun hapostrophe => ?_, ih fun q hq => hsafe q (List.mem_cons_of_mem p hq)⟩
    exact absurd ((hsafe p (List.mem_cons_self ..)).2 39 hapostrophe) (by decide)

/-- Their text is stored in the block for it. -/
theorem stored_properties (libm : Libm) (hsafe : ∀ q ∈ p :: ps, q.Safe)
    (hfit : 2 * documentSize (properties (p :: ps)) < 2 ^ 31) :
    ∃ items stored, setProperties (p :: ps) = some items ∧
      writeString (integerText libm) libm items (some 0) = some stored ∧
      stored.jstring = 123 :: propertiesText (p :: ps) := by
  have htext := jsonToString_setProperties libm p ps
  rw [setProperties_eq, Option.bind_some] at htext
  have hmirrored := (properties (p :: ps)).mirrored_layout 0 [objectItem (p :: ps).length] []
  rw [List.append_nil] at hmirrored
  obtain ⟨stored, hstored, hjstring⟩ := writeString_mirrored libm
    (objectItem (p :: ps).length :: (properties (p :: ps)).layout 0 1) rfl
    ⟨rfl, rfl, rfl, rfl, rfl, rfl, rfl⟩ hmirrored (faithful_properties hsafe) hfit htext
  exact ⟨_, stored, setProperties_eq _, hstored, hjstring⟩

/-- Properties with no byte that is misread survive, in a block that is large enough. -/
theorem survives_of_safe (libc : Libc) (libm : Libm) (p : Property) (ps : List Property)
    (hfit : 2 * documentSize (properties (p :: ps)) < 2 ^ 31) (hsafe : ∀ q ∈ p :: ps, q.Safe) :
    Survives libc libm (p :: ps) := by
  obtain ⟨state, hstate, hbrace⟩ := reads_brace libc
  obtain ⟨items, stored, hitems, hstored, hjstring⟩ := stored_properties libm hsafe hfit
  have hreads : Reads libc (reading .go .none [.done] []) stored.jstring
      (reading .ok .none [.done] []) (documentEvents (properties (p :: ps))) := by
    rw [hjstring]
    exact hbrace.append (reads_properties libc (by decide) hsafe (by simp) hstate)
  refine ⟨items, stored, _, hitems, hstored, hreads.accepts, ?_,
    mirrors_documentItems _ false false (some 0)⟩
  exact (initJsonParser_reads hreads).trans (build_documentEvents _)

/-- Properties that survive are safe. -/
theorem safe_of_survives {libc : Libc} {libm : Libm} {p : Property} {ps : List Property}
    (h : Survives libc libm (p :: ps)) : ∀ q ∈ p :: ps, q.Safe := by
  by_contra hmisread
  obtain ⟨items, stored, s, hitems, hstored, haccepts, -, -⟩ := h
  have hprinted := jsonToString_setProperties libm p ps
  rw [hitems, Option.bind_some, writeString_text hstored] at hprinted
  rw [Option.some.inj hprinted] at haccepts
  have hascii : Ascii ([123] ++ propertiesText (p :: ps)) :=
    Ascii.append (by decide) (ascii_propertiesText _)
  obtain ⟨jc, hreads⟩ := haccepts.reads hascii
  obtain ⟨state, hstate, hbrace⟩ := reads_brace libc
  obtain ⟨es, hes, hbehind⟩ := Reads.behind (a := [123]) hreads hbrace
  obtain rfl := (List.cons.inj hes).2
  exact misreads_properties (by decide) hmisread hstate _ jc hbehind

/-- **Exactly these strings survive**, if the size of the block for them is an `int`: values without
apostrophes, and without control characters other than the five that are escaped; keys without control
characters, quotes and backslashes. -/
theorem survives_iff (libc : Libc) (libm : Libm) (p : Property) (ps : List Property)
    (hfit : 2 * documentSize (properties (p :: ps)) < 2 ^ 31) :
    Survives libc libm (p :: ps) ↔ ∀ q ∈ p :: ps, q.Safe :=
  ⟨safe_of_survives, survives_of_safe libc libm p ps hfit⟩

/-- `{"k":"a\"\n\\"}`, whose value is a letter, a quote, a line feed and a backslash. -/
theorem survives_iff_escapes :
    Survives plainLibc exactLibm [⟨[107], [97, 34, 10, 92], by decide⟩] := by
  refine (survives_iff plainLibc exactLibm _ [] (by decide)).2 fun q hq => ?_
  rw [List.mem_singleton.1 hq]
  exact ⟨by decide +kernel, by decide +kernel⟩

/-- **`{"k":"it's"}` and `{"a"b":"v"}` do not survive**, nor does a value with a control character. -/
theorem survives_fails :
    (¬ Survives plainLibc exactLibm [⟨[107], [105, 116, 39, 115], by decide⟩]) ∧
      (¬ Survives plainLibc exactLibm [⟨[97, 34, 98], [118], by decide⟩]) ∧
      ¬ Survives plainLibc exactLibm [⟨[107], [1], by decide⟩] := by
  refine ⟨fun h => ?_, fun h => ?_, fun h => ?_⟩
  · exact absurd ((safe_of_survives h _ (List.mem_cons_self ..)).2 39 (by decide)) (by decide)
  · exact absurd ((safe_of_survives h _ (List.mem_cons_self ..)).1 34 (by decide)) (by decide)
  · exact absurd ((safe_of_survives h _ (List.mem_cons_self ..)).2 1 (by decide)) (by decide)

end Objects

end Ape.Json
