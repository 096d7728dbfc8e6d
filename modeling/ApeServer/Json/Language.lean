import ApeServer.Json.Numbers

/-!
# The parser takes the documents

What the parser takes to its end is blank or the text of a document, and it tells just the events of
that document.

* `Members.Listed.finishes` — **the text of some members** is read as these members;
* `listed_of_finishes` — **what is read inside a container** is the text of some members;
* `finishes_iff` — **the language of the parser**;
* `initJsonParser_iff` — **`init_json_parser` gives the tree of the document**, for texts of ASCII.
-/

namespace Ape.Json

section Language

variable {libc : Libc} {state : States} {kind : Kind} {stack : List Modes} {c : UInt8}
  {t r : List UInt8} {es : List Event}

/-! ## Labels -/

/-- **What stands in front of a value** is read. -/
theorem LabelText.finishes {label : kind.Label} {l : List UInt8} (h : LabelText kind label l)
    (hstart : kind.Starts state) (hlen : stack.length ≤ 15) :
    ∃ state', (state' = .va ∨ state' = .ar) ∧ ∀ t es,
      Finishes libc (reading state .none (kind.entryMode :: stack) []) (l ++ t) es ↔
        ∃ es', es = kind.labelEvents label ++ es' ∧
          Finishes libc (reading state' .none (kind.mode :: stack) []) t es' := by
  cases kind with
  | array =>
    refine ⟨state, hstart, fun t es => ?_⟩
    have hbetween : Between state := by
      rcases hstart with rfl | rfl
      · exact .inr (.inr (.inr (.inr (.inr (.inl rfl)))))
      · exact .inr (.inr (.inr (.inr (.inr (.inr rfl)))))
    rw [finishes_blank hbetween h]
    exact ⟨fun hrest => ⟨es, rfl, hrest⟩, by rintro ⟨es', rfl, hrest⟩; exact hrest⟩
  | object =>
    obtain ⟨a, k, b, x, rfl, ha, hk, hb, hx⟩ := h
    refine ⟨.va, .inl rfl, fun t es => ?_⟩
    have hbetween : Between state := by
      rcases hstart with rfl | rfl
      · exact .inr (.inr (.inl rfl))
      · exact .inr (.inr (.inr (.inl rfl)))
    have hquote : cellAt state 34 = .act .sb := by rcases hstart with rfl | rfl <;> decide
    have hco : Between .co := .inr (.inr (.inr (.inr (.inl rfl))))
    have hva : Between .va := .inr (.inr (.inr (.inr (.inr (.inl rfl)))))
    have hmode : Kind.object.entryMode = .key := rfl
    have hkey : ∀ t es, Finishes libc (reading .st .string (.key :: stack) []) (k ++ 34 :: t) es ↔
        ∃ es', es = Kind.object.labelEvents label ++ es' ∧
          Finishes libc (reading .co .none (.key :: stack) []) t es' :=
      fun t es => (hk.finishes []).trans finishes_key
    simp only [List.append_assoc, List.cons_append]
    rw [finishes_blank hbetween ha, finishes_quote hquote, hmode, hkey]
    simp only [finishes_blank hco hb, finishes_colon hlen, finishes_blank hva hx]
    exact Iff.rfl

/-- A value has to follow, in a container with members. -/
theorem label_of_finishes (hstart : kind.Starts state) (hlen : stack.length ≤ 15)
    (h : Finishes libc (reading state .none (kind.entryMode :: stack) []) t es) :
    (state = kind.inner ∧ ∃ ws r, t = ws ++ kind.closes :: r ∧ Blank ws) ∨
      ∃ label l d r, t = l ++ d :: r ∧ LabelText kind label l ∧ ¬ IsBlank d ∧ d ≠ 93 := by
  cases kind with
  | array =>
    obtain ⟨ws, r, rfl, hws, hhead⟩ := blank_span t
    have hbetween : Between state := by
      rcases hstart with rfl | rfl
      · exact .inr (.inr (.inr (.inr (.inr (.inl rfl)))))
      · exact .inr (.inr (.inr (.inr (.inr (.inr rfl)))))
    rw [finishes_blank hbetween hws] at h
    cases r with
    | nil =>
      have hend := (finishes_nil.1 h).1
      rcases hstart with rfl | rfl <;> rcases hend with hend | hend <;> cases hend
    | cons d r =>
      by_cases hclose : d = 93
      · subst hclose
        rcases hstart with rfl | rfl
        · exact absurd h (Refused.not_finishes (by decide))
        · exact .inl ⟨rfl, ws, r, rfl, hws⟩
      · exact .inr ⟨(), ws, d, r, rfl, hws, hhead d r rfl, hclose⟩
  | object =>
    obtain ⟨a, r, rfl, ha, hhead⟩ := blank_span t
    have hbetween : Between state := by
      rcases hstart with rfl | rfl
      · exact .inr (.inr (.inl rfl))
      · exact .inr (.inr (.inr (.inl rfl)))
    have hquote : cellAt state 34 = .act .sb := by rcases hstart with rfl | rfl <;> decide
    have hco : Between .co := .inr (.inr (.inr (.inr (.inl rfl))))
    have hva : Between .va := .inr (.inr (.inr (.inr (.inr (.inl rfl)))))
    have hmode : Kind.object.entryMode = .key := rfl
    have hrow : ∀ d : UInt8, IsBlank d ∨ d = 34 ∨ Refused .ke d ∧ (Refused .ob d ∨ d = 125) :=
      CString.forall_byte (by decide) (by decide)
    have hcolon : ∀ d : UInt8, Refused .co d ∨ IsBlank d ∨ d = 58 :=
      CString.forall_byte (by decide) (by decide)
    rw [finishes_blank hbetween ha] at h
    cases r with
    | nil =>
      have hend := (finishes_nil.1 h).1
      rcases hstart with rfl | rfl <;> rcases hend with hend | hend <;> cases hend
    | cons d r =>
      rcases hrow d with hd | rfl | ⟨hke, hob⟩
      · exact absurd hd (hhead d r rfl)
      · rw [finishes_quote hquote] at h
        obtain ⟨k, key, r, rfl, hk, hrest⟩ := quoted_of_finishes h
        rw [hmode, finishes_key] at hrest
        obtain ⟨es', -, hrest⟩ := hrest
        obtain ⟨b, r, rfl, hb, hheadb⟩ := blank_span r
        rw [finishes_blank hco hb] at hrest
        cases r with
        | nil => rcases (finishes_nil.1 hrest).1 with hend | hend <;> cases hend
        | cons d r =>
          rcases hcolon d with hrefused | hd | rfl
          · exact absurd hrest hrefused.not_finishes
          · exact absurd hd (hheadb d r rfl)
          · rw [finishes_colon hlen] at hrest
            obtain ⟨x, r, rfl, hx, hheadx⟩ := blank_span r
            rw [finishes_blank hva hx] at hrest
            cases r with
            | nil => rcases (finishes_nil.1 hrest).1 with hend | hend <;> cases hend
            | cons d r =>
              refine .inr ⟨key, _, d, r, ?_, ⟨a, k, b, x, rfl, ha, hk, hb, hx⟩, hheadx d r rfl, ?_⟩
              · simp
              · rintro rfl
                exact absurd hrest (Refused.not_finishes (by decide))
      · rcases hstart with rfl | rfl
        · rcases hob with hrefused | rfl
          · exact absurd h hrefused.not_finishes
          · exact .inl ⟨rfl, a, r, rfl, ha⟩
        · exact absurd h hke.not_finishes

/-! ## Members -/

/-- The modes behind a label tell the containers apart. -/
theorem mode_inj {kind kind' : Kind} {stack stack' : List Modes}
    (h : kind.mode :: stack = kind'.mode :: stack') : kind = kind' ∧ stack = stack' := by
  obtain ⟨hmode, hstack⟩ := List.cons.inj h
  refine ⟨?_, hstack⟩
  cases kind <;> cases kind' <;> first | rfl | cases hmode

theorem starts_inner (kind : Kind) : kind.Starts kind.inner := by
  cases kind
  · exact .inl rfl
  · exact .inr rfl

theorem starts_further (kind : Kind) : kind.Starts kind.further := by
  cases kind
  · exact .inr rfl
  · exact .inl rfl

/-- A closing bracket ends a value. -/
theorem stop_closes (kind : Kind) : Stop kind.closes := by cases kind <;> decide

/-- A closing bracket behind a value. -/
theorem finishes_closed : Finishes libc (reading .ok .none (kind.mode :: stack) []) (kind.closes :: t)
    es ↔ ∃ es', es = .containerEnd kind :: es' ∧ Finishes libc (reading .ok .none stack []) t es' := by
  have hcell : cellAt .ok kind.closes = .act (if kind = .object then .m8 else .m7) := by
    cases kind <;> decide
  rw [finishes_closes hcell]
  constructor
  · rintro ⟨stack', es', hstack, rfl, hrest⟩
    obtain ⟨-, rfl⟩ := mode_inj hstack
    exact ⟨es', rfl, hrest⟩
  · rintro ⟨es', rfl, hrest⟩
    exact ⟨stack, es', rfl, rfl, hrest⟩

/-- A comma behind a value goes on with the next member. -/
theorem finishes_separated (hlen : stack.length ≤ 15) :
    Finishes libc (reading .ok .none (kind.mode :: stack) []) (44 :: t) es ↔
      Finishes libc (reading kind.further .none (kind.entryMode :: stack) []) t es := by
  have hcell : cellAt .ok 44 = .act .m3 := by decide
  rw [finishes_comma hcell (by rw [List.length_cons]; omega)]
  constructor
  · rintro ⟨kind', stack', es', hstack, hes, hrest⟩
    obtain ⟨rfl, rfl⟩ := mode_inj hstack
    rw [hes]
    exact hrest
  · intro hrest
    exact ⟨kind, stack, es, rfl, rfl, hrest⟩

/-- The text of some members and the bracket behind it are read as these members. -/
def Members.Taken (libc : Libc) {kind : Kind} (m : Members kind) : Prop :=
  ∀ {depth : Nat} {i : List UInt8} {stack : List Modes} {state : States} {r : List UInt8}
    {es : List Event}, m.Listed libc depth i → depth + stack.length = 15 → kind.Starts state →
    (Finishes libc (reading state .none (kind.entryMode :: stack) []) (i ++ kind.closes :: r) es ↔
      ∃ es', es = m.events ++ .containerEnd kind :: es' ∧
        Finishes libc (reading .ok .none stack []) r es')

/-- The rest of the members behind a member is taken up to the closing bracket. -/
theorem Members.Taken.behind {rest : Members kind} (h : rest.Taken libc) {depth : Nat}
    {r₀ : List UInt8} (hrest : rest.Behind libc depth r₀) (hdepth : depth + stack.length = 15) :
    (∃ c r', r₀ ++ kind.closes :: r = c :: r' ∧ Stop c) ∧
      (Finishes libc (reading .ok .none (kind.mode :: stack) []) (r₀ ++ kind.closes :: r) es ↔
        ∃ es', es = rest.events ++ .containerEnd kind :: es' ∧
          Finishes libc (reading .ok .none stack []) r es') := by
  rcases hrest with ⟨rfl, rfl⟩ | ⟨t, rfl, hlisted⟩
  · exact ⟨⟨_, r, rfl, stop_closes kind⟩, finishes_closed⟩
  · refine ⟨⟨44, _, rfl, .inl rfl⟩, ?_⟩
    rw [List.cons_append, finishes_separated (by omega)]
    exact h hlisted hdepth (starts_further kind)

/-- What stands between two brackets is taken and tells its members. -/
theorem Members.Taken.text {m : Members kind} (h : m.Taken libc) {depth : Nat} {i : List UInt8}
    (htext : m.Text libc depth i) (hdepth : depth + stack.length = 15) :
    Finishes libc (reading kind.inner .none (kind.entryMode :: stack) []) (i ++ kind.closes :: r) es ↔
      ∃ es', es = m.events ++ .containerEnd kind :: es' ∧
        Finishes libc (reading .ok .none stack []) r es' := by
  rcases htext with ⟨rfl, hblank⟩ | hlisted
  · have hbetween : Between kind.inner := by
      cases kind
      · exact .inr (.inr (.inl rfl))
      · exact .inr (.inr (.inr (.inr (.inr (.inr rfl)))))
    rw [finishes_blank hbetween hblank, finishes_empty]
    exact Iff.rfl
  · exact h hlisted hdepth (starts_inner kind)

/-- **The text of some members** is read as these members. -/
theorem taken_members (m : Members kind) : m.Taken libc := by
  induction m with
  | nil => exact fun hlisted => False.elim hlisted
  | @scalar kind label value rest ih =>
    intro depth i stack state r es hlisted hdepth hstart
    obtain ⟨l, v, r₀, rfl, hlabel, hscalar, hbehind⟩ := hlisted
    obtain ⟨state', hstate', hfirst⟩ :=
      @LabelText.finishes libc state kind stack label l hlabel hstart (by omega)
    have hlen : (kind.mode :: stack).length ≤ 16 := by
      rw [List.length_cons]
      omega
    have hrest := fun es => @Members.Taken.behind libc kind stack r es rest ih depth r₀ hbehind hdepth
    have hvalue : ∀ es, Finishes libc (reading state' .none (kind.mode :: stack) [])
        (v ++ (r₀ ++ kind.closes :: r)) es ↔ ∃ es', es = .value value :: es' ∧
          Finishes libc (reading .ok .none (kind.mode :: stack) []) (r₀ ++ kind.closes :: r) es' := by
      intro es
      obtain ⟨c, r', hr, hc⟩ := (hrest es).1
      rw [hr]
      exact hscalar.finishes hc hlen hstate'
    rw [List.append_assoc, List.append_assoc, hfirst]
    simp only [hvalue, fun es => (hrest es).2]
    constructor
    · rintro ⟨_, rfl, _, rfl, es', rfl, hdone⟩
      exact ⟨es', by simp [Members.events], hdone⟩
    · rintro ⟨es', rfl, hdone⟩
      exact ⟨_, by simp [Members.events], _, rfl, es', rfl, hdone⟩
  | @nest kind label inner members rest ihm ihr =>
    intro depth i stack state r es hlisted hdepth hstart
    obtain ⟨l, i, ws, r₀, rfl, hlabel, hpos, hinside, hws, hbehind⟩ := hlisted
    obtain ⟨state', hstate', hfirst⟩ :=
      @LabelText.finishes libc state kind stack label l hlabel hstart (by omega)
    have hlen : (kind.mode :: stack).length ≠ 16 := by
      rw [List.length_cons]
      omega
    have hdepth' : depth - 1 + (kind.mode :: stack).length = 15 := by
      rw [List.length_cons]
      omega
    have hrest := fun es =>
      (@Members.Taken.behind libc kind stack r es rest ihr depth r₀ hbehind hdepth).2
    have hmembers := fun es => @Members.Taken.text libc inner (kind.mode :: stack)
      (ws ++ (r₀ ++ kind.closes :: r)) es members ihm (depth - 1) i hinside hdepth'
    have hok : Between .ok := .inr (.inl rfl)
    simp only [List.append_assoc, List.cons_append]
    rw [hfirst]
    simp only [finishes_opens (.inr hstate'), hmembers, finishes_blank hok hws, hrest]
    constructor
    · rintro ⟨_, rfl, -, _, rfl, _, rfl, es', rfl, hdone⟩
      exact ⟨es', by simp [Members.events], hdone⟩
    · rintro ⟨es', rfl, hdone⟩
      exact ⟨_, by simp [Members.events], hlen, _, rfl, _, rfl, es', rfl, hdone⟩

/-! ## What has been read -/

/-- The text goes on with members and their bracket. -/
def Members.Follow (libc : Libc) (kind : Kind) (state : States) (depth : Nat) (t : List UInt8) : Prop :=
  (state = kind.inner ∧ ∃ ws r, t = ws ++ kind.closes :: r ∧ Blank ws) ∨
    ∃ (m : Members kind) (i r : List UInt8), t = i ++ kind.closes :: r ∧ m.Listed libc depth i

/-- The text of a container that has just been opened. -/
theorem Members.Follow.text {depth : Nat} (h : Members.Follow libc kind state depth t) :
    ∃ (m : Members kind) (i r : List UInt8), t = i ++ kind.closes :: r ∧ m.Text libc depth i := by
  rcases h with ⟨-, ws, r, rfl, hws⟩ | ⟨m, i, r, rfl, hlisted⟩
  · exact ⟨.nil, ws, r, rfl, .inl ⟨rfl, hws⟩⟩
  · exact ⟨m, i, r, rfl, .inr hlisted⟩

/-- Behind a comma there are members. -/
theorem Members.Follow.listed {depth : Nat} (h : Members.Follow libc kind kind.further depth t) :
    ∃ (m : Members kind) (i r : List UInt8), t = i ++ kind.closes :: r ∧ m.Listed libc depth i := by
  rcases h with ⟨hinner, -⟩ | hlisted
  · cases kind <;> cases hinner
  · exact hlisted

/-- Behind a member: a comma and more of them, or the bracket. -/
theorem behind_of_finishes {depth : Nat} (hc : Stop c) (hlen : stack.length ≤ 15)
    (hmore : ∀ es, Finishes libc (reading kind.further .none (kind.entryMode :: stack) []) t es →
      Members.Follow libc kind kind.further depth t)
    (h : Finishes libc (reading .ok .none (kind.mode :: stack) []) (c :: t) es) :
    ∃ (rest : Members kind) (r₀ r : List UInt8), c :: t = r₀ ++ kind.closes :: r ∧
      rest.Behind libc depth r₀ := by
  have hclosed : ∀ kind' : Kind, c = kind'.closes → ∃ (rest : Members kind) (r₀ r : List UInt8),
      c :: t = r₀ ++ kind.closes :: r ∧ rest.Behind libc depth r₀ := by
    rintro kind' rfl
    have hcell : cellAt .ok kind'.closes = .act (if kind' = .object then .m8 else .m7) := by
      cases kind' <;> decide
    obtain ⟨stack', es', hstack, -, -⟩ := (finishes_closes hcell).1 h
    obtain ⟨rfl, -⟩ := mode_inj hstack
    exact ⟨.nil, [], t, rfl, .inl ⟨rfl, rfl⟩⟩
  rcases hc with rfl | rfl | rfl
  · obtain ⟨m, i, r, rfl, hlisted⟩ := (hmore es ((finishes_separated hlen).1 h)).listed
    exact ⟨m, 44 :: i, r, rfl, .inr ⟨i, rfl, hlisted⟩⟩
  · exact hclosed .array rfl
  · exact hclosed .object rfl

/-- **What is read inside a container** is the text of some members. -/
theorem follow_of_finishes {depth : Nat} (hdepth : depth + stack.length = 15)
    (hstart : kind.Starts state)
    (h : Finishes libc (reading state .none (kind.entryMode :: stack) []) t es) :
    Members.Follow libc kind state depth t := by
  induction hlen : t.length using Nat.strongRecOn generalizing kind stack state depth t es with
  | ind n ih =>
    subst hlen
    rcases label_of_finishes hstart (by omega) h with hempty | ⟨label, l, d, r, rfl, hlabel, hd, hclose⟩
    · exact .inl hempty
    have hfull : (kind.mode :: stack).length ≤ 16 := by
      rw [List.length_cons]
      omega
    obtain ⟨state', hstate', hfirst⟩ :=
      @LabelText.finishes libc state kind stack label l hlabel hstart (by omega)
    obtain ⟨es₁, -, hvalue⟩ := (hfirst _ _).1 h
    refine .inr ?_
    by_cases hopens : ∃ inner : Kind, d = inner.opens
    · -- a container, and what stands behind it
      obtain ⟨inner, rfl⟩ := hopens
      obtain ⟨hroom, es₂, -, hinner⟩ := (finishes_opens (.inr hstate')).1 hvalue
      rw [List.length_cons] at hroom hfull
      have hdeeper : depth - 1 + (kind.mode :: stack).length = 15 := by
        rw [List.length_cons]
        omega
      obtain ⟨m, i, r₁, rfl, htext⟩ :=
        (ih r.length (by simp; omega) hdeeper (starts_inner inner) hinner rfl).text
      obtain ⟨es₃, -, hbehind⟩ := (Members.Taken.text (taken_members m) htext hdeeper).1 hinner
      obtain ⟨ws, c, r₂, rfl, hws, hc⟩ := stop_of_finishes hbehind
      rw [finishes_blank (.inr (.inl rfl)) hws] at hbehind
      obtain ⟨rest, r₀, r₃, hr, hrest⟩ := behind_of_finishes hc (by omega)
        (fun es h => ih r₂.length (by simp; omega) hdepth (starts_further kind) h rfl) hbehind
      refine ⟨.nest label inner m rest, l ++ inner.opens :: (i ++ inner.closes :: (ws ++ r₀)), r₃, ?_,
        l, i, ws, r₀, rfl, hlabel, by omega, htext, hws, hrest⟩
      simp [hr]
    · obtain ⟨v, value, c, r₁, hr, hscalar, hc⟩ := scalar_of_finishes hstate' hd
        (fun inner hinner => hopens ⟨inner, hinner⟩) hclose hfull hvalue
      rw [hr] at hvalue
      obtain ⟨es₂, -, hbehind⟩ := (hscalar.finishes hc hfull hstate').1 hvalue
      have hshort : r₁.length < (l ++ d :: r).length := by
        rw [hr]
        simp
        omega
      obtain ⟨rest, r₀, r₂, hr', hrest⟩ := behind_of_finishes hc (by omega)
        (fun es h => ih r₁.length hshort hdepth (starts_further kind) h rfl) hbehind
      refine ⟨.scalar label value rest, l ++ (v ++ r₀), r₂, ?_, l, v, r₀, rfl, hlabel, hscalar, hrest⟩
      rw [hr, hr']
      simp

/-! ## Documents -/

/-- **The text of a document** is taken to its end, and the events of the document are told. -/
theorem DocumentText.finishes {m : Members kind} (h : DocumentText libc m t) :
    Finishes libc (newParser true 15 false) t (documentEvents m) := by
  obtain ⟨a, i, b, rfl, ha, hi, hb⟩ := h
  have hstart : newParser true 15 false = reading .go .none [.done] [] := rfl
  have hdone : Finishes libc (reading .ok .none [.done] []) (b ++ []) [] :=
    (finishes_blank (.inr (.inl rfl)) hb).2 (finishes_nil.2 ⟨.inl rfl, rfl, rfl⟩)
  rw [List.append_nil] at hdone
  rw [hstart, finishes_blank (.inl rfl) ha, finishes_opens (.inl rfl)]
  exact ⟨by simp, _, rfl, (Members.Taken.text (taken_members m) hi rfl).2 ⟨[], rfl, hdone⟩⟩

/-- **The language of the parser**: what it takes to the end is blank, or the text of a document whose
events it tells. -/
theorem finishes_iff : Finishes libc (newParser true 15 false) t es ↔
    Blank t ∧ es = [] ∨
      ∃ (kind : Kind) (m : Members kind), DocumentText libc m t ∧ es = documentEvents m := by
  have hstart : newParser true 15 false = reading .go .none [.done] [] := rfl
  have hrow : ∀ d : UInt8, Refused .go d ∨ IsBlank d ∨ d = 123 ∨ d = 91 :=
    CString.forall_byte (by decide) (by decide)
  have hend : ∀ d : UInt8, Refused .ok d ∨ IsBlank d ∨ Stop d :=
    CString.forall_byte (by decide) (by decide)
  constructor
  · intro h
    obtain ⟨a, r, rfl, ha, hhead⟩ := blank_span t
    rw [hstart, finishes_blank (.inl rfl) ha] at h
    cases r with
    | nil =>
      rw [List.append_nil]
      exact .inl ⟨ha, (finishes_nil.1 h).2.2⟩
    | cons d r =>
      obtain ⟨kind, rfl⟩ : ∃ kind : Kind, d = kind.opens := by
        rcases hrow d with hrefused | hblank | rfl | rfl
        · exact absurd h hrefused.not_finishes
        · exact absurd hblank (hhead d r rfl)
        · exact ⟨.object, rfl⟩
        · exact ⟨.array, rfl⟩
      obtain ⟨-, es₁, rfl, hinner⟩ := (finishes_opens (.inl rfl)).1 h
      have hdepth : 14 + [Modes.done].length = 15 := rfl
      obtain ⟨m, i, r, rfl, htext⟩ := (follow_of_finishes hdepth (starts_inner kind) hinner).text
      obtain ⟨es₂, rfl, hbehind⟩ := (Members.Taken.text (taken_members m) htext hdepth).1 hinner
      obtain ⟨b, r, rfl, hb, hheadb⟩ := blank_span r
      rw [finishes_blank (.inr (.inl rfl)) hb] at hbehind
      cases r with
      | nil =>
        obtain ⟨-, -, rfl⟩ := finishes_nil.1 hbehind
        exact .inr ⟨kind, m, ⟨a, i, b, by rw [List.append_nil], ha, htext, hb⟩, rfl⟩
      | cons d r =>
        -- the stack holds no container any more
        have hnone : ∀ (kind : Kind) (stack : List Modes), [Modes.done] ≠ kind.mode :: stack := by
          intro kind stack
          cases kind <;> simp [Kind.mode]
        rcases hend d with hrefused | hblank | hstop
        · exact absurd hbehind hrefused.not_finishes
        · exact absurd hblank (hheadb d r rfl)
        · rcases hstop with rfl | rfl | rfl
          · obtain ⟨kind', stack', -, hstack, -⟩ :=
              (finishes_comma (by decide) (by decide)).1 hbehind
            exact absurd hstack (hnone kind' stack')
          · obtain ⟨stack', -, hstack, -⟩ :=
              (@finishes_closes libc .ok .none .array _ _ _ _ (by decide)).1 hbehind
            exact absurd hstack (hnone .array stack')
          · obtain ⟨stack', -, hstack, -⟩ :=
              (@finishes_closes libc .ok .none .object _ _ _ _ (by decide)).1 hbehind
            exact absurd hstack (hnone .object stack')
  · rintro (⟨hblank, rfl⟩ | ⟨kind, m, htext, rfl⟩)
    · have hnil : Finishes libc (reading .go .none [.done] []) (t ++ []) [] :=
        (finishes_blank (.inl rfl) hblank).2 (finishes_nil.2 ⟨.inr rfl, rfl, rfl⟩)
      rwa [List.append_nil] at hnil
    · exact htext.finishes

end Language

end Ape.Json
