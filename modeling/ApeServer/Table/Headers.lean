import ApeServer.Table.Slots

/-!
# Header lookup and the letter case of names

The headers of a request are added to an `ape_array`, which replaces a value only under the very
same name, and looked up ignoring case.

* `SameName`, `CaseVariants` — names and lists that differ in letter case;
* `Settled` — the headers for which the two comparisons do not matter;
* `headerLookup_iff` — **lookup ignores the case of names exactly for these**.
-/

namespace Ape.Table

open CString Assoc

variable {α : Type*}

/-- The names that are equal to `q` ignoring case. -/
def SameName (q : List UInt8) (k : List UInt8) : Bool := k.map lower = q.map lower

/-- Two lists of headers that differ in the case of letters in the names only. -/
def CaseVariants : List (List UInt8 × α) → List (List UInt8 × α) → Prop :=
  List.Forall₂ fun h h' => h.1.map lower = h'.1.map lower ∧ h.2 = h'.2

/-- The value of the last header with a name. -/
def lastValue (hs : List (List UInt8 × α)) (q : List UInt8) : Option α :=
  (last (SameName q) hs).map Prod.snd

/-- Both lists answer every lookup with the value of the last header of that name. -/
def HeaderLookup (n : Nat) (hs hs' : List (List UInt8 × α)) : Prop :=
  ∀ q, 0 ∉ q →
    ((ApeArray.new n).addAll hs).lookup q = ((ApeArray.new n).addAll hs').lookup q ∧
    ((ApeArray.new n).addAll hs).lookup q = lastValue hs q ∧
    ((ApeArray.new n).addAll hs').lookup q = lastValue hs' q

/-- Of the headers with one name in whatever case, the last has the value of the last that is
spelled like the first. -/
def Settled (hs : List (List UInt8 × α)) : Prop :=
  ∀ q, 0 ∉ q → ∀ f l g, first (SameName q) hs = some f → last (SameName q) hs = some l →
    last (fun k => k = f.1) hs = some g → g.2 = l.2

/-- **What is found**: the value of the last header spelled like the first of that name. -/
theorem lookup_addAll (n : Nat) {hs : List (List UInt8 × α)} (hshort : ∀ h ∈ hs, h.1.length < 2 ^ 31)
    {q : List UInt8} (hq : 0 ∉ q) :
    ((ApeArray.new (n + 1)).addAll hs).lookup q =
      ((first (SameName q) hs).bind fun f => last (fun k => k = f.1) hs).map Prod.snd := by
  obtain ⟨m, hm⟩ := packed_addAll n hs hshort
  rw [lookup_packed hm hq, ← first_putAll]
  rfl

/-- Every lookup in a list gives the last value exactly if the list is settled. -/
theorem lookup_lastValue_iff (n : Nat) {hs : List (List UInt8 × α)}
    (hshort : ∀ h ∈ hs, h.1.length < 2 ^ 31) :
    (∀ q, 0 ∉ q → ((ApeArray.new (n + 1)).addAll hs).lookup q = lastValue hs q) ↔ Settled hs := by
  constructor
  · intro h q hq f l g hf hl hg
    have := h q hq
    rw [lookup_addAll n hshort hq, lastValue, hf, hl, Option.bind_some, hg] at this
    exact Option.some.inj this
  · intro h q hq
    rw [lookup_addAll n hshort hq, lastValue]
    cases hf : first (SameName q) hs with
    | none =>
      -- no header has the name
      have hnone : last (SameName q) hs = none := by
        unfold last first at *
        rw [List.find?_eq_none] at hf ⊢
        intro e he
        exact hf e (List.mem_reverse.1 he)
      rw [hnone]
      rfl
    | some f =>
      obtain ⟨hmem, hname⟩ := first_some hf
      obtain ⟨l, hl⟩ := exists_last hmem hname
      obtain ⟨g, hg⟩ := exists_last (P := fun k => decide (k = f.1)) hmem (by simp)
      rw [hl, Option.bind_some, hg]
      exact congrArg some (h q hq f l g hf hl hg)

/-- The last value does not depend on the case of the names. -/
theorem lastValue_caseVariants {hs hs' : List (List UInt8 × α)} (h : CaseVariants hs hs')
    (q : List UInt8) : lastValue hs q = lastValue hs' q := by
  have hrev : CaseVariants hs.reverse hs'.reverse := List.rel_reverse h
  unfold lastValue last
  generalize hs.reverse = es, hs'.reverse = es' at hrev
  clear h
  induction hrev with
  | nil => rfl
  | cons hhead _ ih =>
    rw [first_cons, first_cons, SameName, SameName, hhead.1]
    split
    · rw [Option.map_some, Option.map_some, hhead.2]
    · exact ih

/-- Names that differ in case only are of the same length. -/
theorem CaseVariants.short {hs hs' : List (List UInt8 × α)} (h : CaseVariants hs hs')
    (hshort : ∀ e ∈ hs, e.1.length < 2 ^ 31) : ∀ e ∈ hs', e.1.length < 2 ^ 31 := by
  induction h with
  | nil => exact hshort
  | @cons e e' es es' hhead _ ih =>
    have hlength : e.1.length = e'.1.length := by
      simpa using congrArg List.length hhead.1
    have hrest := ih fun x hx => hshort x (List.mem_cons_of_mem e hx)
    rintro x (_ | ⟨_, hx⟩)
    · rw [← hlength]
      exact hshort e (List.mem_cons_self ..)
    · exact hrest x hx

/-- **Header lookup** ignores the case of names, and finds the last value, if and only if in both
lists the last value of each name is that of the spelling that came first; the lengths of the names
are `int`s. -/
theorem headerLookup_iff {n : Nat} (hn : 0 < n) {hs hs' : List (List UInt8 × α)}
    (h : CaseVariants hs hs') (hshort : ∀ e ∈ hs, e.1.length < 2 ^ 31) :
    HeaderLookup n hs hs' ↔ Settled hs ∧ Settled hs' := by
  obtain ⟨n, rfl⟩ := Nat.exists_eq_add_one.2 hn
  rw [← lookup_lastValue_iff n hshort, ← lookup_lastValue_iff n (h.short hshort)]
  constructor
  · intro hlookup
    exact ⟨fun q hq => (hlookup q hq).2.1, fun q hq => (hlookup q hq).2.2⟩
  · rintro ⟨hvalue, hvalue'⟩ q hq
    refine ⟨?_, hvalue q hq, hvalue' q hq⟩
    rw [hvalue q hq, hvalue' q hq, lastValue_caseVariants h]

/-- Headers that spell each name in one way only. -/
theorem settled_of_spelling {hs : List (List UInt8 × α)}
    (h : ∀ e ∈ hs, ∀ f ∈ hs, e.1.map lower = f.1.map lower → e.1 = f.1) : Settled hs := by
  intro q _ f l g hf hl hg
  obtain ⟨hfmem, hfname⟩ := first_some hf
  have hsame : last (SameName q) hs = last (fun k => k = f.1) hs := by
    refine last_congr fun e he => ?_
    have hname : f.1.map lower = q.map lower := of_decide_eq_true hfname
    unfold SameName
    rw [decide_eq_decide, ← hname]
    constructor
    · exact h e he f hfmem
    · exact congrArg _
  rw [hsame, hg] at hl
  rw [Option.some.inj hl]

/-- Two headers `Host`, and two headers `HOST`. -/
theorem headerLookup_iff_host :
    HeaderLookup 16 [([72, 111, 115, 116], 1), ([72, 111, 115, 116], 2)]
      [([72, 79, 83, 84], 1), ([72, 79, 83, 84], 2)] := by
  have hvariants : CaseVariants [([72, 111, 115, 116], 1), ([72, 111, 115, 116], 2)]
      [([72, 79, 83, 84], 1), ([72, 79, 83, 84], 2)] :=
    .cons ⟨by decide, rfl⟩ (.cons ⟨by decide, rfl⟩ .nil)
  have hsettled : Settled [([72, 111, 115, 116], 1), ([72, 111, 115, 116], 2)] :=
    settled_of_spelling (by decide)
  have hsettled' : Settled [([72, 79, 83, 84], 1), ([72, 79, 83, 84], 2)] :=
    settled_of_spelling (by decide)
  exact (headerLookup_iff (show 0 < 16 by decide) hvariants (by decide)).2 ⟨hsettled, hsettled'⟩

/-- Of `Host: 1` and `host: 2` the first is found, of `Host: 1` and `Host: 2` the second. -/
theorem headerLookup_fails :
    ¬ ∀ hs hs' : List (List UInt8 × Nat), CaseVariants hs hs' → HeaderLookup 16 hs hs' := by
  intro h
  have hvariants : CaseVariants [([72, 111, 115, 116], 1), ([72, 111, 115, 116], 2)]
      [([72, 111, 115, 116], 1), ([104, 111, 115, 116], 2)] :=
    .cons ⟨by decide, rfl⟩ (.cons ⟨by decide, rfl⟩ .nil)
  have hlookup := (h _ _ hvariants [104, 111, 115, 116] (by decide)).1
  exact absurd hlookup (by decide)

end Ape.Table
