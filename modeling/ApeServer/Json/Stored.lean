import ApeServer.Json.Room

/-!
# Documents in their block

The tree of a document is printed into the block `json_to_string` allocates for it, if the size of the
block fits an `int`: every number has at most 20 digits, as the ones that are printed in decimal.

* `Members.evaluated`, `documentSize` — the estimate for a document;
* `Estimates` — a forest of items that members are printed from, with their estimate;
* `Members.Mirrored.spelled` — **the items of members are those of such a forest**;
* `writeString_mirrored` — **what is printed for faithful members is stored**;
* `ComesBack` — the tree of a document, stored as text and read again, mirrors it;
* `parse_print_parse_iff` — **exactly the faithful documents come back**.
-/

namespace Ape.Json

/-! ## The estimate of a document -/

/-- What `json_evaluate_string_size` makes of the members of a container, without the limits of an
`int`. -/
def Members.evaluated : {kind : Kind} → Members kind → Nat
  | _, .nil => 2
  | kind, .scalar label value rest =>
    let it := scalarItem 0 (kind.key label) value none
    it.keySize + it.valueSize + rest.evaluated
  | kind, .nest label inner members rest =>
    let it := containerItem (some 0) (kind.key label) inner (members.first 0) none
    it.keySize + it.valueSize + (if members.first 0 = none then 0 else members.evaluated) +
      rest.evaluated

/-- What it makes of a document. -/
def documentSize {kind : Kind} (m : Members kind) : Nat :=
  (if m.first 0 = none then 16 else m.evaluated) + 2

/-- No members have no first one. -/
theorem Members.first_eq_none_iff {kind : Kind} (m : Members kind) (i : Nat) :
    m.first i = none ↔ m = .nil := by
  cases m with
  | nil => exact iff_of_true rfl rfl
  | scalar label value rest => exact iff_of_false nofun nofun
  | nest label inner members rest => exact iff_of_false nofun nofun

/-- An item carries no number, or one that is printed in decimal. -/
def Item.Counts (it : Item) : Prop := it.integer ≠ 0 → 0 < it.integer.toInt

theorem Scalar.Faithful.counts {value : Scalar} (h : value.Faithful) (father : Nat)
    (key : Option (List UInt8)) (next : Option Nat) : (scalarItem father key value next).Counts := by
  intro hne
  cases value with
  | integer n =>
    have hzero : n.toInt ≠ 0 := fun hzero =>
      hne (Int64.toInt_inj.1 (hzero.trans Int64.toInt_zero.symm))
    have hnonneg : 0 ≤ n.toInt := h
    exact lt_of_le_of_ne hnonneg (Ne.symm hzero)
  | true => exact h.elim
  | float x => exact absurd rfl hne
  | null => exact absurd rfl hne
  | false => exact absurd rfl hne
  | string s => exact absurd rfl hne

/-- What a scalar adds to the estimate depends on its key and its value. -/
theorem scalarItem_size (father : Nat) (key : Option (List UInt8)) (value : Scalar)
    (next : Option Nat) : (scalarItem father key value next).keySize =
        (scalarItem 0 key value none).keySize ∧
      (scalarItem father key value next).valueSize = (scalarItem 0 key value none).valueSize ∧
      (scalarItem father key value next).child = none := by
  cases value <;> exact ⟨rfl, rfl, rfl⟩

/-- A forest of items that members are printed from.  It has the estimate of the members, its
containers carry neither numbers nor literals, and faithful members make only numbers that are printed
in decimal. -/
structure Estimates (items : List Item) {kind : Kind} (m : Members kind) (father : Nat) (p : Option Nat)
    (F : Forest (Nat × Item)) : Prop where
  holds : Holds items F p
  fathered : Fathered F (some father)
  size : estimate F = m.evaluated
  bare : ∀ a ∈ F.nodes, a.2.Bare
  counts : m.Faithful → ∀ a ∈ F.nodes, a.2.Counts

section Estimates

variable {items : List Item} {kind : Kind} {father i : Nat} {next : Option Nat}

/-- A scalar before a row of members adds its own estimate to theirs. -/
theorem Estimates.scalar {rest : Members kind} {F : Forest (Nat × Item)} {label : kind.Label}
    {value : Scalar} (h : Estimates items rest father next F)
    (hit : items[i]? = some (scalarItem father (kind.key label) value next)) :
    Estimates items (.scalar label value rest) father (some i)
      (.node (i, scalarItem father (kind.key label) value next) .nil F) := by
  obtain ⟨hkey, hvalue, hchild⟩ := scalarItem_size father (kind.key label) value next
  refine ⟨⟨rfl, hit, hchild, ?_⟩, ⟨?_, trivial, h.fathered⟩, ?_, ?_, ?_⟩
  · have hnext : (scalarItem father (kind.key label) value next).next = next := by
      cases value <;> rfl
    rw [hnext]
    exact h.holds
  · cases value <;> rfl
  · show (scalarItem father (kind.key label) value next).keySize + _ + (if _ then _ else _) + _ = _
    rw [if_pos hchild, hkey, hvalue, h.size]
    rfl
  · rintro a (_ | ⟨_, ha⟩)
    · exact fun hne => absurd hchild hne
    · exact h.bare a ha
  · rintro hfaithful a (_ | ⟨_, ha⟩)
    · exact hfaithful.1.counts father _ next
    · exact h.counts hfaithful.2 a ha

/-- A container before a row of members adds its own estimate and that of what it holds. -/
theorem Estimates.nest {inner : Kind} {members : Members inner} {rest : Members kind}
    {C F : Forest (Nat × Item)} {label : kind.Label} {child : Option Nat}
    (hC : Estimates items members i child C) (hF : Estimates items rest father next F)
    (hit : items[i]? = some (containerItem (some father) (kind.key label) inner child next))
    (hnone : child = none ↔ members.first 0 = none) :
    Estimates items (.nest label inner members rest) father (some i)
      (.node (i, containerItem (some father) (kind.key label) inner child next) C F) := by
  refine ⟨⟨rfl, hit, hC.holds, hF.holds⟩, ⟨rfl, hC.fathered, hF.fathered⟩, ?_, ?_, ?_⟩
  · show Item.keySize _ + (if child = none then 16 else 0) + (if child = none then 0 else _) + _ = _
    rw [hC.size, hF.size]
    simp only [hnone]
    rfl
  · rintro a (_ | ⟨_, ha⟩)
    · exact fun _ => ⟨rfl, .inl rfl, nofun, nofun, nofun⟩
    · rcases List.mem_append.1 ha with ha | ha
      · exact hC.bare a ha
      · exact hF.bare a ha
  · rintro hfaithful a (_ | ⟨_, ha⟩)
    · exact fun hne => absurd rfl hne
    · rcases List.mem_append.1 ha with ha | ha
      · exact hC.counts hfaithful.2.1 a ha
      · exact hF.counts hfaithful.2.2 a ha

end Estimates

/-- **The items of members are those of a forest** with their estimate. -/
theorem Members.Mirrored.spelled {kind : Kind} {m : Members kind} {items : List Item} {father : Nat}
    {p : Option Nat} (h : m.Mirrored items father p) : ∃ F, Estimates items m father p F := by
  induction m generalizing father p with
  | nil =>
    have hnone : ∀ {P : Nat × Item → Prop}, ∀ a ∈ (Forest.nil : Forest (Nat × Item)).nodes, P a :=
      fun a ha => absurd ha List.not_mem_nil
    exact ⟨.nil, h, trivial, rfl, hnone, fun _ => hnone⟩
  | @scalar kind label value rest ih =>
    obtain ⟨i, next, rfl, hit, hrest⟩ := h
    obtain ⟨F, hF⟩ := ih hrest
    exact ⟨_, hF.scalar hit⟩
  | @nest kind label inner members rest ihm ihr =>
    obtain ⟨i, child, next, rfl, hit, hmembers, hrest⟩ := h
    obtain ⟨C, hC⟩ := ihm hmembers
    obtain ⟨F, hF⟩ := ihr hrest
    exact ⟨_, hC.nest hF hit (hmembers.eq_none_iff.trans (members.first_eq_none_iff 0).symm)⟩

/-! ## The block of a document -/

/-- **What is printed for a container with faithful members is stored** in the block for it. -/
theorem writeString_mirrored (libm : Libm) {kind : Kind} {m : Members kind} (items : List Item)
    {root : Item} (hroot : items[0]? = some root) (hshape : root.father = none ∧ root.next = none ∧
      root.key = none ∧ root.str = none ∧ root.integer = 0 ∧ root.float = 0 ∧ root.type = none)
    (hmirrored : m.Mirrored items 0 root.child) (hfaithful : m.Faithful)
    (hfit : 2 * documentSize m < 2 ^ 31) {text : List UInt8}
    (htext : jsonToString libm items (some 0) = some text) :
    ∃ s, writeString (integerText libm) libm items (some 0) = some s ∧ s.jstring = text := by
  obtain ⟨hfather, hnext, hkey, hstr, hinteger, hfloat, htype⟩ := hshape
  obtain ⟨F, hF⟩ := hmirrored.spelled
  have hwhole : Holds items (.node (0, root) F .nil) (some 0) :=
    ⟨rfl, hroot, hF.holds, hnext⟩
  have hestimate : estimate (.node (0, root) F .nil) = documentSize m := by
    have hnone := hmirrored.eq_none_iff.trans (m.first_eq_none_iff 0).symm
    simp only [estimate, Item.keySize, Item.valueSize, hkey, hstr, hnone, hF.size, documentSize]
    split
    case isTrue => rfl
    case isFalse => simp only [Nat.zero_add]
  have hnodes : (Forest.node (0, root) F .nil).nodes = (0, root) :: F.nodes :=
    congrArg (List.cons _) (List.append_nil _)
  have hbareRoot : ∀ a ∈ (Forest.node (0, root) F .nil).nodes, a.2.Bare := by
    rw [hnodes]
    rintro a (_ | ⟨_, ha⟩)
    · exact fun _ => ⟨hinteger, .inl hfloat, by simp [htype], by simp [htype], by simp [htype]⟩
    · exact hF.bare a ha
  have hdecimal : ∀ a ∈ (Forest.node (0, root) F .nil).nodes, a.2.integer ≠ 0 →
      ∃ text, integerText libm a.2.integer = some text ∧ text.length ≤ 20 := by
    rw [hnodes]
    rintro a (_ | ⟨_, ha⟩) hne
    · exact absurd hinteger hne
    · have hpos := hF.counts hfaithful a ha hne
      have hmax := a.2.integer.toInt_lt
      refine ⟨_, integerText_of_pos libm hpos, ?_⟩
      exact ((Decimal.length_text_le_iff _ 19).2 (by omega)).trans (by norm_num)
  obtain ⟨size, s, -, -, hs, -⟩ := writeString_holds libm hwhole ⟨hfather, hF.fathered, trivial⟩
    hbareRoot hdecimal (hestimate ▸ hfit)
  exact ⟨s, hs, Option.some.inj ((writeString_text hs).symm.trans htext)⟩

/-! ## Parse, print, parse -/

/-- The document is built into a tree, the tree is printed into its block, and what is stored there
is read again as the document. -/
def ComesBack (libc : Libc) (libm : Libm) {kind : Kind} (m : Members kind) : Prop :=
  ∃ s stored s', build (documentEvents m) = some s ∧
    writeString (integerText libm) libm s.items s.head = some stored ∧
    initJsonParser libc stored.jstring = some s' ∧ Mirrors s' m

/-- A document that comes back has members, and they are read as they are. -/
theorem ComesBack.reread {libc : Libc} {libm : Libm} {kind : Kind} {m : Members kind}
    (h : ComesBack libc libm m) (hplain : m.Plain) (hdepth : 1 + m.depth ≤ 15) :
    m ≠ .nil ∧ m.reread = some m := by
  obtain ⟨s, stored, s', hs, hstored, hs', hmirrors⟩ := h
  obtain rfl := Option.some.inj ((build_documentEvents m).symm.trans hs)
  have htext := writeString_text hstored
  rw [jsonToString_document] at htext
  obtain ⟨inside, hinside, htext⟩ := Option.map_eq_some_iff.1 htext
  rw [← htext] at hs'
  have hne : m ≠ .nil := by
    rintro rfl
    rw [show Members.nil.boxed inside = [48] from rfl, initJsonParser_zero] at hs'
    exact absurd hs' (by simp)
  rw [initJsonParser_boxed libc libm hne hplain hdepth hinside] at hs'
  obtain ⟨m', hreread, hs'⟩ := Option.bind_eq_some_iff.1 hs'
  obtain rfl := Option.some.inj ((build_documentEvents m').symm.trans hs')
  obtain rfl := hmirrors.unique (mirrors_documentItems m' _ _ _)
  exact ⟨hne, hreread⟩

/-- **Exactly the faithful documents come back**: among the documents that need no escapes, are
within the depth limit and have a block whose size is an `int`, those with a member, without `true`,
negative numbers, empty containers, and apostrophes in values. -/
theorem parse_print_parse_iff (libc : Libc) (libm : Libm) {kind : Kind} (m : Members kind)
    (hplain : m.Plain) (hdepth : 1 + m.depth ≤ 15) (hfit : 2 * documentSize m < 2 ^ 31) :
    ComesBack libc libm m ↔ m ≠ .nil ∧ m.Faithful := by
  constructor
  · intro h
    obtain ⟨hne, hreread⟩ := h.reread hplain hdepth
    exact ⟨hne, m.reread_eq_iff.1 hreread⟩
  · rintro ⟨hne, hfaithful⟩
    obtain ⟨inside, hinside⟩ := hfaithful.printed hplain libm
    have htext : jsonToString libm (documentItems m) (some 0) = some (m.boxed inside) := by
      rw [jsonToString_document, hinside, Option.map_some]
    have hmirrored := m.mirrored_layout 0 [containerItem none none kind (m.first 1) none] []
    rw [List.append_nil] at hmirrored
    obtain ⟨stored, hstored, hjstring⟩ := writeString_mirrored libm (m := m)
      (documentItems m) rfl ⟨rfl, rfl, rfl, rfl, rfl, rfl, rfl⟩ hmirrored hfaithful hfit htext
    refine ⟨_, stored, _, build_documentEvents m, hstored, ?_,
      mirrors_documentItems m false false (some 0)⟩
    rw [hjstring, initJsonParser_boxed libc libm hne hplain hdepth hinside,
      m.reread_eq_iff.2 hfaithful, Option.bind_some, build_documentEvents]

/-- `{"a":[0,"x"],"b":null}`. -/
def sample : Members .object :=
  .nest [97] .array (.scalar () (.integer 0) (.scalar () (.string [120]) .nil))
    (.scalar [98] .null .nil)

/-- A document of numbers, strings and `null` comes back. -/
theorem parse_print_parse_sample : ComesBack plainLibc exactLibm sample := by
  refine (parse_print_parse_iff plainLibc exactLibm sample ?_ (by decide) (by decide)).2
    ⟨by simp [sample], ?_⟩
  · have hlabel : ∀ c : UInt8, PlainByte c → Kind.object.PlainLabel [c] := by
      rintro c hc key ⟨⟩ d hd
      rwa [List.mem_singleton.1 hd]
    have hnone : Kind.array.PlainLabel () := by
      rintro key ⟨⟩
    have hx : (Scalar.string [120]).Plain := by
      intro c hc
      rw [List.mem_singleton.1 hc]
      decide
    exact ⟨hlabel 97 (by decide), ⟨hnone, trivial, hnone, hx, trivial⟩,
      hlabel 98 (by decide), trivial, trivial⟩
  · exact ⟨by simp, ⟨by simp [Scalar.Faithful], by simp [Scalar.Faithful], trivial⟩, trivial, trivial⟩

/-- An array with one scalar. -/
def single (value : Scalar) : Members .array := .scalar () value .nil

/-- **`[true]` comes back as `[1]`**, `[[]]` as `[0]`, and `[-1]`, `["'"]` and `[]` not at all. -/
theorem parse_print_parse_fails :
    ¬ ComesBack plainLibc exactLibm (single .true) ∧
    ¬ ComesBack plainLibc exactLibm (.nest () .array .nil .nil : Members .array) ∧
    ¬ ComesBack plainLibc exactLibm (single (.integer (-1))) ∧
    ¬ ComesBack plainLibc exactLibm (single (.string [39])) ∧
    ¬ ComesBack plainLibc exactLibm (.nil : Members .array) := by
  have hnone : Kind.array.PlainLabel () := by
    rintro key ⟨⟩
  refine ⟨?_, ?_, ?_, ?_, ?_⟩
  · intro h
    exact (Members.reread_eq_iff _).1 (h.reread ⟨hnone, trivial, trivial⟩ (by decide)).2 |>.1
  · intro h
    have hfaithful := (Members.reread_eq_iff _).1 (h.reread ⟨hnone, trivial, trivial⟩ (by decide)).2
    exact hfaithful.1 rfl
  · intro h
    have hfaithful := (Members.reread_eq_iff _).1 (h.reread ⟨hnone, trivial, trivial⟩ (by decide)).2
    have hnonneg : (0 : Int) ≤ (-1 : Int64).toInt := hfaithful.1
    exact absurd hnonneg (by decide)
  · intro h
    have hplain : (single (.string [39])).Plain := by
      refine ⟨hnone, fun c hc => ?_, trivial⟩
      rw [List.mem_singleton.1 hc]
      decide
    have hfaithful := (Members.reread_eq_iff _).1 (h.reread hplain (by decide)).2
    exact hfaithful.1 (List.mem_singleton_self 39)
  · intro h
    exact (h.reread trivial (by decide)).1 rfl

end Ape.Json
