import ApeServer.Json.Struct

/-!
# Copies of trees

`json_copy` copies a row of nodes by recursion over `next`, and for each of them the list of its
entries by a loop that puts every new entry before the ones that are there.

* `copyFrom`, `copyChilds`, `jsonCopy` — the function, its loop, and the whole;
* `mirror` — the tree in which every list of entries is turned round;
* `Backed` — the links back;
* `Copied`, `Filling` — a new row of nodes, and a new list of entries as far as it is filled;
* `copy_spec` — **the copy is the mirror image**, with its links back;
* `copiesRight_iff` — **it is the same tree exactly if the mirror image is**.
-/

namespace Ape.StructJson

/-! ## The function -/

/-- The copy of the brothers hung behind a new node. -/
def linkNext (new : Nat) : Store × Nat → Store
  | (s, copy) => (s.modify new fun j => { j with next := some copy }).modify copy
      fun j => { j with prev := some new }

mutual

/-- `json_copy` with a bound on the depth of the calls. -/
def copyFrom : Nat → Nat → Store → Option (Store × Nat)
  | 0, _, _ => none
  | fuel + 1, jbase, s => do
    let base ← s.jsons[jbase]?
    let new := s.jsons.length
    let made := s.push { name := base.name, value := base.value }
    let row ← base.next.elim (some made) fun next => (copyFrom fuel next made).map (linkNext new)
    let whole ← copyChilds fuel new base.jchilds row
    some (whole, new)

/-- The loop over the entries of a node. -/
def copyChilds : Nat → Nat → Option Nat → Store → Option Store
  | _, _, none, s => some s
  | 0, _, some _, _ => none
  | fuel + 1, new, some jchilds, s => do
    let entry ← s.childs[jchilds]?
    let (row, copy) ← copyFrom fuel entry.child s
    let linked ← prependChild new copy entry.type row
    copyChilds fuel new entry.next linked

end

/-- `json_copy`. -/
def jsonCopy (jbase : Nat) (s : Store) : Option (Store × Nat) := copyFrom s.size jbase s

/-! ## Names, values and types -/

/-- What a node or an entry carries besides its links. -/
inductive Label
  | json (name value : List UInt8)
  | childs (type : UInt32)
  deriving DecidableEq

/-- The label of a node or of an entry. -/
def Node.label : Node → Label
  | .json j => .json j.name j.value
  | .childs c => .childs c.type

/-- The tree without its addresses. -/
def labels (F : Forest (Ref × Node)) : Forest Label := F.map fun a => a.2.label

/-- Rows of nodes stay in order, a list of entries is turned round onto another one. -/
def turn : Forest Label → Forest Label → Forest Label
  | .nil, acc => acc
  | .node (.json name value) entries next, acc =>
    .node (.json name value) (turn entries .nil) (turn next acc)
  | .node (.childs type) row rest, acc => turn rest (.node (.childs type) (turn row .nil) acc)

/-- The mirror image: every list of entries is turned round. -/
def mirror (L : Forest Label) : Forest Label := turn L .nil

/-- The links back: `prev` of a node is the brother before, and `jfather` of the first of a row is
the node with the entry that leads there.  The row begins behind `prev`, and below `father`. -/
def Backed : Forest (Ref × Node) → Option Nat → Option Nat → Prop
  | .nil, _, _ => True
  | .node (r, n) below rest, prev, father =>
    match r, n with
    | .json i, .json j =>
      j.prev = prev ∧ j.jfather = father ∧ Backed below none (some i) ∧ Backed rest (some i) none
    | _, _ => Backed below none father ∧ Backed rest none father

/-- A copy is right: it has the names, values and types of the tree in the same order, and its links
back. -/
def CopiesRight (s : Store) (jbase : Nat) (F : Forest (Ref × Node)) : Prop :=
  ∃ s' new F', jsonCopy jbase s = some (s', new) ∧ Holds s' F' (some (.json new)) ∧
    labels F' = labels F ∧ Backed F' none none

/-! ## New rows and new lists -/

/-- Beside the memory `μ` there is a new row of nodes from `k` on. -/
structure Copied (μ : Ref → Option Node) (s : Store) (k : Nat) (prev father : Option Nat)
    (L : Forest Label) : Prop where
  kept : ∀ r n, μ r = some n → s.get r = some n
  fresh : μ (.json k) = none
  row : ∃ j below rest, Holds s (.node (.json k, .json j) below rest) (some (.json k)) ∧
    Backed (.node (.json k, .json j) below rest) prev father ∧
    labels (.node (.json k, .json j) below rest) = L ∧
    ∀ a ∈ below.nodes ++ rest.nodes, μ a.1 = none ∧ a.1 ≠ .json k

/-- Beside the memory `μ` there is a new node with a new list of entries. -/
structure Filling (μ : Ref → Option Node) (s : Store) (new : Nat) (j : Json)
    (A : Forest (Ref × Node)) : Prop where
  kept : ∀ r n, μ r = some n → s.get r = some n
  fresh : μ (.json new) = none
  live : s.jsons[new]? = some j
  entries : Holds s A (j.jchilds.map .childs)
  apart : ∀ a ∈ A.nodes, μ a.1 = none ∧ a.1 ≠ .json new
  backed : Backed A none (some new)

section

variable {μ : Ref → Option Node} {s s' : Store} {F A : Forest (Ref × Node)} {L : Forest Label}
  {k new i : Nat} {j : Json}

/-- What is in a memory is not at a free address. -/
theorem ne_of_live {r x : Ref} {n : Node} (hr : μ r = some n) (hx : μ x = none) : r ≠ x := by
  rintro rfl
  exact absurd (hr.symm.trans hx) (by simp)

/-- What is free where a memory is kept is free in it. -/
theorem none_of_kept {ν : Ref → Option Node} (hkept : ∀ r n, μ r = some n → ν r = some n) {r : Ref}
    (hr : ν r = none) : μ r = none := by
  cases hn : μ r with
  | none => rfl
  | some n => exact absurd (hr.symm.trans (hkept r n hn)) (by simp)

/-- What `prependChild` leaves in the memory. -/
theorem prependChild_spec {father child : Nat} {f c : Json} (type : UInt32)
    (hf : s.jsons[father]? = some f) (hc : s.jsons[child]? = some c) (hne : father ≠ child) :
    ∃ s', prependChild father child type s = some s' ∧
      s'.jsons[father]? = some { f with jchilds := some s.childs.length } ∧
      s'.get (.json child) = some (.json { c with jfather := some father }) ∧
      s'.get (.childs s.childs.length) = some (.childs { child, next := f.jchilds, type }) ∧
      ∀ r n, r ≠ .json father → r ≠ .json child → s.get r = some n → s'.get r = some n := by
  have hrun : prependChild father child type s = some (((s.modify child fun j =>
      { j with jfather := some father }).enter { child, next := f.jchilds, type }).modify father
        fun j => { j with jchilds := some s.childs.length }) := by
    simp only [prependChild, hf, hc, bind, Option.bind_some]
  refine ⟨_, hrun, ?_, ?_, ?_, ?_⟩
  · simp [Store.modify, Store.enter, hf, Ne.symm hne]
  · rw [get_modify_of_ne (by simpa using Ne.symm hne), get_enter_of_ne (by simp)]
    exact get_modify_self _ hc
  · rw [get_modify_of_ne (by simp)]
    exact get_enter_self _ _
  · intro r n hfather hchild hr
    have hentry := ne_of_live hr (get_childs_length s)
    rw [get_modify_of_ne hfather]
    refine (get_enter_of_ne (s := s.modify child _) hentry).trans ?_
    exact (get_modify_of_ne hchild).trans hr

/-- **One turn of the loop**: the copy of a row gets an entry before the others. -/
theorem Filling.step (h : Filling μ s new j A) (hrow : Copied s.get s' k none none L)
    (type : UInt32) :
    ∃ s'' j' A', prependChild new k type s' = some s'' ∧ Filling μ s'' new j' A' ∧
      labels A' = .node (.childs type) L (labels A) ∧ j' = { j with jchilds := j'.jchilds } := by
  obtain ⟨jk, below, rest, ⟨-, hk, hbelow, hrest⟩, ⟨hprev, -, hbackb, hbackr⟩, rfl, hapart⟩ := hrow.row
  have hnew := get_json h.live
  have hne : Ref.json new ≠ .json k := ne_of_live hnew hrow.fresh
  obtain ⟨j₁, hj₁, hlive⟩ := json_of_get (hrow.kept _ _ hnew)
  obtain rfl := Node.json.inj hj₁
  obtain ⟨jk₁, hjk₁, hk'⟩ := json_of_get hk
  obtain rfl := Node.json.inj hjk₁
  obtain ⟨s'', hrun, hfather', hchild', hentry', hkept⟩ :=
    prependChild_spec type hlive hk' fun heq => hne (congrArg Ref.json heq)
  have hentry := none_of_kept hrow.kept (get_childs_length s')
  -- what was there before the row, and the row itself
  have hold : ∀ r n, r ≠ .json new → s.get r = some n → s''.get r = some n := by
    intro r n hrnew hr
    exact hkept r n hrnew (ne_of_live hr hrow.fresh) (hrow.kept r n hr)
  have hmade : ∀ r n, s.get r = none ∧ r ≠ .json k → s'.get r = some n → s''.get r = some n := by
    rintro r n ⟨hr, hrk⟩ hr'
    exact hkept r n (ne_of_live hnew hr).symm hrk hr'
  have hfree : ∀ r, s.get r = none → μ r = none ∧ r ≠ .json new := by
    intro r hr
    exact ⟨none_of_kept h.kept hr, (ne_of_live hnew hr).symm⟩
  refine ⟨s'', { j with jchilds := some s'.childs.length },
    .node (.childs s'.childs.length, .childs { child := k, next := j.jchilds, type })
      (.node (.json k, .json { jk with jfather := some new }) below rest) A, hrun, ?_, rfl, rfl⟩
  constructor
  · intro r n hr
    exact hold r n (ne_of_live hr h.fresh) (h.kept r n hr)
  · exact h.fresh
  · exact hfather'
  · refine ⟨rfl, hentry', ⟨rfl, hchild', ?_, ?_⟩, ?_⟩
    · apply hbelow.kept
      intro r n hr
      exact hmade r n (hapart _ (List.mem_append_left _ hr))
    · apply hrest.kept
      intro r n hr
      exact hmade r n (hapart _ (List.mem_append_right _ hr))
    · apply Forest.Spells.kept h.entries
      intro r n hr
      exact hold r n (h.apart _ hr).2
  · intro a ha
    rcases List.mem_cons.1 ha with rfl | ha
    · exact hfree _ hentry
    · rcases List.mem_append.1 ha with ha | ha
      · rcases List.mem_cons.1 ha with rfl | ha
        · exact hfree _ hrow.fresh
        · exact hfree _ (hapart a ha).1
      · exact h.apart a ha
  · exact ⟨⟨hprev, rfl, hbackb, hbackr⟩, h.backed⟩

/-! ## A new node -/

/-- Beside a memory there is a new node, with a copy of the brothers behind it. -/
structure Started (s s' : Store) (j : Json) (R : Forest (Ref × Node)) : Prop where
  kept : ∀ r n, s.get r = some n → s'.get r = some n
  live : s'.jsons[s.jsons.length]? = some j
  rest : Holds s' R (j.next.map .json)
  apart : ∀ a ∈ R.nodes, s.get a.1 = none ∧ a.1 ≠ .json s.jsons.length
  backed : Backed R (some s.jsons.length) none

theorem kept_push (s : Store) (j : Json) (r : Ref) (n : Node) (hr : s.get r = some n) :
    (s.push j).get r = some n :=
  (get_push_of_ne (ne_of_live hr (get_json_length s))).trans hr

/-- The last of a row has no brothers. -/
theorem started_push (s : Store) (hnext : j.next = none) : Started s (s.push j) j .nil := by
  constructor
  · exact kept_push s j
  · simp [Store.push]
  · rw [hnext]
    rfl
  · intro a ha
    exact absurd ha List.not_mem_nil
  · trivial

/-- **The copy of the brothers** is hung behind the new node. -/
theorem Copied.linkNext (h : Copied (s.push j).get s' k none none L) :
    ∃ R, Started s (linkNext s.jsons.length (s', k)) { j with next := some k } R ∧ labels R = L := by
  obtain ⟨jk, below, rest, ⟨-, hk, hbelow, hrest⟩, ⟨-, hfather, hbackb, hbackr⟩, rfl, hapart⟩ := h.row
  have hpush := get_push_self s j
  have hne : Ref.json s.jsons.length ≠ .json k := ne_of_live hpush h.fresh
  obtain ⟨j₁, hj₁, hlive⟩ := json_of_get (h.kept _ _ hpush)
  obtain rfl := Node.json.inj hj₁
  obtain ⟨jk₁, hjk₁, hk'⟩ := json_of_get hk
  obtain rfl := Node.json.inj hjk₁
  have hkk : s.jsons.length ≠ k := fun heq => hne (congrArg Ref.json heq)
  have hkept : ∀ r n, r ≠ .json s.jsons.length → r ≠ .json k → s'.get r = some n →
      (StructJson.linkNext s.jsons.length (s', k)).get r = some n := by
    intro r n hnew hrk hr
    exact (get_modify_of_ne hrk).trans ((get_modify_of_ne hnew).trans hr)
  have hfree : ∀ r, (s.push j).get r = none → s.get r = none ∧ r ≠ .json s.jsons.length := by
    intro r hr
    exact ⟨none_of_kept (kept_push s j) hr, (ne_of_live hpush hr).symm⟩
  have hmade : ∀ a ∈ below.nodes ++ rest.nodes, ∀ n, s'.get a.1 = some n →
      (StructJson.linkNext s.jsons.length (s', k)).get a.1 = some n := by
    intro a ha n hn
    exact hkept a.1 n (hfree a.1 (hapart a ha).1).2 (hapart a ha).2 hn
  refine ⟨.node (.json k, .json { jk with prev := some s.jsons.length }) below rest, ?_, rfl⟩
  constructor
  · intro r n hr
    have hr' := kept_push s j r n hr
    exact hkept r n (ne_of_live hr (get_json_length s)) (ne_of_live hr' h.fresh) (h.kept r n hr')
  · simp [StructJson.linkNext, Store.modify, hlive, Ne.symm hkk]
  · refine ⟨rfl, ?_, ?_, ?_⟩
    · apply get_modify_self (fun j => { j with prev := some s.jsons.length })
      simp [Store.modify, hk', hkk]
    · apply hbelow.kept
      intro r n hr
      exact hmade _ (List.mem_append_left _ hr) n
    · apply hrest.kept
      intro r n hr
      exact hmade _ (List.mem_append_right _ hr) n
  · intro a ha
    rcases List.mem_cons.1 ha with rfl | ha
    · exact hfree _ h.fresh
    · exact hfree _ (hapart a ha).1
  · exact ⟨rfl, hfather, hbackb, hbackr⟩

/-- The memory without a node. -/
def without (s : Store) (new : Nat) (r : Ref) : Option Node :=
  if r = .json new then none else s.get r

theorem without_some {r : Ref} {n : Node} (h : without s new r = some n) :
    s.get r = some n ∧ r ≠ .json new := by
  unfold without at h
  split at h
  · exact absurd h (by simp)
  · exact ⟨h, ‹_›⟩

theorem without_of_ne {r : Ref} (h : r ≠ .json new) : without s new r = s.get r := if_neg h

/-- A new node has no entries yet. -/
theorem Started.filling {R : Forest (Ref × Node)} (h : Started s s' j R) (hchilds : j.jchilds = none) :
    Filling (without s' s.jsons.length) s' s.jsons.length j .nil := by
  constructor
  · intro r n hr
    exact (without_some hr).1
  · exact if_pos rfl
  · exact h.live
  · rw [hchilds]
    rfl
  · intro a ha
    exact absurd ha List.not_mem_nil
  · trivial

/-- **The new node with its entries** begins a copied row. -/
theorem Started.copied {s'' : Store} {j' : Json} {R : Forest (Ref × Node)} (h : Started s s' j R)
    (hfill : Filling (without s' s.jsons.length) s'' s.jsons.length j' A)
    (hsame : j' = { j with jchilds := j'.jchilds }) (hprev : j.prev = none)
    (hfather : j.jfather = none) :
    Copied s.get s'' s.jsons.length none none
      (.node (.json j.name j.value) (labels A) (labels R)) := by
  have hlive : ∀ r n, s.get r = some n → without s' s.jsons.length r = some n := by
    intro r n hr
    exact (without_of_ne (ne_of_live hr (get_json_length s))).trans (h.kept r n hr)
  constructor
  · intro r n hr
    exact hfill.kept r n (hlive r n hr)
  · exact get_json_length s
  · refine ⟨j', A, R, ⟨rfl, get_json hfill.live, hfill.entries, ?_⟩, ⟨?_, ?_, hfill.backed, h.backed⟩,
      ?_, ?_⟩
    · have hnext : j'.next = j.next := by rw [hsame]
      rw [Node.next, hnext]
      apply Forest.Spells.kept h.rest
      intro r n hr hr'
      exact hfill.kept r n ((without_of_ne (h.apart _ hr).2).trans hr')
    · rw [hsame, hprev]
    · rw [hsame, hfather]
    · rw [labels, Forest.map, Node.label, hsame]
      rfl
    · intro a ha
      rcases List.mem_append.1 ha with ha | ha
      · exact ⟨none_of_kept hlive (hfill.apart a ha).1, (hfill.apart a ha).2⟩
      · exact h.apart a ha

/-! ## The copy -/

/-- **The copy of a row is its mirror image**, and **the loop turns a list of entries round** onto
the list that is there. -/
theorem copy_spec (F : Forest (Ref × Node)) :
    (∀ fuel i s, Holds s F (some (.json i)) → F.height ≤ fuel →
      ∃ s', copyFrom fuel i s = some (s', s.jsons.length) ∧
        Copied s.get s' s.jsons.length none none (mirror (labels F))) ∧
    (∀ fuel new p s μ j A, F.Spells μ Node.child Node.next (p.map .childs) → F.height ≤ fuel →
      Filling μ s new j A →
      ∃ s' j' A', copyChilds fuel new p s = some s' ∧ Filling μ s' new j' A' ∧
        labels A' = turn (labels F) (labels A) ∧ j' = { j with jchilds := j'.jchilds }) := by
  induction F with
  | nil =>
    refine ⟨?_, ?_⟩
    · intro fuel i s h
      exact absurd h (by simp [Holds, Forest.Spells])
    · intro fuel new p s μ j A h _ hfill
      cases p with
      | some p => exact absurd h (by simp [Forest.Spells])
      | none => exact ⟨s, j, A, by cases fuel <;> rfl, hfill, rfl, rfl⟩
  | node a below rest ihb ihr =>
    obtain ⟨r, n⟩ := a
    refine ⟨?_, ?_⟩
    · intro fuel i s h hfuel
      obtain ⟨hr, hn, hbelow, hrest⟩ := h
      obtain rfl := Option.some.inj hr
      obtain ⟨base, rfl, hbase⟩ := json_of_get hn
      obtain ⟨fuel, rfl⟩ := Nat.exists_eq_add_one.2 (Nat.lt_of_lt_of_le (Nat.succ_pos _) hfuel)
      simp only [Forest.height] at hfuel
      -- the node, and its brothers
      obtain ⟨s₁, q, R, hrow, hstarted, hlabelsR⟩ : ∃ s₁ q R,
          (base.next.elim (some (s.push { name := base.name, value := base.value })) fun next =>
            (copyFrom fuel next (s.push { name := base.name, value := base.value })).map
              (linkNext s.jsons.length)) = some s₁ ∧
          Started s s₁ { name := base.name, value := base.value, next := q } R ∧
          labels R = mirror (labels rest) := by
        cases hnext : base.next with
        | none =>
          rw [Node.next, hnext] at hrest
          cases rest with
          | nil => exact ⟨_, none, .nil, rfl, started_push s rfl, rfl⟩
          | node b below' rest' => exact absurd hrest.1 (by simp)
        | some next =>
          rw [Node.next, hnext] at hrest
          obtain ⟨s₁, hcopy, hcopied⟩ := ihr.1 fuel next
            (s.push { name := base.name, value := base.value })
            (hrest.kept fun r n _ => kept_push s _ r n) (by omega)
          obtain ⟨R, hstarted, hlabels⟩ := hcopied.linkNext
          refine ⟨_, _, R, ?_, hstarted, hlabels⟩
          rw [Option.elim_some, hcopy, Option.map_some]
      -- and then the entries
      obtain ⟨s₂, j₂, A, hloop, hfill, hlabelsA, hj₂⟩ := ihb.2 fuel s.jsons.length base.jchilds s₁
        (without s₁ s.jsons.length) _ .nil
        (hbelow.kept fun r n _ hr => (without_of_ne (ne_of_live hr (get_json_length s))).trans
          (hstarted.kept r n hr)) (by omega) (hstarted.filling rfl)
      refine ⟨s₂, ?_, ?_⟩
      · simp only [copyFrom, hbase, hrow, hloop, bind, Option.bind_some]
      · have hcopied := hstarted.copied hfill hj₂ rfl rfl
        rw [hlabelsA, hlabelsR] at hcopied
        exact hcopied
    · intro fuel new p s μ j A h hfuel hfill
      obtain ⟨hr, hn, hbelow, hrest⟩ := h
      obtain ⟨k, rfl, rfl⟩ := Option.map_eq_some_iff.1 hr
      obtain ⟨entry, rfl, hentry⟩ := childs_of_get (hfill.kept _ _ hn)
      obtain ⟨fuel, rfl⟩ := Nat.exists_eq_add_one.2 (Nat.lt_of_lt_of_le (Nat.succ_pos _) hfuel)
      simp only [Forest.height] at hfuel
      -- the row of the entry is copied, and gets an entry
      obtain ⟨s₁, hcopy, hcopied⟩ := ihb.1 fuel entry.child s
        (hbelow.kept fun r n _ => hfill.kept r n) (by omega)
      obtain ⟨s₂, j₂, A₂, hprepend, hfill₂, hlabels₂, hj₂⟩ := hfill.step hcopied entry.type
      -- and then the other entries
      obtain ⟨s₃, j₃, A₃, hloop, hfill₃, hlabels₃, hj₃⟩ :=
        ihr.2 fuel new entry.next s₂ μ j₂ A₂ hrest (by omega) hfill₂
      refine ⟨s₃, j₃, A₃, ?_, hfill₃, ?_, ?_⟩
      · simp only [copyChilds, hentry, hcopy, hprepend, hloop, bind, Option.bind_some]
      · rw [hlabels₃, hlabels₂]
        rfl
      · rw [hj₃, hj₂]

/-- **`json_copy`** of a tree returns its mirror image, with its links back, and leaves what there
is. -/
theorem jsonCopy_mirror (h : Holds s F (some (.json i))) :
    ∃ s' F', jsonCopy i s = some (s', s.jsons.length) ∧
      (∀ r n, s.get r = some n → s'.get r = some n) ∧
      Holds s' F' (some (.json s.jsons.length)) ∧ labels F' = mirror (labels F) ∧
      Backed F' none none := by
  obtain ⟨s', hcopy, hcopied⟩ := (copy_spec F).1 s.size i s h h.height_le
  obtain ⟨j, below, rest, hholds, hbacked, hlabels, -⟩ := hcopied.row
  exact ⟨s', _, hcopy, hcopied.kept, hholds, hlabels, hbacked⟩

/-- **Whatever has been built** can be copied, from every node on. -/
theorem Built.jsonCopy_total (h : Built s) (hj : s.jsons[i]? = some j) :
    ∃ s', jsonCopy i s = some (s', s.jsons.length) := by
  obtain ⟨F, hF⟩ := h.holds hj
  obtain ⟨s', -, hcopy, -⟩ := jsonCopy_mirror hF
  exact ⟨s', hcopy⟩

/-! ## Trees that are their mirror image -/

/-- No list has more than one entry. -/
def Single : Forest Label → Prop
  | .nil => True
  | .node (.json _ _) entries next => Single entries ∧ Single next
  | .node (.childs _) row rest => Single row ∧ rest = .nil

theorem mirror_of_single (h : Single L) : mirror L = L := by
  induction L with
  | nil => rfl
  | node a below rest ihb ihr =>
    cases a with
    | json name value =>
      have hbelow := ihb h.1
      have hrest := ihr h.2
      rw [mirror] at hbelow hrest ⊢
      rw [turn, hbelow, hrest]
    | childs type =>
      obtain ⟨hrow, rfl⟩ := h
      have hbelow := ihb hrow
      rw [mirror] at hbelow ⊢
      rw [turn, hbelow, turn]

/-- **The copy has the same names, values and types in the same order exactly if the tree is its own
mirror image.** -/
theorem copiesRight_iff (h : Holds s F (some (.json i))) :
    CopiesRight s i F ↔ mirror (labels F) = labels F := by
  obtain ⟨s', F', hcopy, -, hholds, hlabels, hbacked⟩ := jsonCopy_mirror h
  constructor
  · rintro ⟨s₁, new, F₁, hcopy₁, hholds₁, hlabels₁, -⟩
    obtain ⟨rfl, rfl⟩ := Prod.mk.inj (Option.some.inj (hcopy.symm.trans hcopy₁))
    rw [← hlabels, ← hlabels₁, Forest.Spells.unique hholds hholds₁]
  · intro hmirror
    exact ⟨s', _, F', hcopy, hholds, hlabels.trans hmirror, hbacked⟩

end

/-- `t` with two children that are spelled alike, both in arrays. -/
def twinStore : Store where
  jsons := [{ name := [116], value := [], jchilds := some 1 },
    { name := [97], value := [49], jfather := some 0 },
    { name := [97], value := [49], jfather := some 0 }]
  childs := [{ child := 1, next := none, type := 0 }, { child := 2, next := some 0, type := 0 }]

/-- The tree of `t` and the two. -/
def twinForest : Forest (Ref × Node) :=
  .node (.json 0, .json { name := [116], value := [], jchilds := some 1 })
    (.node (.childs 1, .childs { child := 2, next := some 0, type := 0 })
      (.node (.json 2, .json { name := [97], value := [49], jfather := some 0 }) .nil .nil)
      (.node (.childs 0, .childs { child := 1, next := none, type := 0 })
        (.node (.json 1, .json { name := [97], value := [49], jfather := some 0 }) .nil .nil) .nil))
    .nil

theorem holds_twin : Holds twinStore twinForest (some (.json 0)) :=
  ⟨rfl, rfl, ⟨rfl, rfl, ⟨rfl, rfl, rfl, rfl⟩, ⟨rfl, rfl, ⟨rfl, rfl, rfl, rfl⟩, rfl⟩⟩, rfl⟩

/-- Turned round, the list of two equal leaves is what it was. -/
theorem copiesRight_twin : CopiesRight twinStore 0 twinForest :=
  (copiesRight_iff holds_twin).2 rfl

/-- `t` with the children `a` and `b`, attached in this order: `b` is the first entry. -/
def twoForest : Forest (Ref × Node) :=
  .node (.json 0, .json { name := [116], value := [], jchilds := some 1 })
    (.node (.childs 1, .childs { child := 2, next := some 0, type := 1 })
      (.node (.json 2, .json { name := [98], value := [], jfather := some 0 }) .nil .nil)
      (.node (.childs 0, .childs { child := 1, next := none, type := 0 })
        (.node (.json 1, .json { name := [97], value := [], jfather := some 0 }) .nil .nil) .nil))
    .nil

/-- The memory with `t`, `a` and `b`, before and behind the first `n` attachments. -/
def twoStore : Nat → Store
  | 0 => { jsons := [{ name := [116], value := [] }, { name := [97], value := [] },
      { name := [98], value := [] }] }
  | 1 => {
      jsons := [{ name := [116], value := [], jchilds := some 0 },
        { name := [97], value := [], jfather := some 0 }, { name := [98], value := [] }]
      childs := [{ child := 1, next := none, type := 0 }] }
  | _ => {
      jsons := [{ name := [116], value := [], jchilds := some 1 },
        { name := [97], value := [], jfather := some 0 },
        { name := [98], value := [], jfather := some 0 }]
      childs := [{ child := 1, next := none, type := 0 },
        { child := 2, next := some 0, type := 1 }] }

/-- The three nodes are made and attached. -/
theorem built_two : Built (twoStore 2) := by
  have hmade : Built (twoStore 0) :=
    .call (.setJson [98] none none) (.call (.setJson [97] none none)
      (.call (.setJson [116] none none) .empty trivial rfl) trivial rfl) trivial rfl
  have hfirst : Built (twoStore 1) := by
    refine .call (.jsonAttach 0 1 0) hmade ?_ rfl
    refine Holds.apart (F := .node (.json 0, .json { name := [116], value := [] }) .nil .nil)
      (G := .node (.json 1, .json { name := [97], value := [] }) .nil .nil)
      ⟨rfl, rfl, rfl, rfl⟩ ⟨rfl, rfl, rfl, rfl⟩ (by decide)
  refine .call (.jsonAttach 0 2 1) hfirst ?_ rfl
  refine Holds.apart
    (F := .node (.json 0, .json { name := [116], value := [], jchilds := some 0 })
      (.node (.childs 0, .childs { child := 1, next := none, type := 0 })
        (.node (.json 1, .json { name := [97], value := [], jfather := some 0 }) .nil .nil) .nil)
      .nil)
    (G := .node (.json 2, .json { name := [98], value := [] }) .nil .nil)
    ⟨rfl, rfl, ⟨rfl, rfl, ⟨rfl, rfl, rfl, rfl⟩, rfl⟩, rfl⟩ ⟨rfl, rfl, rfl, rfl⟩ (by decide)

/-- What `json_copy` makes beside them. -/
def twoCopy : Store where
  jsons := (twoStore 2).jsons ++ [{ name := [116], value := [], jchilds := some 3 },
    { name := [98], value := [], jfather := some 3 },
    { name := [97], value := [], jfather := some 3 }]
  childs := (twoStore 2).childs ++ [{ child := 4, next := none, type := 1 },
    { child := 5, next := some 2, type := 0 }]

/-- The copy has `a` before `b`. -/
theorem copy_two_reversed :
    Built (twoStore 2) ∧ Holds (twoStore 2) twoForest (some (.json 0)) ∧
      ¬ CopiesRight (twoStore 2) 0 twoForest := by
  refine ⟨built_two, ⟨rfl, rfl, ⟨rfl, rfl, ⟨rfl, rfl, rfl, rfl⟩, ⟨rfl, rfl, ⟨rfl, rfl, rfl, rfl⟩,
    rfl⟩⟩, rfl⟩, ?_⟩
  rintro ⟨s', new, F', hcopy, hholds, hlabels, -⟩
  have hrun : jsonCopy 0 (twoStore 2) = some (twoCopy, 3) := rfl
  obtain ⟨rfl, rfl⟩ := Prod.mk.inj (Option.some.inj (hrun.symm.trans hcopy))
  have hreversed : Holds twoCopy
      (.node (.json 3, .json { name := [116], value := [], jchilds := some 3 })
      (.node (.childs 3, .childs { child := 5, next := some 2, type := 0 })
        (.node (.json 5, .json { name := [97], value := [], jfather := some 3 }) .nil .nil)
        (.node (.childs 2, .childs { child := 4, next := none, type := 1 })
          (.node (.json 4, .json { name := [98], value := [], jfather := some 3 }) .nil .nil) .nil))
      .nil) (some (.json 3)) :=
    ⟨rfl, rfl, ⟨rfl, rfl, ⟨rfl, rfl, rfl, rfl⟩, ⟨rfl, rfl, ⟨rfl, rfl, rfl, rfl⟩, rfl⟩⟩, rfl⟩
  rw [Forest.Spells.unique hholds hreversed] at hlabels
  exact absurd (congrArg Forest.nodes hlabels) (by decide)

end Ape.StructJson
