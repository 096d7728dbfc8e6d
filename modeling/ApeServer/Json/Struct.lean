import ApeServer.Lib.Forest
import Mathlib.Data.UInt

/-!
# The trees of `struct json`

The older trees of `ape_json.c`: a node has a name, a value, its brothers in a row with links both
ways, and a list of entries, each with the first node of a row of children.  `set_json` puts a new
node before a row, `json_attach` an entry before the entries of a father, and `json_concat` a row
behind another.

* `Json`, `JsonChilds`, `Store` — the nodes, the entries, and the memory they are in;
* `setJson`, `jsonAttach`, `jsonConcat` — the functions that build;
* `Sound` — links lead to what is there, and no path of them is endless;
* `Built.holds` — **what has been built is a tree**.
-/

namespace Ape.StructJson

open Relation

/-! ## Nodes and entries -/

/-- `struct json`; the buffer of an empty value is null. -/
structure Json where
  name : List UInt8
  value : List UInt8
  jchilds : Option Nat := none
  jfather : Option Nat := none
  next : Option Nat := none
  prev : Option Nat := none
  deriving DecidableEq

/-- `struct json_childs`. -/
structure JsonChilds where
  child : Nat
  next : Option Nat
  type : UInt32
  deriving DecidableEq

/-- The nodes and the entries, in the order they were allocated. -/
structure Store where
  jsons : List Json := []
  childs : List JsonChilds := []
  deriving DecidableEq

/-- A pointer to a node or to an entry. -/
inductive Ref
  | json (i : Nat)
  | childs (i : Nat)
  deriving DecidableEq

/-- What a pointer leads to. -/
inductive Node
  | json (j : Json)
  | childs (c : JsonChilds)
  deriving DecidableEq

/-- Below a node are its entries, below an entry its row of children. -/
def Node.child : Node → Option Ref
  | .json j => j.jchilds.map .childs
  | .childs c => some (.json c.child)

/-- The next brother, or the next entry. -/
def Node.next : Node → Option Ref
  | .json j => j.next.map .json
  | .childs c => c.next.map .childs

/-- What is at an address. -/
def Store.get (s : Store) : Ref → Option Node
  | .json i => s.jsons[i]?.map .json
  | .childs i => s.childs[i]?.map .childs

/-- The nodes from a pointer on are those of a forest. -/
def Holds (s : Store) (F : Forest (Ref × Node)) (p : Option Ref) : Prop :=
  F.Spells s.get Node.child Node.next p

/-- One link. -/
def Link (s : Store) : Ref → Ref → Prop := Forest.Points s.get Node.child Node.next

/-- What is found over links. -/
def Reach (s : Store) : Ref → Ref → Prop := ReflTransGen (Link s)

/-! ## The functions that build -/

/-- An allocated node. -/
def Store.push (j : Json) (s : Store) : Store := { s with jsons := s.jsons ++ [j] }

/-- A store into a node. -/
def Store.modify (i : Nat) (f : Json → Json) (s : Store) : Store :=
  { s with jsons := s.jsons.modify i f }

/-- An allocated entry. -/
def Store.enter (c : JsonChilds) (s : Store) : Store := { s with childs := s.childs ++ [c] }

/-- How many nodes and entries there are. -/
def Store.size (s : Store) : Nat := s.jsons.length + s.childs.length

/-- `set_json`: a new node before the row `*jprev`, that then begins with it.  The strings end with
their first zero. -/
def setJson (name : List UInt8) (value : Option (List UInt8)) (jprev : Option Nat) (s : Store) :
    Option (Store × Nat) :=
  let new := s.jsons.length
  let made := s.push
    { name := name.takeWhile (· ≠ 0), value := (value.getD []).takeWhile (· ≠ 0), next := jprev }
  match jprev with
  | none => some (made, new)
  | some old => do
    let _ ← s.jsons[old]?
    some (made.modify old fun j => { j with prev := some new }, new)

/-- A new entry before the entries of a father, and the link back: `json_attach`, and the lines of
the loop in `json_copy`. -/
def prependChild (father child : Nat) (type : UInt32) (s : Store) : Option Store := do
  let f ← s.jsons[father]?
  let _ ← s.jsons[child]?
  let nchild := s.childs.length
  let linked := s.modify child fun j => { j with jfather := some father }
  let made := linked.enter { child, next := f.jchilds, type }
  some (made.modify father fun j => { j with jchilds := some nchild })

/-- `json_attach`. -/
def jsonAttach (father child : Nat) (type : UInt32) (s : Store) : Option Store :=
  prependChild father child type s

/-- The last node of a row, from the pointer `jTmp` on: the loop of `json_concat`. -/
def lastOf : Nat → Nat → Store → Option Nat
  | 0, _, _ => none
  | fuel + 1, jTmp, s => do
    let j ← s.jsons[jTmp]?
    match j.next with
    | none => some jTmp
    | some next => lastOf fuel next s

/-- The node behind which `json_concat` puts the child. -/
def concatPlace (father : Nat) (s : Store) : Option Nat := do
  let f ← s.jsons[father]?
  match f.next with
  | none => some father
  | some jTmp => lastOf s.size jTmp s

/-- `json_concat`: a row behind another. -/
def jsonConcat (father child : Nat) (s : Store) : Option Store := do
  let last ← concatPlace father s
  let _ ← s.jsons[child]?
  some ((s.modify last fun j => { j with next := some child }).modify child
    fun j => { j with prev := some last })

/-! ## What is at an address -/

section

variable {s : Store} {i : Nat} {r : Ref}

theorem get_json {j : Json} (h : s.jsons[i]? = some j) : s.get (.json i) = some (.json j) :=
  congrArg (Option.map Node.json) h

theorem json_of_get {n : Node} (h : s.get (.json i) = some n) :
    ∃ j, n = .json j ∧ s.jsons[i]? = some j := by
  obtain ⟨j, hj, rfl⟩ := Option.map_eq_some_iff.1 h
  exact ⟨j, rfl, hj⟩

theorem childs_of_get {n : Node} (h : s.get (.childs i) = some n) :
    ∃ c, n = .childs c ∧ s.childs[i]? = some c := by
  obtain ⟨c, hc, rfl⟩ := Option.map_eq_some_iff.1 h
  exact ⟨c, rfl, hc⟩

/-- The next addresses are not taken. -/
theorem get_json_length (s : Store) : s.get (.json s.jsons.length) = none := by
  simp [Store.get]

theorem get_childs_length (s : Store) : s.get (.childs s.childs.length) = none := by
  simp [Store.get]

@[simp] theorem get_push_self (s : Store) (j : Json) :
    (s.push j).get (.json s.jsons.length) = some (.json j) := by
  simp [Store.get, Store.push]

theorem get_push_of_ne {j : Json} (h : r ≠ .json s.jsons.length) : (s.push j).get r = s.get r := by
  cases r with
  | childs i => rfl
  | json i =>
    have hi : i ≠ s.jsons.length := fun heq => h (congrArg Ref.json heq)
    simp only [Store.get, Store.push]
    rw [List.getElem?_append]
    split
    · rfl
    · rw [List.getElem?_eq_none (by simp; omega), List.getElem?_eq_none (by omega)]

@[simp] theorem get_enter_self (s : Store) (c : JsonChilds) :
    (s.enter c).get (.childs s.childs.length) = some (.childs c) := by
  simp [Store.get, Store.enter]

theorem get_enter_of_ne {c : JsonChilds} (h : r ≠ .childs s.childs.length) :
    (s.enter c).get r = s.get r := by
  cases r with
  | json i => rfl
  | childs i =>
    have hi : i ≠ s.childs.length := fun heq => h (congrArg Ref.childs heq)
    simp only [Store.get, Store.enter]
    rw [List.getElem?_append]
    split
    · rfl
    · rw [List.getElem?_eq_none (by simp; omega), List.getElem?_eq_none (by omega)]

theorem get_modify_self {j : Json} (f : Json → Json) (h : s.jsons[i]? = some j) :
    (s.modify i f).get (.json i) = some (.json (f j)) := by
  simp [Store.get, Store.modify, h]

theorem get_modify_of_ne {f : Json → Json} (h : r ≠ .json i) : (s.modify i f).get r = s.get r := by
  cases r with
  | childs k => rfl
  | json k =>
    have hk : i ≠ k := fun heq => h (congrArg Ref.json heq.symm)
    simp only [Store.get, Store.modify]
    rw [List.getElem?_modify_ne _ _ hk]

end

/-! ## Links that do not go astray -/

/-- Links lead to what is there, and no path of them is endless. -/
structure Sound (s : Store) : Prop where
  live : ∀ a b, Link s a b → ∃ n, s.get b = some n
  grounded : ∀ a, Forest.Grounded s.get Node.child Node.next a

/-- The trees below two pointers have nothing in common. -/
def Apart (s : Store) (a b : Ref) : Prop := ∀ r, Reach s a r → ¬ Reach s b r

section

variable {s s' : Store} {a b x : Ref} {i : Nat}

theorem link_json {j : Json} (h : s.jsons[i]? = some j) :
    Link s (.json i) b ↔ j.jchilds.map Ref.childs = some b ∨ j.next.map Ref.json = some b := by
  constructor
  · rintro ⟨n, hn, hb⟩
    obtain rfl := Option.some.inj ((get_json h).symm.trans hn)
    exact hb
  · intro hb
    exact ⟨_, get_json h, hb⟩

theorem link_congr (h : s'.get a = s.get a) : Link s' a b ↔ Link s a b := by
  simp only [Link, Forest.Points, h]

/-- A store into a node that leaves its links alone. -/
theorem link_modify {f : Json → Json} (hchilds : ∀ j, (f j).jchilds = j.jchilds)
    (hnext : ∀ j, (f j).next = j.next) : Link (s.modify i f) a b ↔ Link s a b := by
  by_cases ha : a = .json i
  · subst ha
    cases hj : s.jsons[i]? with
    | none =>
      refine iff_of_false ?_ ?_
      · rintro ⟨n, hn, -⟩
        simp [Store.get, Store.modify, hj] at hn
      · rintro ⟨n, hn, -⟩
        simp [Store.get, hj] at hn
    | some j =>
      have hj' : (s.modify i f).jsons[i]? = some (f j) := by simp [Store.modify, hj]
      rw [link_json hj, link_json hj', hchilds, hnext]
  · exact link_congr (get_modify_of_ne ha)

/-- A store to one node leaves every node in memory. -/
theorem get_modify_isSome {f : Json → Json} {n : Node} (h : s.get a = some n) :
    ∃ n', (s.modify i f).get a = some n' := by
  by_cases ha : a = .json i
  · subst ha
    obtain ⟨j, rfl, hj⟩ := json_of_get h
    exact ⟨_, get_modify_self f hj⟩
  · exact ⟨n, (get_modify_of_ne ha).trans h⟩

theorem Sound.reach_live (h : Sound s) (ha : ∃ n, s.get a = some n) (hreach : Reach s a b) :
    ∃ n, s.get b = some n := by
  induction hreach with
  | refl => exact ha
  | tail _ hlink _ => exact h.live _ _ hlink

/-- **A store** into a node that leaves its links alone. -/
theorem Sound.modify (h : Sound s) {f : Json → Json} (hchilds : ∀ j, (f j).jchilds = j.jchilds)
    (hnext : ∀ j, (f j).next = j.next) : Sound (s.modify i f) := by
  refine ⟨?_, ?_⟩
  · intro a b hlink
    obtain ⟨n, hn⟩ := h.live a b ((link_modify hchilds hnext).1 hlink)
    exact get_modify_isSome hn
  · intro a
    exact (h.grounded a).mono fun a b hlink => (link_modify hchilds hnext).1 hlink

/-- **A new node**, with links to what is there. -/
theorem Sound.fresh (h : Sound s) (hx : s.get x = none) (hsame : ∀ a, a ≠ x → s'.get a = s.get a)
    (hlinks : ∀ b, Link s' x b → ∃ n, s.get b = some n) : Sound s' := by
  have hlive : ∀ a b, Link s' a b → ∃ n, s.get b = some n := by
    intro a b hlink
    by_cases ha : a = x
    · subst ha
      exact hlinks b hlink
    · exact h.live a b ((link_congr (hsame a ha)).1 hlink)
  refine ⟨?_, ?_⟩
  · intro a b hlink
    obtain ⟨n, hn⟩ := hlive a b hlink
    have hb : b ≠ x := by
      rintro rfl
      exact absurd (hx.symm.trans hn) (by simp)
    exact ⟨n, (hsame b hb).trans hn⟩
  · apply Forest.Grounded.root h.grounded
    · intro a b ha hlink
      exact (link_congr (hsame a ha)).1 hlink
    · intro a hlink
      obtain ⟨n, hn⟩ := hlive a x hlink
      exact absurd (hx.symm.trans hn) (by simp)

/-- From what was there, a new node is not found. -/
theorem Sound.reach_fresh (h : Sound s) (hx : s.get x = none)
    (hsame : ∀ a, a ≠ x → s'.get a = s.get a) (ha : ∃ n, s.get a = some n) (hreach : Reach s' a b) :
    Reach s a b := by
  induction hreach with
  | refl => exact .refl
  | @tail c d _ hlink ih =>
    obtain ⟨n, hn⟩ := h.reach_live ha ih
    have hc : c ≠ x := by
      rintro rfl
      exact absurd (hx.symm.trans hn) (by simp)
    exact ih.tail ((link_congr (hsame c hc)).1 hlink)

/-- **One more link**, to where the node is not found from. -/
theorem Sound.graft (h : Sound s) {f : Json → Json} {v : Ref}
    (hlinks : ∀ b, Link (s.modify i f) (.json i) b → Link s (.json i) b ∨ b = v)
    (hv : ∃ n, s.get v = some n) (hfar : ¬ Reach s v (.json i)) : Sound (s.modify i f) := by
  have hall : ∀ a b, Link (s.modify i f) a b → Link s a b ∨ (a = .json i ∧ b = v) := by
    intro a b hlink
    by_cases ha : a = .json i
    · subst ha
      exact (hlinks b hlink).imp id fun hb => ⟨rfl, hb⟩
    · exact .inl ((link_congr (get_modify_of_ne ha)).1 hlink)
  refine ⟨?_, ?_⟩
  · intro a b hlink
    rcases hall a b hlink with hold | ⟨-, rfl⟩
    · obtain ⟨n, hn⟩ := h.live a b hold
      exact get_modify_isSome hn
    · obtain ⟨n, hn⟩ := hv
      exact get_modify_isSome hn
  · exact Forest.Grounded.graft h.grounded hall hfar

end

/-! ## Trees that are built -/

/-- A call of a function that builds. -/
inductive Call
  | setJson (name : List UInt8) (value : Option (List UInt8)) (jprev : Option Nat)
  | jsonAttach (father child : Nat) (type : UInt32)
  | jsonConcat (father child : Nat)

/-- What a call does to the memory. -/
def Call.run : Call → Store → Option Store
  | setJson name value jprev, s => (StructJson.setJson name value jprev s).map Prod.fst
  | jsonAttach father child type, s => StructJson.jsonAttach father child type s
  | jsonConcat father child, s => StructJson.jsonConcat father child s

/-- A tree is hung on another one, not on itself. -/
def Call.Hangs : Call → Store → Prop
  | setJson _ _ _, _ => True
  | jsonAttach father child _, s => Apart s (.json father) (.json child)
  | jsonConcat father child, s => Apart s (.json father) (.json child)

/-- The memories that calls make of the empty one. -/
inductive Built : Store → Prop
  | empty : Built {}
  | call {s s' : Store} (c : Call) : Built s → c.Hangs s → c.run s = some s' → Built s'

section

variable {s s' : Store} {father child i : Nat}

theorem sound_empty : Sound {} := by
  have hnone : ∀ a b, ¬ Link {} a b := by
    rintro a b ⟨n, hn, -⟩
    cases a <;> simp [Store.get] at hn
  refine ⟨fun a b hlink => absurd hlink (hnone a b), ?_⟩
  exact fun a => Acc.intro a fun b hlink => absurd hlink (hnone a b)

/-- The last node of a row is found from its first. -/
theorem lastOf_spec {fuel jTmp last : Nat} (h : lastOf fuel jTmp s = some last) :
    Reach s (.json jTmp) (.json last) := by
  induction fuel generalizing jTmp with
  | zero => exact absurd h (by simp [lastOf])
  | succ fuel ih =>
    rw [lastOf] at h
    obtain ⟨j, hj, h⟩ := Option.bind_eq_some_iff.1 h
    cases hnext : j.next with
    | none =>
      rw [hnext] at h
      obtain rfl := Option.some.inj h
      exact .refl
    | some next =>
      rw [hnext] at h
      refine .head ((link_json hj).2 (.inr ?_)) (ih h)
      rw [hnext]
      rfl

/-- **A new node before a row** leaves the store sound. -/
theorem Sound.setJson (h : Sound s) {name : List UInt8} {value : Option (List UInt8)}
    {jprev : Option Nat} {new : Nat} (hrun : setJson name value jprev s = some (s', new)) :
    Sound s' := by
  have hpush : ∀ j : Json, j.jchilds = none →
      (∀ old, j.next = some old → ∃ n, s.get (.json old) = some n) → Sound (s.push j) := by
    intro j hchilds hnext
    apply h.fresh (get_json_length s) fun a ha => get_push_of_ne ha
    rintro b ⟨n, hn, hb⟩
    obtain rfl := Option.some.inj ((get_push_self s j).symm.trans hn)
    rcases hb with hb | hb
    · simp [Node.child, hchilds] at hb
    · obtain ⟨old, hold, rfl⟩ := Option.map_eq_some_iff.1 hb
      exact hnext old hold
  cases jprev with
  | none =>
    obtain ⟨rfl, -⟩ := Prod.mk.inj (Option.some.inj hrun)
    exact hpush _ rfl fun old hold => absurd hold (by simp)
  | some old =>
    obtain ⟨j, hj, hrun⟩ := Option.bind_eq_some_iff.1 hrun
    obtain ⟨rfl, -⟩ := Prod.mk.inj (Option.some.inj hrun)
    refine Sound.modify (hpush _ rfl ?_) (fun _ => rfl) fun _ => rfl
    intro old' hold
    obtain rfl := Option.some.inj hold
    exact ⟨_, get_json hj⟩

/-- An entry before the entries of a father. -/
theorem Sound.link_entry (h : Sound s) {f : Json} {c : JsonChilds} (hf : s.jsons[father]? = some f)
    (hnext : c.next = f.jchilds) (hchild : ∃ n, s.get (.json c.child) = some n)
    (hfar : ¬ Reach s (.json c.child) (.json father)) :
    Sound ((s.enter c).modify father fun j => { j with jchilds := some s.childs.length }) := by
  have hsame := fun r (hr : r ≠ Ref.childs s.childs.length) => get_enter_of_ne (c := c) hr
  -- the entry leads to the child, and to the entry before
  have hentry : ∀ b, Link (s.enter c) (.childs s.childs.length) b →
      b = .json c.child ∨ Link s (.json father) b := by
    rintro b ⟨n, hn, hb⟩
    obtain rfl := Option.some.inj ((get_enter_self s c).symm.trans hn)
    rcases hb with hb | hb
    · exact .inl (Option.some.inj hb).symm
    · refine .inr ((link_json hf).2 (.inl ?_))
      rw [← hnext]
      exact hb
  have hlive : ∀ b, Link (s.enter c) (.childs s.childs.length) b → ∃ n, s.get b = some n := by
    intro b hb
    rcases hentry b hb with rfl | hb
    · exact hchild
    · exact h.live _ _ hb
  have hentered := h.fresh (get_childs_length s) hsame hlive
  refine hentered.graft (v := .childs s.childs.length) ?_ ⟨_, get_enter_self s c⟩ ?_
  · intro b hb
    have hj : ((s.enter c).modify father fun j => { j with jchilds := some s.childs.length }).jsons[
        father]? = some { f with jchilds := some s.childs.length } := by
      simp [Store.modify, Store.enter, hf]
    rcases (link_json hj).1 hb with hb | hb
    · exact .inr (Option.some.inj hb).symm
    · exact .inl ((link_json (s := s.enter c) hf).2 (.inr hb))
  · intro hback
    rcases ReflTransGen.cases_head hback with heq | ⟨b, hb, hback⟩
    · exact absurd heq (by simp)
    · have hback := h.reach_fresh (get_childs_length s) hsame (hlive b hb) hback
      rcases hentry b hb with rfl | hb
      · exact hfar hback
      · exact (h.grounded _).not_cycle (TransGen.head'_iff.2 ⟨b, hb, hback⟩)

/-- **`json_attach`** of a tree to another one. -/
theorem Sound.jsonAttach (h : Sound s) {type : UInt32}
    (hrun : jsonAttach father child type s = some s')
    (hapart : Apart s (.json father) (.json child)) : Sound s' := by
  obtain ⟨f, hf, hrun⟩ := Option.bind_eq_some_iff.1 hrun
  obtain ⟨j, hj, hrun⟩ := Option.bind_eq_some_iff.1 hrun
  obtain rfl := Option.some.inj hrun
  have hne : father ≠ child := by
    rintro rfl
    exact hapart _ .refl .refl
  have hlinked : Sound (s.modify child fun j => { j with jfather := some father }) :=
    h.modify (fun _ => rfl) fun _ => rfl
  refine hlinked.link_entry (f := f) ?_ rfl (get_modify_isSome (get_json hj)) ?_
  · simp only [Store.modify]
    rw [List.getElem?_modify_ne _ _ (Ne.symm hne)]
    exact hf
  · intro hreach
    refine hapart _ .refl (ReflTransGen.mono ?_ _ _ hreach)
    intro a b hlink
    exact (link_modify (by intro j; rfl) (by intro j; rfl)).1 hlink

/-- **`json_concat`** of a tree to another one. -/
theorem Sound.jsonConcat (h : Sound s) (hrun : jsonConcat father child s = some s')
    (hapart : Apart s (.json father) (.json child)) : Sound s' := by
  obtain ⟨last, hlast, hrun⟩ := Option.bind_eq_some_iff.1 hrun
  obtain ⟨j, hj, hrun⟩ := Option.bind_eq_some_iff.1 hrun
  obtain rfl := Option.some.inj hrun
  obtain ⟨f, hf, hlast⟩ := Option.bind_eq_some_iff.1 hlast
  have hreach : Reach s (.json father) (.json last) := by
    cases hnext : f.next with
    | none =>
      rw [hnext] at hlast
      obtain rfl := Option.some.inj hlast
      exact .refl
    | some jTmp =>
      rw [hnext] at hlast
      refine .head ((link_json hf).2 (.inr ?_)) (lastOf_spec hlast)
      rw [hnext]
      rfl
  obtain ⟨l, hl⟩ : ∃ l, s.jsons[last]? = some l := by
    obtain ⟨n, hn⟩ := h.reach_live ⟨_, get_json hf⟩ hreach
    obtain ⟨l, -, hl⟩ := json_of_get hn
    exact ⟨l, hl⟩
  refine Sound.modify (h.graft (v := .json child) ?_ ⟨_, get_json hj⟩ (hapart _ hreach))
    (fun _ => rfl) fun _ => rfl
  intro b hb
  have hl' : (s.modify last fun j => { j with next := some child }).jsons[last]? =
      some { l with next := some child } := by
    simp [Store.modify, hl]
  rcases (link_json hl').1 hb with hb | hb
  · exact .inl ((link_json hl).2 (.inl hb))
  · exact .inr (Option.some.inj hb).symm

/-- **What is built is sound.** -/
theorem Built.sound (h : Built s) : Sound s := by
  induction h with
  | empty => exact sound_empty
  | @call s s' c _ hhangs hrun ih =>
    cases c with
    | setJson name value jprev =>
      obtain ⟨⟨s₁, new⟩, hset, rfl⟩ := Option.map_eq_some_iff.1 hrun
      exact ih.setJson hset
    | jsonAttach father child type => exact ih.jsonAttach hrun hhangs
    | jsonConcat father child => exact ih.jsonConcat hrun hhangs

/-- There are as many addresses as nodes and entries. -/
theorem exists_addresses (s : Store) :
    ∃ S : Finset Ref, S.card ≤ s.size ∧ ∀ r n, s.get r = some n → r ∈ S := by
  refine ⟨(Finset.range s.jsons.length).image .json ∪ (Finset.range s.childs.length).image .childs,
    ?_, ?_⟩
  · refine (Finset.card_union_le _ _).trans (Nat.add_le_add ?_ ?_)
    · exact Finset.card_image_le.trans_eq (Finset.card_range _)
    · exact Finset.card_image_le.trans_eq (Finset.card_range _)
  · intro r n hn
    cases r with
    | json i =>
      obtain ⟨j, -, hj⟩ := json_of_get hn
      refine Finset.mem_union_left _ (Finset.mem_image_of_mem _ ?_)
      exact Finset.mem_range.2 (List.getElem?_eq_some_iff.1 hj).1
    | childs i =>
      obtain ⟨c, -, hc⟩ := childs_of_get hn
      refine Finset.mem_union_right _ (Finset.mem_image_of_mem _ ?_)
      exact Finset.mem_range.2 (List.getElem?_eq_some_iff.1 hc).1

/-- A forest is no higher than there are nodes and entries. -/
theorem Holds.height_le {F : Forest (Ref × Node)} {p : Option Ref} (h : Holds s F p) :
    F.height ≤ s.size := by
  obtain ⟨S, hcard, hS⟩ := exists_addresses s
  exact (Forest.Spells.height_le h S hS).trans hcard

/-- In a sound memory every node is the first of a forest. -/
theorem Sound.exists_holds (h : Sound s) {n : Node} {r : Ref} (hr : s.get r = some n) :
    ∃ F, Holds s F (some r) := by
  obtain ⟨S, -, hS⟩ := exists_addresses s
  obtain ⟨F, hF, -⟩ := (h.grounded r).exists_spells (S.filter fun b => (s.get b).isSome)
    (fun b hb => by
      obtain ⟨n, hn⟩ := h.reach_live ⟨n, hr⟩ hb
      exact Finset.mem_filter.2 ⟨hS b n hn, Option.isSome_iff_exists.2 ⟨n, hn⟩⟩)
    (fun b hb => Option.isSome_iff_exists.1 (Finset.mem_filter.1 hb).2)
  exact ⟨F, hF⟩

/-- **What has been built is a tree**, from every node on. -/
theorem Built.holds (h : Built s) {j : Json} (hj : s.jsons[i]? = some j) :
    ∃ F, Holds s F (some (.json i)) := h.sound.exists_holds (get_json hj)

/-- Trees with different addresses have nothing in common. -/
theorem Holds.apart {F G : Forest (Ref × Node)} {a b : Ref} (h : Holds s F (some a))
    (h' : Holds s G (some b)) (hne : ∀ x ∈ F.nodes, ∀ y ∈ G.nodes, x.1 ≠ y.1) : Apart s a b := by
  intro r ha hb
  obtain ⟨n, hx⟩ := Forest.Spells.reach_mem h ha
  obtain ⟨m, hy⟩ := Forest.Spells.reach_mem h' hb
  exact hne _ hx _ hy rfl

/-- The loop of `json_concat` comes to the last node. -/
theorem Holds.lastOf {F : Forest (Ref × Node)} (h : Holds s F (some (.json i))) {fuel : Nat}
    (hfuel : F.height ≤ fuel) : ∃ last, lastOf fuel i s = some last := by
  induction F generalizing i fuel with
  | nil => exact absurd h (by simp [Holds, Forest.Spells])
  | node a below rest _ ihr =>
    obtain ⟨r, n⟩ := a
    obtain ⟨hr, hn, -, hrest⟩ := h
    obtain rfl := Option.some.inj hr
    obtain ⟨j, rfl, hj⟩ := json_of_get hn
    obtain ⟨fuel, rfl⟩ := Nat.exists_eq_add_one.2 (Nat.lt_of_lt_of_le (Nat.succ_pos _) hfuel)
    simp only [Forest.height] at hfuel
    simp only [StructJson.lastOf, hj, bind, Option.bind_some]
    cases hnext : j.next with
    | none => exact ⟨i, rfl⟩
    | some next =>
      rw [show (Node.json j).next = some (.json next) by rw [Node.next, hnext]; rfl] at hrest
      apply ihr hrest
      omega

/-- **`json_concat` returns**, whatever has been built. -/
theorem Built.jsonConcat_total (h : Built s) {f j : Json} (hf : s.jsons[father]? = some f)
    (hj : s.jsons[child]? = some j) : ∃ s', jsonConcat father child s = some s' := by
  obtain ⟨last, hlast⟩ : ∃ last, concatPlace father s = some last := by
    simp only [concatPlace, hf, bind, Option.bind_some]
    cases hnext : f.next with
    | none => exact ⟨father, rfl⟩
    | some jTmp =>
      obtain ⟨n, hn⟩ := h.sound.live (.json father) (.json jTmp)
        ((link_json hf).2 (.inr (by rw [hnext]; rfl)))
      obtain ⟨t, -, ht⟩ := json_of_get hn
      obtain ⟨F, hF⟩ := h.holds ht
      exact hF.lastOf hF.height_le
  simp only [jsonConcat, hlast, hj, bind, Option.bind_some]
  exact ⟨_, rfl⟩

end

end Ape.StructJson
