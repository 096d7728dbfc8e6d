import Mathlib.Data.Finset.Card
import Mathlib.Data.List.Basic
import Mathlib.Logic.Relation

/-!
# Forests in a memory

A forest is kept with two links a node: to its first child and to the next tree.  A memory gives the
node at an address, if there is one.

* `Forest` — a first tree, what is below it, and the trees behind it;
* `Spells` — the nodes from a pointer on are those of a forest;
* `Grounded` — no path of links from an address is endless;
* `Grounded.exists_spells` — **links without end of a path spell a forest**, which is no higher than
  the nodes are many;
* `Grounded.graft` — **one more link** to where it cannot be reached from.
-/

namespace Ape

/-- A forest: empty, or a first tree and the trees behind it. -/
inductive Forest (α : Type*)
  | nil
  | node (a : α) (children rest : Forest α)

namespace Forest

variable {α β γ : Type*}

/-- The number of nodes. -/
def size : Forest α → Nat
  | nil => 0
  | node _ children rest => 1 + children.size + rest.size

/-- The number of nodes on the longest path down and to the next tree. -/
def height : Forest α → Nat
  | nil => 0
  | node _ children rest => max children.height rest.height + 1

/-- A forest with a function applied to every node. -/
def map (f : α → β) : Forest α → Forest β
  | nil => nil
  | node a children rest => node (f a) (children.map f) (rest.map f)

/-- The nodes, a father before his children. -/
def nodes : Forest α → List α
  | nil => []
  | node a children rest => a :: (children.nodes ++ rest.nodes)

/-- The roots of the trees. -/
def roots : Forest α → List α
  | nil => []
  | node a _ rest => a :: rest.roots

theorem map_map (g : β → γ) (f : α → β) (F : Forest α) :
    (F.map f).map g = F.map fun a => g (f a) := by
  induction F with
  | nil => rfl
  | node a children rest ihc ihr => simp only [map, ihc, ihr]

theorem length_nodes (F : Forest α) : F.nodes.length = F.size := by
  induction F with
  | nil => rfl
  | node a children rest ihc ihr =>
    simp only [nodes, size, List.length_cons, List.length_append, ihc, ihr]
    omega

end Forest

namespace Forest

variable {A N : Type*} (μ : A → Option N) (child next : N → Option A)

/-- The nodes from a pointer on are those of a forest, with their addresses. -/
def Spells : Forest (A × N) → Option A → Prop
  | nil, p => p = none
  | node (a, n) children rest, p =>
    p = some a ∧ μ a = some n ∧ children.Spells (child n) ∧ rest.Spells (next n)

/-- One link. -/
def Points (a b : A) : Prop := ∃ n, μ a = some n ∧ (child n = some b ∨ next n = some b)

/-- No path of links from an address is endless. -/
def Grounded (a : A) : Prop := Acc (fun b a => Points μ child next a b) a

variable {μ child next} {F G : Forest (A × N)} {p : Option A} {a b x : A}

/-- A pointer spells one forest. -/
theorem Spells.unique (h : F.Spells μ child next p) (h' : G.Spells μ child next p) : F = G := by
  induction F generalizing G p with
  | nil =>
    obtain rfl : p = none := h
    cases G with
    | nil => rfl
    | node b children rest => exact absurd h'.1 (by simp)
  | node a children rest ihc ihr =>
    obtain ⟨a, n⟩ := a
    obtain ⟨rfl, hn, hchildren, hrest⟩ := h
    cases G with
    | nil => exact absurd h' (by simp [Spells])
    | node b children' rest' =>
      obtain ⟨b, n'⟩ := b
      obtain ⟨hb, hn', hchildren', hrest'⟩ := h'
      obtain rfl := Option.some.inj hb
      obtain rfl := Option.some.inj (hn.symm.trans hn')
      rw [ihc hchildren hchildren', ihr hrest hrest']

/-- A memory that has the same nodes there spells the same forest. -/
theorem Spells.frame {μ' : A → Option N} (h : F.Spells μ child next p)
    (hsame : ∀ a n, (a, n) ∈ F.nodes → μ' a = μ a) : F.Spells μ' child next p := by
  induction F generalizing p with
  | nil => exact h
  | node a children rest ihc ihr =>
    obtain ⟨a, n⟩ := a
    obtain ⟨hp, hn, hchildren, hrest⟩ := h
    refine ⟨hp, (hsame a n (List.mem_cons_self ..)).trans hn, ?_, ?_⟩
    · apply ihc hchildren
      intro b m hb
      exact hsame b m (List.mem_cons_of_mem _ (List.mem_append_left _ hb))
    · apply ihr hrest
      intro b m hb
      exact hsame b m (List.mem_cons_of_mem _ (List.mem_append_right _ hb))

/-- The nodes of a spelled forest are those of the memory. -/
theorem Spells.live (h : F.Spells μ child next p) {n : N} (ha : (a, n) ∈ F.nodes) :
    μ a = some n := by
  induction F generalizing p with
  | nil => exact absurd ha (List.not_mem_nil)
  | node b children rest ihc ihr =>
    obtain ⟨b, m⟩ := b
    obtain ⟨-, hm, hchildren, hrest⟩ := h
    rcases List.mem_cons.1 ha with heq | ha
    · cases heq
      exact hm
    · rcases List.mem_append.1 ha with ha | ha
      · exact ihc hchildren ha
      · exact ihr hrest ha

/-- A memory that keeps the nodes there spells the same forest. -/
theorem Spells.kept {μ' : A → Option N} (h : F.Spells μ child next p)
    (hkept : ∀ a n, (a, n) ∈ F.nodes → μ a = some n → μ' a = some n) :
    F.Spells μ' child next p := by
  apply h.frame
  intro a n ha
  rw [h.live ha]
  exact hkept a n ha (h.live ha)

/-- The tree of a node, and those behind it. -/
theorem Spells.below (h : F.Spells μ child next p) {n : N} (ha : (a, n) ∈ F.nodes) :
    ∃ children rest : Forest (A × N), (node (a, n) children rest).Spells μ child next (some a) := by
  induction F generalizing p with
  | nil => exact absurd ha (List.not_mem_nil)
  | node b children rest ihc ihr =>
    obtain ⟨b, m⟩ := b
    obtain ⟨rfl, hm, hchildren, hrest⟩ := h
    rcases List.mem_cons.1 ha with heq | ha
    · cases heq
      exact ⟨children, rest, rfl, hm, hchildren, hrest⟩
    · rcases List.mem_append.1 ha with ha | ha
      · exact ihc hchildren ha
      · exact ihr hrest ha

/-! ## Paths that end -/

/-- From a spelled forest no path is endless. -/
theorem Spells.grounded (h : F.Spells μ child next (some a)) : Grounded μ child next a := by
  have hall : ∀ (F : Forest (A × N)) p, F.Spells μ child next p → ∀ a, p = some a →
      Grounded μ child next a := by
    intro F
    induction F with
    | nil =>
      rintro p rfl a ha
      exact absurd ha (by simp)
    | node b children rest ihc ihr =>
      obtain ⟨b, m⟩ := b
      rintro p ⟨rfl, hm, hchildren, hrest⟩ a ha
      obtain rfl := Option.some.inj ha
      refine Acc.intro _ ?_
      rintro c ⟨n, hn, hc⟩
      obtain rfl := Option.some.inj (hm.symm.trans hn)
      rcases hc with hc | hc
      · exact ihc _ hchildren c hc
      · exact ihr _ hrest c hc
  exact hall F (some a) h a rfl

/-- No path of links leads back. -/
theorem Grounded.not_cycle (h : Grounded μ child next a) :
    ¬ Relation.TransGen (Points μ child next) a a := by
  induction h with
  | intro a _ ih =>
    intro hcycle
    obtain ⟨b, hab, hba⟩ := Relation.TransGen.head'_iff.1 hcycle
    exact ih b hab (Relation.TransGen.tail'_iff.2 ⟨a, hba, hab⟩)

/-- **Links without endless paths spell a forest**, which is no higher than there are addresses on
the paths. -/
theorem Grounded.exists_spells [DecidableEq A] (h : Grounded μ child next a) (S : Finset A)
    (hS : ∀ b, Relation.ReflTransGen (Points μ child next) a b → b ∈ S)
    (hlive : ∀ b ∈ S, ∃ n, μ b = some n) :
    ∃ F : Forest (A × N), F.Spells μ child next (some a) ∧ F.height ≤ S.card := by
  induction h generalizing S with
  | intro a hacc ih =>
    have ha : a ∈ S := hS a .refl
    obtain ⟨n, hn⟩ := hlive a ha
    -- behind a link, `a` is not found again
    have hlink : ∀ p : Option A, (∀ b, p = some b → Points μ child next a b) →
        ∃ F : Forest (A × N), F.Spells μ child next p ∧ F.height ≤ (S.erase a).card := by
      intro p hp
      cases p with
      | none => exact ⟨nil, rfl, Nat.zero_le _⟩
      | some b =>
        have hab := hp b rfl
        refine ih b hab (S.erase a) ?_ fun c hc => hlive c (Finset.mem_of_mem_erase hc)
        intro c hc
        refine Finset.mem_erase.2 ⟨?_, hS c (.head hab hc)⟩
        rintro rfl
        exact Grounded.not_cycle (Acc.intro c hacc) (Relation.TransGen.head'_iff.2 ⟨b, hab, hc⟩)
    obtain ⟨children, hchildren, hhigh⟩ := hlink (child n) fun b hb => ⟨n, hn, .inl hb⟩
    obtain ⟨rest, hrest, hlong⟩ := hlink (next n) fun b hb => ⟨n, hn, .inr hb⟩
    refine ⟨node (a, n) children rest, ⟨rfl, hn, hchildren, hrest⟩, ?_⟩
    have hcard := Finset.card_erase_add_one ha
    simp only [height]
    omega

/-- What is found from the first node of a spelled forest is the first of a part of it. -/
theorem Spells.reach (h : F.Spells μ child next (some a))
    (hb : Relation.ReflTransGen (Points μ child next) a b) :
    ∃ n children rest, (node (b, n) children rest).Spells μ child next (some b) ∧
      ∀ x ∈ (node (b, n) children rest).nodes, x ∈ F.nodes := by
  have hfirst : ∀ {G : Forest (A × N)} {b : A}, G.Spells μ child next (some b) →
      ∃ n children rest, G = node (b, n) children rest := by
    intro G b hG
    cases G with
    | nil => exact absurd hG (by simp [Spells])
    | node c children rest =>
      obtain rfl : b = c.1 := Option.some.inj hG.1
      exact ⟨c.2, children, rest, rfl⟩
  induction hb with
  | refl =>
    obtain ⟨n, children, rest, rfl⟩ := hfirst h
    exact ⟨n, children, rest, h, fun x hx => hx⟩
  | tail _ hlink ih =>
    obtain ⟨n, children, rest, ⟨-, hn, hchildren, hrest⟩, hsub⟩ := ih
    obtain ⟨n', hn', hc⟩ := hlink
    obtain rfl := Option.some.inj (hn.symm.trans hn')
    rcases hc with hc | hc
    · rw [hc] at hchildren
      obtain ⟨m, below, behind, rfl⟩ := hfirst hchildren
      refine ⟨m, below, behind, hchildren, fun x hx => hsub x ?_⟩
      exact List.mem_cons_of_mem _ (List.mem_append_left _ hx)
    · rw [hc] at hrest
      obtain ⟨m, below, behind, rfl⟩ := hfirst hrest
      refine ⟨m, below, behind, hrest, fun x hx => hsub x ?_⟩
      exact List.mem_cons_of_mem _ (List.mem_append_right _ hx)

/-- What is found from the first node of a spelled forest is one of its nodes. -/
theorem Spells.reach_mem (h : F.Spells μ child next (some a))
    (hb : Relation.ReflTransGen (Points μ child next) a b) : ∃ n, (b, n) ∈ F.nodes := by
  obtain ⟨n, children, rest, -, hsub⟩ := h.reach hb
  exact ⟨n, hsub _ (List.mem_cons_self ..)⟩

/-- **A spelled forest is no higher** than there are addresses. -/
theorem Spells.height_le [DecidableEq A] (h : F.Spells μ child next p) (S : Finset A)
    (hS : ∀ a n, μ a = some n → a ∈ S) : F.height ≤ S.card := by
  cases p with
  | none =>
    cases F with
    | nil => exact Nat.zero_le _
    | node b children rest => exact absurd h.1 (by simp)
  | some a =>
    obtain ⟨G, hG, hheight⟩ := h.grounded.exists_spells (S.filter fun b => (μ b).isSome)
      (fun b hb => by
        obtain ⟨n, hb⟩ := h.reach_mem hb
        have hn := h.live hb
        exact Finset.mem_filter.2 ⟨hS b n hn, Option.isSome_iff_exists.2 ⟨n, hn⟩⟩)
      (fun b hb => Option.isSome_iff_exists.1 (Finset.mem_filter.1 hb).2)
    rw [h.unique hG]
    exact hheight.trans (Finset.card_filter_le _ _)

/-- A memory with fewer links has no more endless paths. -/
theorem Grounded.mono {μ' : A → Option N} (h : Grounded μ child next a)
    (hlinks : ∀ a b, Points μ' child next a b → Points μ child next a b) :
    Grounded μ' child next a := by
  induction h with
  | intro a _ ih => exact Acc.intro a fun b hb => ih b (hlinks a b hb)

/-- **One more link**, to an address from which it is not found, makes no path endless. -/
theorem Grounded.graft {μ' : A → Option N} {v : A} (h : ∀ a, Grounded μ child next a)
    (hlinks : ∀ a b, Points μ' child next a b → Points μ child next a b ∨ (a = x ∧ b = v))
    (hfar : ¬ Relation.ReflTransGen (Points μ child next) v x) (a : A) :
    Grounded μ' child next a := by
  -- from `v` the new link is not found
  have hnew : ∀ b, Relation.ReflTransGen (Points μ child next) v b → Grounded μ' child next b := by
    intro b
    induction h b with
    | intro b _ ih =>
      intro hb
      refine Acc.intro b fun c hc => ?_
      rcases hlinks b c hc with hold | ⟨rfl, -⟩
      · exact ih c hold (hb.tail hold)
      · exact absurd hb hfar
  induction h a with
  | intro a _ ih =>
    refine Acc.intro a fun b hb => ?_
    rcases hlinks a b hb with hold | ⟨-, rfl⟩
    · exact ih b hold
    · exact hnew b .refl

/-- **A node to which no link leads** makes no path endless. -/
theorem Grounded.root {μ' : A → Option N} (h : ∀ a, Grounded μ child next a)
    (hlinks : ∀ a b, a ≠ x → Points μ' child next a b → Points μ child next a b)
    (hroot : ∀ a, ¬ Points μ' child next a x) (a : A) : Grounded μ' child next a := by
  have hold : ∀ a, a ≠ x → Grounded μ' child next a := by
    intro a ha
    induction h a with
    | intro a _ ih =>
      refine Acc.intro a fun b hb => ih b (hlinks a b ha hb) ?_
      rintro rfl
      exact hroot a hb
  refine Acc.intro a fun b hb => hold b ?_
  rintro rfl
  exact hroot a hb

end Forest

end Ape
