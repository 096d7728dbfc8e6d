import Mathlib.Data.List.Nodup
import Mathlib.Data.List.Perm.Subperm
import ApeServer.Lib.Runs

/-!
# The slots of the resolver's sockets

`c-ares` tells `ares_socket_cb` of its sockets: each that it waits for, as often as it likes, and
each that it is about to close.  The callback keeps them in 32 slots, of which a descriptor of zero
marks the free ones, and has the event loop watch every socket it puts into one.

* `aresSocketCb` — `ares_socket_cb`;
* `Resolver` — the slots, with the sockets that are open and those the event loop watches;
* `Kept` — the slots hold the open sockets, one each, and all of them are watched;
* `search_eq_none_iff`, `search_free` — what the loop over the slots finds;
* `always_kept_iff` — **the sockets are kept all along a run exactly when none is ever closed**.
-/

namespace Ape.Dns

/-! ## The callback -/

/-- `_ares_sockets`: the descriptor, whether the type is `APE_DELEGATE`, and whether `on_io` is
`ares_io`. -/
structure Slot where
  fd : Int := 0
  delegate : Bool := false
  aresIo : Bool := false
  deriving DecidableEq, Repr

/-- The loop over the slots from number `i` on, with `f` as it stands: its value at the end, or
nothing where the callback returns from the loop. -/
def search (s : Int) : List Slot → Nat → Nat → Option Nat
  | [], _, f => some f
  | slot :: slots, i, f =>
    if f = 0 ∧ slot.fd = 0 then search s slots (i + 1) i
    else if slot.fd = s then none
    else search s slots (i + 1) f

/-- **`ares_socket_cb`**: the slots, and the one that is given to `events_add`, if it is called.
Whether the socket is to be read or written makes no difference. -/
def aresSocketCb (list : List Slot) (s : Int) (_read _write : Bool) : List Slot × Option Nat :=
  match search s list 0 0 with
  | none => (list, none)
  | some f => (list.set f ⟨s, true, true⟩, some f)

/-- `ape_dns_init`: 32 slots of zeros. -/
def apeDnsInit : List Slot := List.replicate 32 {}

/-! ## Sockets that are opened and closed -/

/-- A call of the callback. -/
structure Notification where
  s : Int
  read : Bool
  write : Bool
  deriving DecidableEq, Repr

/-- The call is about a socket that is going to be closed. -/
def Notification.Closes (e : Notification) : Prop := e.read = false ∧ e.write = false

instance (e : Notification) : Decidable e.Closes := inferInstanceAs (Decidable (_ ∧ _))

/-- The slots, the sockets that are open, and those that have been registered with `events_add`
since they were opened. -/
structure Resolver where
  list : List Slot := apeDnsInit
  opened : List Int := []
  watched : List Int := []

/-- A notification: behind the callback, a socket that it closes is neither open nor watched. -/
def Resolver.notify (r : Resolver) (e : Notification) : Resolver :=
  let cb := aresSocketCb r.list e.s e.read e.write
  let watched := if cb.2.isSome then e.s :: r.watched else r.watched
  if e.Closes then
    { list := cb.1, opened := r.opened.filter (· ≠ e.s), watched := watched.filter (· ≠ e.s) }
  else
    { list := cb.1, opened := r.opened.insert e.s, watched }

/-- The contract of `c-ares`: only a socket that is open is announced as closed. -/
def Resolver.Announced (r : Resolver) (e : Notification) : Prop := e.Closes → e.s ∈ r.opened

/-- The slots with a descriptor are those of the open sockets, no two of the same one, and every
open socket is watched. -/
structure Kept (r : Resolver) : Prop where
  holds : ∀ s, s ∈ r.opened ↔ s ≠ 0 ∧ ∃ slot ∈ r.list, slot.fd = s
  distinct : ∀ (i j : Nat) (a b : Slot), r.list[i]? = some a → r.list[j]? = some b → a.fd ≠ 0 →
    a.fd = b.fd → i = j
  watched : ∀ s ∈ r.opened, s ∈ r.watched

/-! ## The search -/

/-- The callback returns from the loop exactly if the socket has a slot. -/
theorem search_eq_none_iff {s : Int} (hs : s ≠ 0) (slots : List Slot) (i f : Nat) :
    search s slots i f = none ↔ ∃ slot ∈ slots, slot.fd = s := by
  induction slots generalizing i f with
  | nil => simp [search]
  | cons slot slots ih =>
    rw [search, List.exists_mem_cons_iff]
    split
    case isTrue hfree =>
      have hne : slot.fd ≠ s := fun h => hs (h.symm.trans hfree.2)
      rw [ih]
      simp [hne]
    case isFalse =>
      by_cases heq : slot.fd = s
      · simp [heq]
      · rw [if_neg heq, ih]
        simp [heq]

/-- Once `f` is not zero it stays. -/
theorem search_marked {s : Int} {slots : List Slot} {i f g : Nat} (hf : f ≠ 0)
    (h : search s slots i f = some g) : g = f := by
  induction slots generalizing i with
  | nil => exact (Option.some.inj h).symm
  | cons slot slots ih =>
    rw [search, if_neg (fun hfree => hf hfree.1)] at h
    split at h
    case isTrue => exact absurd h (by simp)
    case isFalse => exact ih h

/-- The loop ends with a free slot, or else with zero, and then no slot but the first is free. -/
theorem search_zero {s : Int} {slots : List Slot} {i g : Nat} (h : search s slots i 0 = some g) :
    (i ≤ g ∧ ∃ slot, slots[g - i]? = some slot ∧ slot.fd = 0) ∨
      (g = 0 ∧ ∀ k slot, slots[k]? = some slot → slot.fd = 0 → i + k = 0) := by
  induction slots generalizing i with
  | nil =>
    refine .inr ⟨(Option.some.inj h).symm, ?_⟩
    intro k slot hk
    exact absurd hk (by simp)
  | cons slot slots ih =>
    rw [search] at h
    split at h
    case isTrue hfree =>
      by_cases hi : i = 0
      · -- the first slot is free, but `f` is still zero
        subst hi
        rcases ih h with ⟨hg, slot', hslot', hfd⟩ | ⟨rfl, -⟩
        · refine .inl ⟨Nat.zero_le g, slot', ?_, hfd⟩
          obtain ⟨g, rfl⟩ := Nat.exists_eq_add_of_le' hg
          exact hslot'
        · exact .inl ⟨le_rfl, slot, rfl, hfree.2⟩
      · obtain rfl := search_marked hi h
        exact .inl ⟨le_rfl, slot, by simp, hfree.2⟩
    case isFalse hused =>
      split at h
      case isTrue => exact absurd h (by simp)
      case isFalse =>
        have hfd : slot.fd ≠ 0 := fun hfd => hused ⟨rfl, hfd⟩
        rcases ih h with ⟨hg, slot', hslot', hfree⟩ | ⟨rfl, hrest⟩
        · refine .inl ⟨by omega, slot', ?_, hfree⟩
          obtain ⟨k, rfl⟩ := Nat.exists_eq_add_of_le hg
          rw [show i + 1 + k - i = k + 1 by omega]
          rwa [Nat.add_sub_cancel_left] at hslot'
        · refine .inr ⟨rfl, ?_⟩
          intro k slot' hk hfree
          cases k with
          | zero =>
            obtain rfl : slot = slot' := Option.some.inj hk
            exact absurd hfree hfd
          | succ k =>
            have := hrest k slot' hk hfree
            omega

/-- **A free slot is found**, if there is one. -/
theorem search_free {s : Int} {slots : List Slot} {g : Nat} (h : search s slots 0 0 = some g)
    (hfree : ∃ slot ∈ slots, slot.fd = 0) : ∃ slot, slots[g]? = some slot ∧ slot.fd = 0 := by
  rcases search_zero h with ⟨-, hg⟩ | ⟨rfl, hrest⟩
  · exact hg
  · obtain ⟨slot, hmem, hfd⟩ := hfree
    obtain ⟨k, hk⟩ := List.mem_iff_getElem?.1 hmem
    obtain rfl : k = 0 := by
      have := hrest k slot hk hfd
      omega
    exact ⟨slot, hk, hfd⟩

/-! ## Runs -/

/-- What a notification keeps as long as no socket is closed. -/
structure Sound (r : Resolver) : Prop where
  kept : Kept r
  size : r.list.length = 32
  nodup : r.opened.Nodup

/-- At the start all slots are free and no socket is open. -/
theorem sound_start : Sound {} := by
  refine ⟨⟨?_, ?_, ?_⟩, rfl, List.nodup_nil⟩
  · intro s
    refine iff_of_false (List.not_mem_nil) ?_
    rintro ⟨hs, slot, hslot, rfl⟩
    obtain rfl := List.eq_of_mem_replicate hslot
    exact hs rfl
  · intro i j a b ha _ hne _
    obtain rfl := List.eq_of_mem_replicate (List.mem_of_getElem? ha)
    exact absurd rfl hne
  · intro s hs
    exact absurd hs List.not_mem_nil

/-- With fewer open sockets than slots, one is free. -/
theorem Sound.exists_free {r : Resolver} (h : Sound r) (hlt : r.opened.length < 32) :
    ∃ slot ∈ r.list, slot.fd = 0 := by
  by_contra hnone
  push Not at hnone
  have hnodup : (r.list.map Slot.fd).Nodup := by
    rw [List.nodup_iff_getElem?_ne_getElem?]
    intro i j hij hj heq
    rw [List.length_map] at hj
    rw [List.getElem?_map, List.getElem?_map, List.getElem?_eq_getElem (hij.trans hj),
      List.getElem?_eq_getElem hj] at heq
    have hfd := hnone _ (List.getElem_mem (hij.trans hj))
    have := h.kept.distinct i j _ _ (List.getElem?_eq_getElem (hij.trans hj))
      (List.getElem?_eq_getElem hj) hfd (Option.some.inj heq)
    omega
  have hsub : r.list.map Slot.fd ⊆ r.opened := by
    intro s hs
    obtain ⟨slot, hslot, rfl⟩ := List.mem_map.1 hs
    exact (h.kept.holds _).2 ⟨hnone slot hslot, slot, hslot, rfl⟩
  have hle := (hnodup.subperm hsub).length_le
  rw [List.length_map, h.size] at hle
  omega

/-- **One notification** of a socket that stays open: a known one changes nothing, and a new one gets
a free slot and is watched. -/
theorem Sound.notify {r : Resolver} {e : Notification} (h : Sound r) (hopen : ¬ e.Closes)
    (hs : e.s ≠ 0) (hbound : (r.notify e).opened.length ≤ 32) : Sound (r.notify e) := by
  unfold Resolver.notify at hbound ⊢
  simp only [if_neg hopen] at hbound ⊢
  unfold aresSocketCb
  cases hsearch : search e.s r.list 0 0 with
  | none =>
    have hmem : e.s ∈ r.opened :=
      (h.kept.holds e.s).2 ⟨hs, (search_eq_none_iff hs r.list 0 0).1 hsearch⟩
    simp only [List.insert_of_mem hmem]
    exact h
  | some g =>
    have habsent : ¬ ∃ slot ∈ r.list, slot.fd = e.s := by
      intro hslot
      rw [(search_eq_none_iff hs r.list 0 0).2 hslot] at hsearch
      exact absurd hsearch (by simp)
    have hnew : e.s ∉ r.opened := fun hmem => habsent ((h.kept.holds e.s).1 hmem).2
    have hlt : r.opened.length < 32 := by
      rw [List.insert_of_not_mem hnew] at hbound
      exact hbound
    obtain ⟨free, hfree, hfd⟩ := search_free hsearch (h.exists_free hlt)
    obtain ⟨hg, rfl⟩ := List.getElem?_eq_some_iff.1 hfree
    have hget : ∀ j slot, (r.list.set g ⟨e.s, true, true⟩)[j]? = some slot →
        (j = g ∧ slot = ⟨e.s, true, true⟩) ∨ (j ≠ g ∧ r.list[j]? = some slot) := by
      intro j slot hj
      rw [List.getElem?_set] at hj
      split at hj
      case isTrue heq =>
        exact .inl ⟨heq.symm, (Option.some.inj hj).symm⟩
      case isFalse hne => exact .inr ⟨fun heq => hne heq.symm, hj⟩
    simp only [List.insert_of_not_mem hnew, Option.isSome_some, if_true]
    refine ⟨⟨?_, ?_, ?_⟩, by simpa using h.size, List.nodup_cons.2 ⟨hnew, h.nodup⟩⟩
    · intro s
      constructor
      · intro hmem
        rcases List.mem_cons.1 hmem with rfl | hmem
        · refine ⟨hs, ⟨e.s, true, true⟩, ?_, rfl⟩
          exact List.mem_of_getElem? (List.getElem?_set_self hg)
        · obtain ⟨hne, slot, hslot, rfl⟩ := (h.kept.holds s).1 hmem
          obtain ⟨j, hj⟩ := List.mem_iff_getElem?.1 hslot
          have hjg : g ≠ j := by
            rintro rfl
            rw [hj] at hfree
            rw [Option.some.inj hfree] at hne
            exact hne hfd
          refine ⟨hne, slot, ?_, rfl⟩
          exact List.mem_of_getElem? ((List.getElem?_set_ne hjg).trans hj)
      · rintro ⟨hne, slot, hslot, rfl⟩
        obtain ⟨j, hj⟩ := List.mem_iff_getElem?.1 hslot
        rcases hget j slot hj with ⟨-, rfl⟩ | ⟨-, hold⟩
        · exact List.mem_cons_self ..
        · refine List.mem_cons_of_mem _ ?_
          exact (h.kept.holds _).2 ⟨hne, slot, List.mem_of_getElem? hold, rfl⟩
    · intro i j a b ha hb hne heq
      rcases hget i a ha with ⟨hi, rfl⟩ | ⟨-, hold⟩ <;> rcases hget j b hb with ⟨hj, rfl⟩ | ⟨-, hold'⟩
      · exact hi.trans hj.symm
      · exact absurd ⟨b, List.mem_of_getElem? hold', heq.symm⟩ habsent
      · exact absurd ⟨a, List.mem_of_getElem? hold, heq⟩ habsent
      · exact h.kept.distinct i j a b hold hold' hne heq
    · intro s hmem
      rcases List.mem_cons.1 hmem with rfl | hmem
      · exact List.mem_cons_self ..
      · exact List.mem_cons_of_mem _ (h.kept.watched s hmem)

/-- **A socket that is closed keeps its slot**: the callback takes its announcement for one of a
known socket. -/
theorem Kept.not_closed {r : Resolver} {e : Notification} (h : Kept r) (hclose : e.Closes)
    (hannounced : r.Announced e) : ¬ Kept (r.notify e) := by
  intro hafter
  obtain ⟨hs, hslot⟩ := (h.holds e.s).1 (hannounced hclose)
  have hnone := (search_eq_none_iff hs r.list 0 0).2 hslot
  have hlist : (r.notify e).list = r.list := by
    simp [Resolver.notify, aresSocketCb, hnone, hclose]
  have hmem : e.s ∈ (r.notify e).opened := by
    rw [hafter.holds, hlist]
    exact ⟨hs, hslot⟩
  simp [Resolver.notify, hclose] at hmem

/-- A socket of number zero is not in the slots. -/
theorem not_kept_zero {r : Resolver} {e : Notification} (hopen : ¬ e.Closes) (hs : e.s = 0) :
    ¬ Kept (r.notify e) := by
  intro hafter
  have hmem : e.s ∈ (r.notify e).opened := by
    simp [Resolver.notify, hopen]
  exact ((hafter.holds e.s).1 hmem).1 hs

/-- **The sockets are kept exactly when none is closed**: along any run of notifications as the
contract has them, with at most 32 sockets open at a time, the slots are those of the open sockets
and all of them are watched, exactly if no notification announces that a socket is closed and none is
about a socket of number zero. -/
theorem always_kept_iff (es : List Notification)
    (hcontract : Runs.EachStep Resolver.notify Resolver.Announced {} es)
    (hbound : Runs.Always Resolver.notify (fun r => r.opened.length ≤ 32) {} es) :
    Runs.Always Resolver.notify Kept {} es ↔ ∀ e ∈ es, ¬ e.Closes ∧ e.s ≠ 0 := by
  have hstart := sound_start
  generalize ({} : Resolver) = r at hcontract hbound hstart ⊢
  induction es generalizing r with
  | nil => exact iff_of_true hstart.kept (by simp)
  | cons e es ih =>
    rw [List.forall_mem_cons]
    constructor
    · rintro ⟨-, hrest⟩
      have hopen : ¬ e.Closes := fun hclose =>
        hstart.kept.not_closed hclose hcontract.1 hrest.first
      have hs : e.s ≠ 0 := fun hs => not_kept_zero hopen hs hrest.first
      have hsound := hstart.notify hopen hs hbound.2.first
      exact ⟨⟨hopen, hs⟩, (ih _ hcontract.2 hbound.2 hsound).1 hrest⟩
    · rintro ⟨⟨hopen, hs⟩, hrest⟩
      have hsound := hstart.notify hopen hs hbound.2.first
      exact ⟨hstart.kept, (ih _ hcontract.2 hbound.2 hsound).2 hrest⟩

/-- Two sockets whose interest changes are kept. -/
theorem always_kept_two :
    Runs.Always Resolver.notify Kept {} [⟨5, true, false⟩, ⟨7, true, true⟩, ⟨5, false, true⟩] :=
  (always_kept_iff [⟨5, true, false⟩, ⟨7, true, true⟩, ⟨5, false, true⟩]
    ⟨fun h => absurd h (by decide), fun h => absurd h (by decide), fun h => absurd h (by decide),
      trivial⟩
    ⟨by decide, by decide, by decide, (by decide : 2 ≤ 32)⟩).2 (by decide)

/-- **A socket that is closed and opened again under the same number is not watched**: its slot is
still taken, so `events_add` is not called. -/
theorem reopened_not_watched :
    let es : List Notification := [⟨5, true, false⟩, ⟨5, false, false⟩, ⟨5, true, false⟩]
    Runs.EachStep Resolver.notify Resolver.Announced {} es ∧
    Runs.Always Resolver.notify (fun r => r.opened.length ≤ 32) {} es ∧
    ¬ Runs.Always Resolver.notify Kept {} es ∧
    5 ∈ (es.foldl Resolver.notify {}).opened ∧ 5 ∉ (es.foldl Resolver.notify {}).watched := by
  refine ⟨?_, ?_, ?_, by decide, by decide⟩
  · exact ⟨fun h => absurd h (by decide), fun _ => by decide, fun h => absurd h (by decide), trivial⟩
  · exact ⟨by decide, by decide, by decide, (by decide : 1 ≤ 32)⟩
  · rintro ⟨-, -, hclosed, -⟩
    have hmem : (5 : Int) ∈ ((Resolver.notify {} ⟨5, true, false⟩).notify ⟨5, false, false⟩).opened := by
      rw [hclosed.holds]
      exact ⟨by decide, by decide⟩
    exact absurd hmem (by decide)

end Ape.Dns
