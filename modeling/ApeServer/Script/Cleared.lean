import ApeServer.Lib.Runs
import ApeServer.Script.Timers

/-!
# Cleared timers never run again

Every timer in the list has an identifier of its own, and a script timer has a block of its own that
has not been freed.  So `clearTimeout` finds the one timer that is meant, and the wrapper frees a block
when its timer is about to leave the list.

* `Rightly` — what is promised of an event, in terms of the events before it;
* `Healthy` — the invariant;
* `exec_healthy`, `fireHead_healthy` — every command and every round keep it;
* `cleared_timers_never_run` — **in every run a cleared timer is not invoked again, a clear that meets
  no script timer changes nothing, and no block is freed twice or used behind that**.
-/

namespace Ape.Script

open Runs
open Timers (ApeTimers TicksCallback addTimeout addPeriodical bodies_insertTimer body_of_mem_insertTimer
  bumpHead getTimerIdentifier insertTimer nextOf rearm)

/-! ## What is promised -/

/-- What is promised of an event behind others. -/
def Rightly (before : List ScriptEvent) : ScriptEvent → Prop
  | .invoked block => ∀ targets changed, .clear targets changed ∈ before → block ∉ targets
  | .used block => .freed block ∉ before
  | .freed block => .freed block ∉ before
  | .clear targets changed => targets = [] → changed = false

/-! ## The invariant -/

/-- Two timers are told apart by their identifiers, and scripts' timers by their blocks. -/
structure Apart (t u : TicksCallback) : Prop where
  identifier : t.identifier ≠ u.identifier
  serial : t.serial ≠ u.serial
  block : isScript t = true → isScript u = true → t.params ≠ u.params

theorem Apart.symm {t u : TicksCallback} (h : Apart t u) : Apart u t :=
  ⟨h.identifier.symm, h.serial.symm, fun hu ht => (h.block ht hu).symm⟩

instance : Std.Symm Apart := ⟨fun _ _ h => h.symm⟩

/-- A timer in the list: its identifier has been given, only scripts' timers are not protected, and
its block has not been freed. -/
structure Fine (s : ScriptTimers) (t : TicksCallback) : Prop where
  named : t.identifier.toNat < s.created
  older : t.serial < s.ape.serials
  kind : t.protect = 0 ↔ isScript t = true
  block : isScript t = true → t.params < s.blocks.length ∧ .freed t.params ∉ s.log

/-- The invariant, for the nodes `l` that stay in the list. -/
structure Healthy (l : List TicksCallback) (s : ScriptTimers) : Prop where
  count : s.ape.ntimers = UInt32.ofNat s.created
  apart : l.Pairwise Apart
  fine : ∀ t ∈ l, Fine s t
  freed : ∀ b, .freed b ∈ s.log → b < s.blocks.length
  cleared : ∀ targets changed, .clear targets changed ∈ s.log → ∀ b ∈ targets, s.cleared b = true
  log : Along Rightly s.log

theorem healthy_init : Healthy [] .init :=
  ⟨rfl, List.Pairwise.nil, by simp, by simp [ScriptTimers.init], by simp [ScriptTimers.init],
    along_nil⟩

/-- The invariant is kept when nodes leave the list. -/
theorem Healthy.sublist {l l' : List TicksCallback} {s : ScriptTimers} (h : Healthy l s)
    (hl : l'.Sublist l) : Healthy l' s :=
  ⟨h.count, h.apart.sublist hl, fun t ht => h.fine t (hl.subset ht), h.freed, h.cleared, h.log⟩

/-- Nodes that are apart stay so when one is linked in, whatever the deltas are. -/
theorem pairwise_insertTimer {new : TicksCallback} {l : List TicksCallback}
    (hnew : ∀ u ∈ l, Apart new u) (hl : l.Pairwise Apart) : (insertTimer new l).Pairwise Apart := by
  have hbodies : (new.body :: l.map TicksCallback.body).Pairwise Apart := by
    refine List.pairwise_cons.2 ⟨fun b hb => ?_, List.pairwise_map.2 ?_⟩
    · obtain ⟨u, hu, rfl⟩ := List.mem_map.1 hb
      have := hnew u hu
      exact ⟨this.identifier, this.serial, this.block⟩
    · exact hl.imp fun h => ⟨h.identifier, h.serial, h.block⟩
  have hperm := ((bodies_insertTimer new l).pairwise_iff fun h => Apart.symm h).2 hbodies
  exact (List.pairwise_map.1 hperm).imp fun h => ⟨h.identifier, h.serial, h.block⟩

theorem Fine.congr {s : ScriptTimers} {t u : TicksCallback} (h : Fine s u) (hbody : t.body = u.body) :
    Fine s t := by
  have hfine : Fine s u.body := ⟨h.named, h.older, h.kind, h.block⟩
  rw [← hbody] at hfine
  exact ⟨hfine.named, hfine.older, hfine.kind, hfine.block⟩

/-- The invariant is kept when a node that is apart from the others is linked in. -/
theorem Healthy.link {l : List TicksCallback} {s : ScriptTimers} (h : Healthy l s)
    (new : TicksCallback) (hfine : Fine s new) (hapart : ∀ u ∈ l, Apart new u) :
    Healthy (insertTimer new l) s := by
  refine ⟨h.count, pairwise_insertTimer hapart h.apart, fun t ht => ?_, h.freed, h.cleared, h.log⟩
  rcases body_of_mem_insertTimer ht with hbody | ⟨u, hu, hbody⟩
  · exact hfine.congr hbody
  · exact (h.fine u hu).congr hbody

/-- An event that frees nothing keeps the invariant. -/
theorem Healthy.event {l : List TicksCallback} {s : ScriptTimers} (h : Healthy l s) {e : ScriptEvent}
    (he : Rightly s.log e) (hfreed : ∀ b, e ≠ .freed b)
    (hclear : ∀ targets changed, e = .clear targets changed → ∀ b ∈ targets, s.cleared b = true) :
    Healthy l { s with log := s.log ++ [e] } := by
  have hold : ∀ b, .freed b ∈ s.log ++ [e] → .freed b ∈ s.log := by
    intro b hb
    rcases List.mem_append.1 hb with hb | hb
    · exact hb
    · exact absurd (List.mem_singleton.1 hb).symm (hfreed b)
  refine ⟨h.count, h.apart, fun t ht => ?_, fun b hb => h.freed b (hold b hb), ?_,
    along_concat.2 ⟨h.log, he⟩⟩
  · obtain ⟨hnamed, holder, hkind, hblock⟩ := h.fine t ht
    exact ⟨hnamed, holder, hkind, fun hs => ⟨(hblock hs).1, fun hb => (hblock hs).2 (hold _ hb)⟩⟩
  · intro targets changed hmem
    rcases List.mem_append.1 hmem with hmem | hmem
    · exact h.cleared targets changed hmem
    · exact hclear targets changed (List.mem_singleton.1 hmem).symm

/-- The timers but for the list: the counters only grow. -/
theorem Healthy.withApe {l : List TicksCallback} {s : ScriptTimers} (h : Healthy l s) (ape : ApeTimers)
    (hcount : ape.ntimers = s.ape.ntimers) (hserials : s.ape.serials ≤ ape.serials) :
    Healthy l { s with ape } := by
  refine ⟨hcount.trans h.count, h.apart, fun t ht => ?_, h.freed, h.cleared, h.log⟩
  obtain ⟨hnamed, holder, hkind, hblock⟩ := h.fine t ht
  exact ⟨hnamed, holder.trans_le hserials, hkind, hblock⟩

theorem Healthy.use {l : List TicksCallback} {s : ScriptTimers} (h : Healthy l s) {b : Nat}
    (hb : .freed b ∉ s.log) : Healthy l (s.use b) := by
  refine h.event (e := .used b) hb (fun b' he => ?_) fun targets changed he => ?_
  · cases he
  · cases he

/-! ## Commands -/

/-- More blocks, and more timers that have been created. -/
theorem Healthy.grow {l : List TicksCallback} {s : ScriptTimers} (h : Healthy l s) (ape : ApeTimers)
    (blocks : List SmTimer) (created : Nat) (hcount : ape.ntimers = UInt32.ofNat created)
    (hserials : s.ape.serials ≤ ape.serials) (hcreated : s.created ≤ created) :
    Healthy l { s with ape, blocks := s.blocks ++ blocks, created } := by
  have hlength : s.blocks.length ≤ (s.blocks ++ blocks).length := by simp
  refine ⟨hcount, h.apart, fun t ht => ?_, fun b hb => (h.freed b hb).trans_le hlength, ?_, h.log⟩
  · obtain ⟨hnamed, holder, hkind, hblock⟩ := h.fine t ht
    exact ⟨hnamed.trans_le hcreated, holder.trans_le hserials, hkind, fun hs =>
      ⟨(hblock hs).1.trans_le hlength, (hblock hs).2⟩⟩
  · intro targets changed hmem b hb
    have hold := h.cleared targets changed hmem b hb
    unfold ScriptTimers.cleared at hold ⊢
    by_cases hlt : b < s.blocks.length
    · rw [List.getD_append _ _ _ _ hlt]
      exact hold
    · rw [List.getD_eq_default _ _ (Nat.not_lt.1 hlt)] at hold
      cases hold

/-- A timer is created: one of the server, or one of a script with a new block. -/
theorem Healthy.create {s : ScriptTimers} (h : Healthy s.ape.timers s) (hroom : s.created < 2 ^ 32)
    (ms : UInt32) (func params : Nat) (patch : TicksCallback → TicksCallback)
    (blocks : List SmTimer)
    (hpatch : ∀ t : TicksCallback, (patch t).identifier = t.identifier ∧
      (patch t).serial = t.serial ∧ (patch t).func = t.func ∧ (patch t).params = t.params)
    (hkind : ∀ t : TicksCallback, t.protect = 1 → t.func = func →
      ((patch t).protect = 0 ↔ func = wrapperAddress))
    (hblock : func = wrapperAddress → params = s.blocks.length ∧ blocks ≠ []) :
    Healthy (addTimeout ms func params patch s.ape).timers
      { s with
        ape := addTimeout ms func params patch s.ape
        blocks := s.blocks ++ blocks
        created := s.created + 1 } := by
  set new : TicksCallback :=
    { ticksNeed := ms.toInt32, delta := ms.toInt32, times := 1, identifier := s.ape.ntimers,
      protect := 1, func := func, params := params, serial := s.ape.serials } with hnew
  obtain ⟨hid, hserial, hfunc, hparams⟩ := hpatch new
  have hname : s.ape.ntimers.toNat = s.created := by
    rw [h.count]
    exact UInt32.toNat_ofNat_of_lt' hroom
  have hscript : isScript (patch new) = true ↔ func = wrapperAddress := by
    rw [isScript, hfunc]
    exact decide_eq_true_iff
  have hgrown := h.grow (addTimeout ms func params patch s.ape) blocks (s.created + 1)
    (by rw [UInt32.ofNat_add, ← h.count]; rfl) (Nat.le_succ _) (Nat.le_succ _)
  refine hgrown.link _ ⟨?_, ?_, ?_, fun hs => ?_⟩ fun u hu => ⟨?_, ?_, fun hs hu' => ?_⟩
  · rw [hid]
    exact (hname.trans_lt (Nat.lt_succ_self _))
  · rw [hserial]
    exact Nat.lt_succ_self _
  · rw [hscript]
    exact hkind new rfl rfl
  · obtain ⟨hp, hb⟩ := hblock (hscript.1 hs)
    rw [hparams]
    refine ⟨?_, fun hfreed => ?_⟩
    · show params < (s.blocks ++ blocks).length
      rw [hp, List.length_append]
      exact Nat.lt_add_of_pos_right (List.length_pos_iff.2 hb)
    · have hlt : params < s.blocks.length := h.freed params hfreed
      omega
  · intro heq
    have hlt := (h.fine u hu).named
    rw [← heq, hid] at hlt
    exact absurd (hname.symm.trans_lt hlt) (lt_irrefl _)
  · rw [hserial]
    exact (h.fine u hu).older.ne'
  · rw [hparams]
    obtain ⟨hp, -⟩ := hblock (hscript.1 hs)
    have hlt := ((h.fine u hu).block hu').1
    intro heq
    rw [← heq] at hlt
    have : params < s.blocks.length := hlt
    omega

/-- The one timer with an identifier. -/
theorem Healthy.unique {l : List TicksCallback} {s : ScriptTimers} (h : Healthy l s)
    {t u : TicksCallback} (ht : t ∈ l) (hu : u ∈ l) (hid : t.identifier = u.identifier) : t = u := by
  by_contra hne
  exact (h.apart.forall ht hu hne).identifier hid

/-- A clear that meets no script timer changes nothing. -/
theorem clearBlock_untargeted {s : ScriptTimers} (h : Healthy s.ape.timers s) {identifier : UInt32}
    (hnone : s.targets identifier = []) : clearBlock identifier s = s := by
  unfold clearBlock
  cases hfind : getTimerIdentifier identifier s.ape with
  | none => rfl
  | some t =>
    have hmem := List.mem_of_find?_eq_some hfind
    have hid : t.identifier = identifier := by simpa using List.find?_some hfind
    have hprotected : ¬ t.protect = 0 := by
      intro hprotect
      have hscript := (h.fine t hmem).kind.1 hprotect
      have htarget : t.params ∈ s.targets identifier :=
        List.mem_map.2 ⟨t, List.mem_filter.2 ⟨hmem, by simp [hscript, hid]⟩, rfl⟩
      rw [hnone] at htarget
      cases htarget
    simp only [if_neg hprotected]

/-- Setting the flag of a block keeps the invariant. -/
theorem Healthy.setCleared {l : List TicksCallback} {s : ScriptTimers} (h : Healthy l s)
    (block : Nat) :
    Healthy l { s with blocks := s.blocks.set block ⟨true⟩ } := by
  have hlength : (s.blocks.set block ⟨true⟩).length = s.blocks.length := List.length_set
  refine ⟨h.count, h.apart, fun t ht => ?_, fun b hb => (h.freed b hb).trans_eq hlength.symm, ?_,
    h.log⟩
  · obtain ⟨hnamed, holder, hkind, hblock⟩ := h.fine t ht
    exact ⟨hnamed, holder, hkind, fun hs => ⟨(hblock hs).1.trans_eq hlength.symm, (hblock hs).2⟩⟩
  · intro targets changed hmem b hb
    have hold := h.cleared targets changed hmem b hb
    unfold ScriptTimers.cleared at hold ⊢
    by_cases hbe : block = b
    · subst hbe
      by_cases hlt : block < s.blocks.length
      · simp [List.getD_eq_getElem?_getD, hlt]
      · rw [List.getD_eq_default _ _ (Nat.not_lt.1 hlt)] at hold
        cases hold
    · rw [List.getD_eq_getElem?_getD] at hold ⊢
      simp only [List.getElem?_set_ne hbe]
      exact hold

/-- What a clear does to the script timer that is meant. -/
theorem clearBlock_targeted {s : ScriptTimers} (h : Healthy s.ape.timers s) {identifier : UInt32}
    {b : Nat} (hb : b ∈ s.targets identifier) :
    .freed b ∉ s.log ∧ b < s.blocks.length ∧
      clearBlock identifier s = { s.use b with blocks := s.blocks.set b ⟨true⟩ } := by
  obtain ⟨t, ht, rfl⟩ := List.mem_map.1 hb
  obtain ⟨hmem, hmeant⟩ := List.mem_filter.1 ht
  obtain ⟨hscript, hid⟩ := of_decide_eq_true hmeant
  obtain ⟨hlt, hkept⟩ := (h.fine t hmem).block hscript
  refine ⟨hkept, hlt, ?_⟩
  have hfind : getTimerIdentifier identifier s.ape = some t := by
    cases hfind : getTimerIdentifier identifier s.ape with
    | none =>
      have := List.find?_eq_none.1 hfind t hmem
      exact absurd hid (by simpa using this)
    | some u =>
      have hu := List.mem_of_find?_eq_some hfind
      have huid : u.identifier = identifier := by simpa using List.find?_some hfind
      rw [h.unique hu hmem (huid.trans hid.symm)]
  have hprotect : t.protect = 0 := (h.fine t hmem).kind.2 hscript
  simp only [clearBlock, hfind, if_pos hprotect]

/-- `clearTimeout` keeps the invariant. -/
theorem clear_healthy {s : ScriptTimers} (h : Healthy s.ape.timers s) (identifier : UInt32) :
    Healthy s.ape.timers (apeNativeClearTimeout identifier s) := by
  unfold apeNativeClearTimeout
  by_cases hnone : s.targets identifier = []
  · rw [clearBlock_untargeted h hnone, hnone]
    refine h.event (fun _ => ?_) (fun b hb => ?_) fun targets changed he b hb => ?_
    · simp
    · cases hb
    · cases he
      cases hb
  · obtain ⟨b, hb⟩ := List.exists_mem_of_ne_nil _ hnone
    obtain ⟨hkept, hlt, hclear⟩ := clearBlock_targeted h hb
    have hused : Healthy s.ape.timers (clearBlock identifier s) := by
      rw [hclear]
      exact (h.use hkept).setCleared b
    refine hused.event (fun he => absurd he hnone) (fun b' hb' => ?_) fun targets changed he b' hb' => ?_
    · cases hb'
    · cases he
      obtain ⟨-, hlt', hclear'⟩ := clearBlock_targeted h hb'
      rw [hclear']
      simp [ScriptTimers.cleared, List.getD_eq_getElem?_getD, hlt']

/-- A clear leaves the list alone. -/
theorem clear_ape (identifier : UInt32) (s : ScriptTimers) :
    (apeNativeClearTimeout identifier s).ape = s.ape ∧
      (apeNativeClearTimeout identifier s).created = s.created := by
  simp only [apeNativeClearTimeout, clearBlock]
  cases getTimerIdentifier identifier s.ape with
  | none => exact ⟨rfl, rfl⟩
  | some t =>
    simp only
    split_ifs
    · exact ⟨rfl, rfl⟩
    · exact ⟨rfl, rfl⟩

theorem exec_created (s : ScriptTimers) (c : Cmd) : s.created ≤ (exec s c).created := by
  cases c with
  | clearTimeout identifier => exact (clear_ape identifier s).2.ge
  | _ => exact Nat.le_succ _

/-- A timer of the server is created. -/
theorem Healthy.createServer {s : ScriptTimers} (h : Healthy s.ape.timers s)
    (hroom : s.created < 2 ^ 32) (ms : UInt32) (times : Int32) (func params : Nat) :
    Healthy (addPeriodical ms times (func + 1) params s.ape).timers
      { s with
        ape := addPeriodical ms times (func + 1) params s.ape
        created := s.created + 1 } := by
  have hcreate := h.create hroom ms (func + 1) params (fun t => { t with times := times }) []
    (fun t => ⟨rfl, rfl, rfl, rfl⟩)
    (fun t ht _ => iff_of_false (by simp only [ht]; decide) (Nat.succ_ne_zero _))
    (fun hzero => absurd hzero (Nat.succ_ne_zero _))
  rw [List.append_nil] at hcreate
  exact hcreate

/-- **Every command keeps the invariant.** -/
theorem exec_healthy {s : ScriptTimers} (h : Healthy s.ape.timers s) (c : Cmd)
    (hroom : (exec s c).created ≤ 2 ^ 32) : Healthy (exec s c).ape.timers (exec s c) := by
  cases c with
  | setTimeout ms =>
    refine h.create hroom ms _ _ _ _ (fun t => ⟨rfl, rfl, rfl, rfl⟩) (fun t _ _ => ?_) fun _ => ?_
    · exact iff_of_true rfl rfl
    · exact ⟨rfl, List.cons_ne_nil _ _⟩
  | setInterval ms =>
    refine h.create hroom ms _ _ _ _ (fun t => ⟨rfl, rfl, rfl, rfl⟩) (fun t _ _ => ?_) fun _ => ?_
    · exact iff_of_true rfl rfl
    · exact ⟨rfl, List.cons_ne_nil _ _⟩
  | clearTimeout identifier =>
    have hclear := clear_healthy h identifier
    rw [exec, (clear_ape identifier s).1]
    exact hclear
  | addTimeout ms func params => exact h.createServer hroom ms 1 func params
  | addPeriodical ms times func params => exact h.createServer hroom ms times func params

/-! ## Callbacks -/

/-- A command leaves the nodes in the list, up to their deltas. -/
theorem exec_bodies (s : ScriptTimers) (c : Cmd) {b : TicksCallback}
    (hb : b ∈ s.ape.timers.map TicksCallback.body) :
    b ∈ (exec s c).ape.timers.map TicksCallback.body := by
  have hinsert : ∀ new, b ∈ (insertTimer new s.ape.timers).map TicksCallback.body := by
    intro new
    exact (bodies_insertTimer new s.ape.timers).symm.subset (List.mem_cons_of_mem _ hb)
  cases c with
  | clearTimeout identifier =>
    rw [exec, (clear_ape identifier s).1]
    exact hb
  | _ => exact hinsert _

theorem execs_created (cs : List Cmd) (s : ScriptTimers) : s.created ≤ (cs.foldl exec s).created := by
  induction cs generalizing s with
  | nil => exact le_rfl
  | cons c cs ih => exact (exec_created s c).trans (ih _)

/-- Commands one after the other keep the invariant and the timer that is running. -/
theorem execs_healthy {cs : List Cmd} {s : ScriptTimers} (h : Healthy s.ape.timers s)
    (hroom : (cs.foldl exec s).created ≤ 2 ^ 32) {b : TicksCallback}
    (hb : b ∈ s.ape.timers.map TicksCallback.body) :
    Healthy (cs.foldl exec s).ape.timers (cs.foldl exec s) ∧
      b ∈ (cs.foldl exec s).ape.timers.map TicksCallback.body := by
  induction cs generalizing s with
  | nil => exact ⟨h, hb⟩
  | cons c cs ih =>
    have hstep := exec_healthy h c ((execs_created cs _).trans hroom)
    exact ih hstep hroom (exec_bodies s c hb)

section Callbacks

variable (env : Nat → Invocation)

theorem invoke_created (s : ScriptTimers) : s.created ≤ (invoke env s).created :=
  execs_created (env s.ape.calls).cmds { s with ape := { s.ape with calls := s.ape.calls + 1 } }

/-- An invocation of a callback keeps the invariant, and the timer it is called for stays in the list. -/
theorem invoke_healthy {s : ScriptTimers} (h : Healthy s.ape.timers s)
    (hroom : (invoke env s).created ≤ 2 ^ 32) {b : TicksCallback}
    (hb : b ∈ s.ape.timers.map TicksCallback.body) :
    Healthy (invoke env s).ape.timers (invoke env s) ∧
      b ∈ (invoke env s).ape.timers.map TicksCallback.body := by
  have hcalled := h.withApe { s.ape with calls := s.ape.calls + 1 } rfl le_rfl
  exact execs_healthy (s := { s with ape := { s.ape with calls := s.ape.calls + 1 } }) hcalled hroom hb

theorem callFunction_created (block : Nat) (s : ScriptTimers) :
    s.created ≤ (callFunction env block s).created := by
  unfold callFunction
  split_ifs
  · exact le_rfl
  · exact invoke_created env { s with log := s.log ++ [.invoked block] }

/-- The function of a script is called only when the timer was not cleared. -/
theorem callFunction_healthy {s : ScriptTimers} (h : Healthy s.ape.timers s) (block : Nat)
    (hroom : (callFunction env block s).created ≤ 2 ^ 32) {b : TicksCallback}
    (hb : b ∈ s.ape.timers.map TicksCallback.body) :
    Healthy (callFunction env block s).ape.timers (callFunction env block s) ∧
      b ∈ (callFunction env block s).ape.timers.map TicksCallback.body := by
  unfold callFunction at hroom ⊢
  by_cases hcleared : s.cleared block = true
  · rw [if_pos hcleared]
    exact ⟨h, hb⟩
  · rw [if_neg hcleared] at hroom ⊢
    refine invoke_healthy env (s := { s with log := s.log ++ [.invoked block] }) ?_ hroom hb
    refine h.event (e := .invoked block) ?_ (fun b' he => ?_) fun targets changed he => ?_
    · intro targets changed hmem hblock
      exact hcleared (h.cleared targets changed hmem block hblock)
    · cases he
    · cases he

/-- What the wrapper does at its end, for the nodes that stay. -/
theorem release_healthy {l : List TicksCallback} {s : ScriptTimers} (h : Healthy l s) {block : Nat}
    (hlt : block < s.blocks.length) (hkept : .freed block ∉ s.log)
    (hothers : ∀ t ∈ l, isScript t = true → t.params ≠ block) (last : Bool) :
    Healthy l (release block last s).1 ∧
      ((release block last s).2 = false → .freed block ∉ (release block last s).1.log) := by
  have hused := h.use hkept
  have hkept' : .freed block ∉ (s.use block).log := by
    simpa [ScriptTimers.use] using hkept
  unfold release
  by_cases hlast : (last || s.cleared block) = true
  · simp only [if_pos hlast]
    refine ⟨⟨hused.count, hused.apart, fun t ht => ?_, fun b hb => ?_, fun targets changed hmem => ?_,
      along_concat.2 ⟨hused.log, hkept'⟩⟩, fun hfalse => ?_⟩
    · obtain ⟨hnamed, holder, hkind, hblock⟩ := hused.fine t ht
      refine ⟨hnamed, holder, hkind, fun hs => ⟨(hblock hs).1, fun hmem => ?_⟩⟩
      rcases List.mem_append.1 hmem with hmem | hmem
      · exact (hblock hs).2 hmem
      · exact hothers t ht hs (ScriptEvent.freed.inj (List.mem_singleton.1 hmem))
    · rcases List.mem_append.1 hb with hb | hb
      · exact hused.freed b hb
      · rw [ScriptEvent.freed.inj (List.mem_singleton.1 hb)]
        exact hlt
    · rcases List.mem_append.1 hmem with hmem | hmem
      · exact hused.cleared targets changed hmem
      · cases List.mem_singleton.1 hmem
    · rw [hlast] at hfalse
      cases hfalse
  · simp only [if_neg hlast]
    exact ⟨hused, fun _ => hkept'⟩

/-! ## One round -/

/-- A head whose delta or count is another one. -/
theorem Healthy.head {l : List TicksCallback} {s : ScriptTimers} {t u : TicksCallback}
    (h : Healthy (u :: l) s) (hsame : t.identifier = u.identifier ∧ t.serial = u.serial ∧
      t.protect = u.protect ∧ t.func = u.func ∧ t.params = u.params) : Healthy (t :: l) s := by
  obtain ⟨hid, hserial, hprotect, hfunc, hparams⟩ := hsame
  have hscript : isScript t = isScript u := by rw [isScript, isScript, hfunc]
  obtain ⟨hhead, htail⟩ := List.pairwise_cons.1 h.apart
  refine ⟨h.count, List.pairwise_cons.2 ⟨fun v hv => ?_, htail⟩, fun v hv => ?_, h.freed, h.cleared,
    h.log⟩
  · obtain ⟨hid', hserial', hblock⟩ := hhead v hv
    exact ⟨hid ▸ hid', hserial ▸ hserial', hscript ▸ hparams ▸ hblock⟩
  · rcases List.mem_cons.1 hv with rfl | hv
    · obtain ⟨hnamed, holder, hkind, hblock⟩ := h.fine u (List.mem_cons_self ..)
      exact ⟨hid ▸ hnamed, hserial ▸ holder, hscript ▸ hprotect ▸ hkind, hscript ▸ hparams ▸ hblock⟩
    · exact h.fine v (List.mem_cons_of_mem _ hv)

theorem Healthy.bump {s : ScriptTimers} (h : Healthy s.ape.timers s) :
    Healthy s.bump.ape.timers s.bump := by
  have hbumped : Healthy (bumpHead s.ape.timers) s := by
    cases hl : s.ape.timers with
    | nil => exact h.sublist (List.nil_sublist _)
    | cons t rest =>
      rw [hl] at h
      exact h.head (t := { t with delta := t.delta + 1 }) ⟨rfl, rfl, rfl, rfl, rfl⟩
  exact hbumped.withApe s.bump.ape rfl le_rfl

/-- What is behind the node that was called. -/
theorem Healthy.behind {s : ScriptTimers} (h : Healthy s.ape.timers s) {f : TicksCallback}
    (hf : f.body ∈ s.ape.timers.map TicksCallback.body) :
    Healthy (nextOf f.serial s.ape.timers) s ∧
      (∀ u ∈ nextOf f.serial s.ape.timers, Apart f u) ∧ Fine s f := by
  obtain ⟨g, hg, hbody⟩ := List.mem_map.1 hf
  have hserial : g.body.serial = f.body.serial := congrArg TicksCallback.serial hbody
  rw [TicksCallback.body_serial, TicksCallback.body_serial] at hserial
  have hsuffix : (nextOf f.serial s.ape.timers).Sublist s.ape.timers :=
    (List.tail_sublist _).trans (List.dropWhile_sublist _)
  refine ⟨h.sublist hsuffix, fun u hu => ?_, (h.fine g hg).congr hbody.symm⟩
  -- the first node with the serial is the node itself
  have hsplit : ∃ pre post, s.ape.timers = pre ++ g :: post ∧ ∀ t ∈ pre, t.serial ≠ f.serial := by
    obtain ⟨pre, post, hlist⟩ := List.append_of_mem hg
    refine ⟨pre, post, hlist, fun t ht => ?_⟩
    have hapart := h.apart
    rw [hlist] at hapart
    exact hserial ▸ ((List.pairwise_append.1 hapart).2.2 t ht g (List.mem_cons_self ..)).serial
  obtain ⟨pre, post, hlist, hpre⟩ := hsplit
  have hnext : nextOf f.serial s.ape.timers = post := by
    have hnames : g.serial ∉ Timers.names pre := by
      intro hmem
      obtain ⟨t, ht, hts⟩ := List.mem_map.1 hmem
      exact hpre t ht (hts.trans hserial)
    rw [hlist, ← hserial]
    exact Timers.nextOf_split hnames
  have hapart := h.apart
  rw [hlist] at hapart
  rw [hnext] at hu
  obtain ⟨-, hbehind, -⟩ := List.pairwise_append.1 hapart
  have hgu := (List.pairwise_cons.1 hbehind).1 u hu
  have hfu : Apart f.body u := hbody ▸ ⟨hgu.identifier, hgu.serial, hgu.block⟩
  exact ⟨hfu.identifier, hfu.serial, hfu.block⟩

/-- The callback of a node, and what stays behind it. -/
theorem callback_healthy {s : ScriptTimers} (h : Healthy s.ape.timers s) {t : TicksCallback}
    (ht : t.called.body ∈ s.ape.timers.map TicksCallback.body) (last : Bool)
    (hroom : (callback env t last s).1.created ≤ 2 ^ 32) :
    Healthy (nextOf t.serial (callback env t last s).1.ape.timers) (callback env t last s).1 ∧
      (∀ u ∈ nextOf t.serial (callback env t last s).1.ape.timers, Apart t.called u) ∧
      ((callback env t last s).2 = false → Fine (callback env t last s).1 t.called) := by
  by_cases hscript : isScript t = true
  · have hcallback : callback env t last s =
        release t.params last (callFunction env t.params (s.use t.params)) := by
      rw [callback, if_pos hscript, timerWrapper]
    have hape : ∀ s' : ScriptTimers, (release t.params last s').1.ape = s'.ape ∧
        (release t.params last s').1.created = s'.created := by
      intro s'
      unfold release
      simp only
      split_ifs <;> exact ⟨rfl, rfl⟩
    rw [hcallback] at hroom ⊢
    obtain ⟨-, -, hfirst⟩ := h.behind ht
    have hused := h.use (hfirst.block hscript).2
    rw [(hape _).2] at hroom
    obtain ⟨hcalled, hmem⟩ := callFunction_healthy env hused t.params hroom ht
    obtain ⟨hbehind, hapart, hfine⟩ := hcalled.behind hmem
    obtain ⟨hlt, hkept⟩ := hfine.block hscript
    obtain ⟨hlast, hunfreed⟩ := release_healthy hbehind hlt hkept
      (fun u hu hs => ((hapart u hu).block hscript hs).symm) last
    rw [(hape _).1]
    refine ⟨hlast, hapart, fun hfalse => ⟨?_, ?_, hfine.kind, fun _ => ⟨?_, hunfreed hfalse⟩⟩⟩
    · rw [(hape _).2]
      exact hfine.named
    · rw [(hape _).1]
      exact hfine.older
    · have hblocks : (release t.params last (callFunction env t.params (s.use t.params))).1.blocks =
          (callFunction env t.params (s.use t.params)).blocks := by
        unfold release
        simp only
        split_ifs <;> rfl
      rw [hblocks]
      exact hlt
  · have hcallback : (callback env t last s).1 = invoke env s := by
      rw [callback, if_neg hscript]
    rw [hcallback] at hroom ⊢
    obtain ⟨hcalled, hmem⟩ := invoke_healthy env h hroom ht
    obtain ⟨hbehind, hapart, hfine⟩ := hcalled.behind hmem
    exact ⟨hbehind, hapart, fun _ => hfine⟩

theorem callback_created (t : TicksCallback) (last : Bool) (s : ScriptTimers) :
    s.created ≤ (callback env t last s).1.created := by
  unfold callback
  split_ifs
  · have hcalled := callFunction_created env t.params (s.use t.params)
    refine hcalled.trans_eq ?_
    unfold timerWrapper release
    simp only
    split_ifs <;> rfl
  · exact invoke_created env s

theorem fireHead_created (t : TicksCallback) (rest : List TicksCallback) (s : ScriptTimers) :
    s.created ≤ (fireHead env t rest s).created :=
  callback_created env t (t.lastcall false)
    { s with ape := { s.ape with timers := t.called :: rest } }

/-- **Every round keeps the invariant.** -/
theorem fireHead_healthy {s : ScriptTimers} {t : TicksCallback} {rest : List TicksCallback}
    (h : Healthy (t :: rest) s) (hroom : (fireHead env t rest s).created ≤ 2 ^ 32) :
    Healthy (fireHead env t rest s).ape.timers (fireHead env t rest s) := by
  set s₁ : ScriptTimers := { s with ape := { s.ape with timers := t.called :: rest } } with hs₁
  have hstart : Healthy s₁.ape.timers s₁ :=
    (h.head (t := t.called) ⟨rfl, rfl, rfl, rfl, rfl⟩).withApe s₁.ape rfl le_rfl
  obtain ⟨hbehind, hapart, hfine⟩ := callback_healthy env hstart
    (List.mem_map.2 ⟨t.called, List.mem_cons_self .., rfl⟩) (t.lastcall false) hroom
  have hfire : fireHead env t rest s =
      { (callback env t (t.lastcall false) s₁).1 with
        ape := if (callback env t (t.lastcall false) s₁).2 then
            { (callback env t (t.lastcall false) s₁).1.ape with
              timers := nextOf t.serial (callback env t (t.lastcall false) s₁).1.ape.timers }
          else rearm t.called { (callback env t (t.lastcall false) s₁).1.ape with
            timers := nextOf t.serial (callback env t (t.lastcall false) s₁).1.ape.timers } } := rfl
  rw [hfire]
  generalize callback env t (t.lastcall false) s₁ = x at hbehind hapart hfine
  obtain ⟨s', last⟩ := x
  cases last with
  | true => exact hbehind.withApe { s'.ape with timers := nextOf t.serial s'.ape.timers } rfl le_rfl
  | false =>
    have hrearmed : Healthy (nextOf t.serial s'.ape.timers)
        { s' with ape := rearm t.called { s'.ape with timers := nextOf t.serial s'.ape.timers } } := by
      refine hbehind.withApe _ ?_ (Nat.le_succ _)
      show s'.ape.ntimers + 1 - 1 = s'.ape.ntimers
      exact add_sub_cancel_right _ _
    have hkept := hfine rfl
    have hlink := hrearmed.link { t.called with delta := t.called.ticksNeed }
      ⟨hkept.named, hkept.older.trans (Nat.lt_succ_self _), hkept.kind, hkept.block⟩
      fun u hu => ⟨(hapart u hu).identifier, (hapart u hu).serial, (hapart u hu).block⟩
    rw [← Timers.rearm_timers t.called { s'.ape with timers := nextOf t.serial s'.ape.timers }] at hlink
    exact hlink

/-! ## Ticks and runs -/

theorem tickLoop_created (fuel : Nat) (s : ScriptTimers) :
    s.created ≤ (tickLoop env fuel s).1.created := by
  induction fuel generalizing s with
  | zero => exact le_rfl
  | succ n ih =>
    unfold tickLoop
    cases s.ape.timers with
    | nil => exact le_rfl
    | cons t rest =>
      simp only
      split_ifs
      · exact (fireHead_created env _ rest s).trans (ih (fireHead env _ rest s).bump)
      · exact le_rfl

/-- **A tick**, however far it has come. -/
theorem tickLoop_healthy (fuel : Nat) {s : ScriptTimers} (h : Healthy s.ape.timers s)
    (hroom : (tickLoop env fuel s).1.created ≤ 2 ^ 32) :
    Healthy (tickLoop env fuel s).1.ape.timers (tickLoop env fuel s).1 := by
  induction fuel generalizing s with
  | zero => exact h
  | succ n ih =>
    unfold tickLoop at hroom ⊢
    cases hl : s.ape.timers with
    | nil =>
      simp only
      rw [hl]
      exact hl ▸ h
    | cons t rest =>
      rw [hl] at h
      have hhead := h.head (t := { t with delta := t.delta - 1 }) ⟨rfl, rfl, rfl, rfl, rfl⟩
      rw [hl] at hroom
      simp only at hroom ⊢
      by_cases hdue : t.delta - 1 ≤ 0
      · rw [if_pos hdue] at hroom ⊢
        set s' := fireHead env { t with delta := t.delta - 1 } rest s with hs'
        have hcreated : s'.created ≤ (tickLoop env n s'.bump).1.created := tickLoop_created env n s'.bump
        exact ih (fireHead_healthy env hhead (hcreated.trans hroom)).bump hroom
      · rw [if_neg hdue] at hroom ⊢
        exact hhead.withApe { s.ape with timers := { t with delta := t.delta - 1 } :: rest } rfl le_rfl

theorem scriptOp_created (fuel : Nat) (op : ScriptOp) (s : ScriptTimers) :
    s.created ≤ (op.exec env fuel s).1.created := by
  cases op with
  | cmd c => exact exec_created s c
  | tick => exact tickLoop_created env fuel { s with ape := { s.ape with ticks := s.ape.ticks + 1 } }

theorem scriptOp_healthy (fuel : Nat) (op : ScriptOp) {s : ScriptTimers} (h : Healthy s.ape.timers s)
    (hroom : (op.exec env fuel s).1.created ≤ 2 ^ 32) :
    Healthy (op.exec env fuel s).1.ape.timers (op.exec env fuel s).1 := by
  cases op with
  | cmd c => exact exec_healthy h c hroom
  | tick =>
    exact tickLoop_healthy env fuel
      (h.withApe { s.ape with ticks := s.ape.ticks + 1 } rfl le_rfl) hroom

theorem runOps_created (fuel : Nat) (ops : List ScriptOp) (s : ScriptTimers) :
    s.created ≤ (runOps env fuel ops s).created := by
  induction ops generalizing s with
  | nil => exact le_rfl
  | cons op ops ih =>
    have hstep := scriptOp_created env fuel op s
    unfold runOps
    generalize op.exec env fuel s = x at hstep
    obtain ⟨s', _ | _⟩ := x
    · exact hstep
    · exact hstep.trans (ih s')

/-- Every run keeps the invariant. -/
theorem runOps_healthy (fuel : Nat) (ops : List ScriptOp) {s : ScriptTimers}
    (h : Healthy s.ape.timers s) (hroom : (runOps env fuel ops s).created ≤ 2 ^ 32) :
    Healthy (runOps env fuel ops s).ape.timers (runOps env fuel ops s) := by
  induction ops generalizing s with
  | nil => exact h
  | cons op ops ih =>
    have hstep := scriptOp_healthy env fuel op h
    unfold runOps at hroom ⊢
    generalize op.exec env fuel s = x at hstep hroom
    obtain ⟨s', _ | _⟩ := x
    · exact hstep hroom
    · exact ih (hstep ((runOps_created env fuel ops s').trans hroom)) hroom

end Callbacks

/-- **Cleared timers never run again.**  In every run of commands and ticks, whatever the callbacks do
and however far the last tick has come, with fewer than `2 ^ 32` timers created: behind a clear with
the identifier of a script timer in the list the function of that timer is not called, any other clear
changes nothing, and a block is not used or freed again once it has been freed. -/
theorem cleared_timers_never_run (env : Nat → Invocation) (fuel : Nat) (ops : List ScriptOp)
    (hfew : (runOps env fuel ops .init).created < 2 ^ 32) :
    Along Rightly (runOps env fuel ops .init).log :=
  (runOps_healthy env fuel ops healthy_init hfew.le).log

/-- An interval that is cleared by its own second call, and a timer of another delay beside it. -/
theorem cleared_timers_never_run_interval :
    Along Rightly (runOps (fun i => ⟨if i = 1 then [.clearTimeout 0, .setTimeout 0] else [], false⟩) 9
      [.cmd (.setInterval 1), .cmd (.setTimeout 3), .tick, .tick, .tick, .tick] .init).log :=
  cleared_timers_never_run _ _ _ (by decide)

end Ape.Script
