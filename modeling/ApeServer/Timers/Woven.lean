import ApeServer.Timers.Deadlines
import ApeServer.Timers.Reentry

/-!
# A timer list with one node more

Two timer lists are compared, one of which has an extra node in it.  The timers that are added
after the extra one have the next name and the next identifier in the second list; apart from that
the nodes are the same.

* `Woven` — the second list is the first with the extra node in it, whose delta is taken off the
  node behind it; `Woven.insert` says that **an add keeps this, wherever it lands**;
* `InCall` — both runs stand inside the callback of one timer; `InCall.serve` is an add, and
  `InCall.finish` the end of the round;
* `fireHead_beside` — **a round for the same timer keeps the lists related**, for every relation
  that adds keep.
-/

namespace Ape.Timers

/-! ## Names -/

/-- The name that the timer `s` has in the run with the extra timer `x`. -/
def beside (x s : Nat) : Nat := if s < x then s else s + 1

theorem beside_of_lt {x s : Nat} (h : s < x) : beside x s = s := if_pos h

theorem beside_of_le {x s : Nat} (h : x ≤ s) : beside x s = s + 1 := if_neg (Nat.not_lt.2 h)

theorem beside_ne (x s : Nat) : beside x s ≠ x := by
  unfold beside
  split <;> omega

theorem beside_inj {x s s' : Nat} : beside x s = beside x s' ↔ s = s' := by
  unfold beside
  split <;> split <;> omega

/-- An event of the first run as it stands in the second. -/
def TimerEvent.shift (x : Nat) : TimerEvent → TimerEvent
  | .added s tick msec times inside => .added (beside x s) tick msec times inside
  | .fired s tick setsLast => .fired (beside x s) tick setsLast

theorem TimerEvent.shift_of_lt {x : Nat} {e : TimerEvent} (h : e.serial < x) : e.shift x = e := by
  cases e with
  | added s tick msec times inside => exact congrArg (added · tick msec times inside) (if_pos h)
  | fired s tick setsLast => exact congrArg (fired · tick setsLast) (if_pos h)

/-- What the log says about the timers other than `x`. -/
def others (x : Nat) (log : List TimerEvent) : List TimerEvent :=
  log.filter fun e => e.serial != x

/-! ## The same timer in both runs -/

/-- A node of the first run as it stands in the second: a timer added after the extra one has the
next name and the next identifier. -/
def twin (x : Nat) (t : TicksCallback) : TicksCallback :=
  { t with
    serial := beside x t.serial
    identifier := if t.serial < x then t.identifier else t.identifier + 1 }

@[simp] theorem twin_serial (x : Nat) (t : TicksCallback) :
    (twin x t).serial = beside x t.serial := rfl

@[simp] theorem twin_delta (x : Nat) (t : TicksCallback) : (twin x t).delta = t.delta := rfl

theorem twin_lastcall (x : Nat) (t : TicksCallback) (b : Bool) :
    (twin x t).lastcall b = t.lastcall b := rfl

/-- A timer of before is its own twin. -/
theorem twin_of_lt {x : Nat} {t : TicksCallback} (h : t.serial < x) : twin x t = t := by
  rw [twin, beside_of_lt h, if_pos h]

theorem map_twin_of_lt {x : Nat} {l : List TicksCallback} (h : ∀ t ∈ l, t.serial < x) :
    l.map (twin x) = l := by
  refine (List.map_congr_left fun t ht => ?_).trans (List.map_id l)
  exact twin_of_lt (h t ht)

/-- The walk of an add looks at the deltas only. -/
theorem map_twin_insertTimer (x : Nat) (new : TicksCallback) (l : List TicksCallback) :
    (insertTimer new l).map (twin x) = insertTimer (twin x new) (l.map (twin x)) := by
  induction l generalizing new with
  | nil => rfl
  | cons t ts ih =>
    by_cases h : new.delta ≤ t.delta
    · have htwin : (twin x new).delta ≤ (twin x t).delta := h
      rw [insertTimer, if_pos h, List.map_cons, List.map_cons, List.map_cons, insertTimer,
        if_pos htwin]
      rfl
    · have htwin : ¬ (twin x new).delta ≤ (twin x t).delta := h
      rw [insertTimer, if_neg h, List.map_cons, List.map_cons, ih, insertTimer, if_neg htwin]
      rfl

theorem map_twin_decHead (x : Nat) (l : List TicksCallback) :
    (decHead l).map (twin x) = decHead (l.map (twin x)) := by
  cases l <;> rfl

/-- A node has the name `f` if its twin has the name of the twin of `f`. -/
theorem serial_twin_beq (x f : Nat) :
    (fun t => t.serial == beside x f) ∘ twin x = fun t : TicksCallback => t.serial == f := by
  funext t
  simp only [Function.comp_apply, twin_serial, Bool.beq_eq_decide_eq, beside_inj]

theorem map_twin_nextOf (x f : Nat) (l : List TicksCallback) :
    (nextOf f l).map (twin x) = nextOf (beside x f) (l.map (twin x)) := by
  have hname : (fun t => t.serial != beside x f) ∘ twin x =
      fun t : TicksCallback => t.serial != f := by
    funext t
    simp only [Function.comp_apply, twin_serial, bne, Bool.beq_eq_decide_eq, beside_inj]
  rw [nextOf, nextOf, List.dropWhile_map, hname, List.map_tail]

theorem deltaOf_map_twin (x f : Nat) (l : List TicksCallback) :
    deltaOf (beside x f) (l.map (twin x)) = deltaOf f l := by
  rw [deltaOf, deltaOf, List.find?_map, serial_twin_beq, Option.map_map]
  rfl

/-- What the logs of the two runs say about each other. -/
theorem others_append (x : Nat) (log log' : List TimerEvent) :
    others x (log ++ log') = others x log ++ others x log' := List.filter_append ..

theorem firings_others {x s : Nat} (h : s ≠ x) (log : List TimerEvent) :
    firings s (others x log) = firings s log := by
  rw [firings, others, List.filterMap_filter]
  refine List.filterMap_congr fun e he => ?_
  cases e with
  | added => simp
  | fired s' t b =>
    by_cases hs : s' = s
    · subst hs
      simp [TimerEvent.serial, h]
    · simp [TimerEvent.serial, hs]

theorem firings_shift (x s : Nat) (log : List TimerEvent) :
    firings (beside x s) (log.map (TimerEvent.shift x)) = firings s log := by
  rw [firings, firings, List.filterMap_map]
  refine List.filterMap_congr fun e he => ?_
  cases e with
  | added => rfl
  | fired s' t b => simp [TimerEvent.shift, beside_inj]

/-! ## The extra node in the list -/

/-- No delta and no period of the list is negative. -/
structure Calm (l : List TicksCallback) : Prop where
  nonNeg : NonNeg l
  periods : ∀ t ∈ l, 0 ≤ t.ticksNeed.toInt

theorem calm_cons {t : TicksCallback} {l : List TicksCallback} :
    Calm (t :: l) ↔ 0 ≤ t.delta.toInt ∧ 0 ≤ t.ticksNeed.toInt ∧ Calm l := by
  constructor
  · rintro ⟨hdelta, hperiod⟩
    obtain ⟨ht, hl⟩ := (nonNeg_cons t l).1 hdelta
    exact ⟨ht, hperiod t (List.mem_cons_self ..), hl,
      fun u hu => hperiod u (List.mem_cons_of_mem _ hu)⟩
  · rintro ⟨ht, hp, hl, hperiod⟩
    refine ⟨(nonNeg_cons t l).2 ⟨ht, hl⟩, fun u hu => ?_⟩
    rcases List.mem_cons.1 hu with rfl | hu
    · exact hp
    · exact hperiod u hu

theorem Calm.insert {l : List TicksCallback} (h : Calm l) {new : TicksCallback}
    (hdelta : 0 ≤ new.delta.toInt) (hperiod : 0 ≤ new.ticksNeed.toInt) :
    Calm (insertTimer new l) := by
  refine ⟨nonNeg_insertTimer hdelta h.nonNeg, fun t ht => ?_⟩
  rcases body_of_mem_insertTimer ht with heq | ⟨u, hu, heq⟩
  · rw [← t.body_ticksNeed, heq]
    exact hperiod
  · rw [← t.body_ticksNeed, heq]
    exact h.periods u hu

/-- `B` is the list `A` with one node more, which has the body `e`: its delta is not negative and
is taken off the node behind it. -/
inductive Woven (e : TicksCallback) : List TicksCallback → List TicksCallback → Prop
  | last {n : TicksCallback} (hbody : n.body = e) (hn : 0 ≤ n.delta.toInt) : Woven e [] [n]
  | here {n q q' : TicksCallback} {Q : List TicksCallback} (hbody : n.body = e)
      (hn : 0 ≤ n.delta.toInt) (hq : n.delta.toInt ≤ q.delta.toInt)
      (hq' : q' = { q with delta := q.delta - n.delta }) : Woven e (q :: Q) (n :: q' :: Q)
  | later {p : TicksCallback} {A B : List TicksCallback} (h : Woven e A B) :
      Woven e (p :: A) (p :: B)

/-- An add weaves its own node into the list, and the others stay. -/
theorem woven_insertTimer {new : TicksCallback} {l : List TicksCallback}
    (hnew : 0 ≤ new.delta.toInt) (hl : NonNeg l) : Woven new.body l (insertTimer new l) := by
  induction l generalizing new with
  | nil => exact .last rfl hnew
  | cons t ts ih =>
    obtain ⟨ht, hts⟩ := (nonNeg_cons t ts).1 hl
    by_cases h : new.delta ≤ t.delta
    · rw [insertTimer, if_pos h]
      exact .here rfl hnew (Int32.le_iff_toInt_le.1 h) rfl
    · rw [insertTimer, if_neg h]
      have hlt : ¬ new.delta.toInt ≤ t.delta.toInt := fun hle => h (Int32.le_iff_toInt_le.2 hle)
      have hsub := CInt.toInt_sub_of_nonneg hnew ht
      exact .later (@ih { new with delta := new.delta - t.delta } (by simp only [hsub]; omega) hts)

/-- **An add keeps the extra node where it is**, whatever side of it the add lands on. -/
theorem Woven.insert {e : TicksCallback} {A B : List TicksCallback} (h : Woven e A B)
    {new : TicksCallback} (hA : NonNeg A) (hnew : 0 ≤ new.delta.toInt) :
    Woven e (insertTimer new A) (insertTimer new B) := by
  induction h generalizing new with
  | @last n hbody hn =>
    by_cases hle : new.delta ≤ n.delta
    · -- in front of the extra node
      simp only [insertTimer, if_pos hle]
      have hsub := CInt.toInt_sub_of_nonneg hn hnew
      have := Int32.le_iff_toInt_le.1 hle
      exact .later (.last hbody (by simp only [hsub]; omega))
    · simp only [insertTimer, if_neg hle]
      have hlt : ¬ new.delta.toInt ≤ n.delta.toInt := fun h => hle (Int32.le_iff_toInt_le.2 h)
      exact .here hbody hn (by omega) rfl
  | @here n q q' Q hbody hn hq hq' =>
    subst hq'
    obtain ⟨hq0, hQ⟩ := (nonNeg_cons q Q).1 hA
    have hqn := CInt.toInt_sub_of_nonneg hq0 hn
    by_cases hle : new.delta ≤ n.delta
    · have hle' := Int32.le_iff_toInt_le.1 hle
      have hleq : new.delta ≤ q.delta := Int32.le_iff_toInt_le.2 (hle'.trans hq)
      simp only [insertTimer, if_pos hle, if_pos hleq]
      have hnsub := CInt.toInt_sub_of_nonneg hn hnew
      have hqsub := CInt.toInt_sub_of_nonneg hq0 hnew
      refine .later (.here hbody (by simp only [hnsub]; omega)
        (by simp only [hnsub, hqsub]; omega) ?_)
      simp only [CInt.sub_sub_sub_cancel]
    · have hlt : ¬ new.delta.toInt ≤ n.delta.toInt := fun h => hle (Int32.le_iff_toInt_le.2 h)
      have hsub := CInt.toInt_sub_of_nonneg hnew hn
      by_cases hleq : new.delta ≤ q.delta
      · -- between the extra node and the one it shortens
        have hleq' := Int32.le_iff_toInt_le.1 hleq
        have hres : new.delta - n.delta ≤ q.delta - n.delta :=
          Int32.le_iff_toInt_le.2 (by rw [hsub, hqn]; omega)
        simp only [insertTimer, if_neg hle, if_pos hleq, if_pos hres, CInt.sub_sub_sub_cancel]
        exact .here hbody hn (by omega) rfl
      · have hltq : ¬ new.delta.toInt ≤ q.delta.toInt := fun h =>
          hleq (Int32.le_iff_toInt_le.2 h)
        have hres : ¬ new.delta - n.delta ≤ q.delta - n.delta := fun h => by
          have := Int32.le_iff_toInt_le.1 h
          rw [hsub, hqn] at this
          omega
        simp only [insertTimer, if_neg hle, if_neg hleq, if_neg hres, CInt.sub_sub_sub_cancel]
        exact .here hbody hn hq rfl
  | @later p A B h ih =>
    obtain ⟨hp, hA'⟩ := (nonNeg_cons p A).1 hA
    by_cases hle : new.delta ≤ p.delta
    · simp only [insertTimer, if_pos hle]
      exact .later (.later h)
    · simp only [insertTimer, if_neg hle]
      have hlt : ¬ new.delta.toInt ≤ p.delta.toInt := fun h => hle (Int32.le_iff_toInt_le.2 h)
      have hsub := CInt.toInt_sub_of_nonneg hnew hp
      exact .later (ih hA' (by simp only [hsub]; omega))

/-! ## A callback in both runs -/

/-- What the two runs have in common whatever their lists look like. -/
structure Same (x : Nat) (g g' : ApeTimers) : Prop where
  ticks : g'.ticks = g.ticks
  serials : g'.serials = g.serials + 1
  ntimers : g'.ntimers = g.ntimers + 1
  calls : g'.calls = g.calls + (firings x g'.log).length
  log : others x g'.log = g.log.map (TimerEvent.shift x)
  later : x ≤ g.serials

/-- The node that an add makes in the second run is the twin of the one it makes in the first. -/
theorem Same.newNode {x : Nat} {g g' : ApeTimers} (h : Same x g g') (r : AddRequest) :
    newNode r g' = twin x (newNode r g) := by
  have hserial : g'.serials = beside x g.serials := by rw [h.serials, beside_of_le h.later]
  have hid : g'.ntimers = if g.serials < x then g.ntimers else g.ntimers + 1 := by
    rw [h.ntimers, if_neg (Nat.not_lt.2 h.later)]
  rw [Timers.newNode, hserial, hid]
  rfl

theorem Same.serve {x : Nat} {g g' : ApeTimers} (h : Same x g g') (inside : Option Int32)
    (r : AddRequest) : Same x (serve inside r g) (serve inside r g') := by
  have hserial : g'.serials = beside x g.serials := by rw [h.serials, beside_of_le h.later]
  rw [serve_eq, serve_eq]
  refine ⟨h.ticks, ?_, ?_, ?_, ?_, h.later.trans (Nat.le_succ _)⟩
  · simp only [h.serials]
  · simp only [h.ntimers]
  · simp only [firings_append, firings_added, List.append_nil]
    exact h.calls
  · have hown : others x [.added g'.serials g'.ticks r.msec r.times inside] =
        [TimerEvent.added g.serials g.ticks r.msec r.times inside].map (TimerEvent.shift x) := by
      simp [others, TimerEvent.serial, beside_ne, TimerEvent.shift, hserial, h.ticks]
    rw [others_append, h.log, hown, List.map_append]

/-- **Where an add from inside a callback lands.**  With nothing negative in front of the node `n`
being fired, and at worst -1 in it, the add lands in front of `n` or behind it, and does so alike
for every list `R` behind `n`. -/
theorem insertTimer_cut {n new : TicksCallback} {P : List TicksCallback} (hP : NonNeg P)
    (hn : 0 ≤ n.delta.toInt ∨ P = [] ∧ n.delta.toInt = -1) (hnew : 0 ≤ new.delta.toInt)
    (hfit : new.delta.toInt - n.delta.toInt < 2 ^ 31) :
    (∃ P' n', (∀ R, insertTimer new (P ++ n :: R) = P' ++ n' :: R) ∧ NonNeg P' ∧
        0 ≤ n'.delta.toInt ∧ n'.serial = n.serial ∧
        (names P').Perm (new.serial :: names P)) ∨
      ∃ d : Int32, 0 ≤ d.toInt ∧
        ∀ R, insertTimer new (P ++ n :: R) = P ++ n :: insertTimer { new with delta := d } R := by
  induction P generalizing new with
  | nil =>
    by_cases h : new.delta ≤ n.delta
    · have hle := Int32.le_iff_toInt_le.1 h
      have hsub := CInt.toInt_sub_of_nonneg (hnew.trans hle) hnew
      refine Or.inl ⟨[new], { n with delta := n.delta - new.delta }, fun R => ?_, ?_, ?_, rfl,
        List.Perm.refl _⟩
      · simp only [List.nil_append, insertTimer, if_pos h, List.singleton_append]
      · simpa using hnew
      · simp only [hsub]
        omega
    · have hlt : ¬ new.delta.toInt ≤ n.delta.toInt := fun hle => h (Int32.le_iff_toInt_le.2 hle)
      have hsub := CInt.toInt_sub (a := new.delta) (b := n.delta) (by omega) hfit
      refine Or.inr ⟨new.delta - n.delta, by omega, fun R => ?_⟩
      simp only [List.nil_append, insertTimer, if_neg h]
  | cons p P ih =>
    obtain ⟨hp, hP'⟩ := (nonNeg_cons p P).1 hP
    have hn' : 0 ≤ n.delta.toInt := hn.resolve_right fun h => absurd h.1 (List.cons_ne_nil p P)
    by_cases h : new.delta ≤ p.delta
    · have hle := Int32.le_iff_toInt_le.1 h
      have hsub := CInt.toInt_sub_of_nonneg hp hnew
      refine Or.inl ⟨new :: { p with delta := p.delta - new.delta } :: P, n, fun R => ?_, ?_, hn',
        rfl, List.Perm.refl _⟩
      · simp only [List.cons_append, insertTimer, if_pos h]
      · simp only [nonNeg_cons, hsub]
        exact ⟨hnew, by omega, hP'⟩
    · have hlt : ¬ new.delta.toInt ≤ p.delta.toInt := fun hle => h (Int32.le_iff_toInt_le.2 hle)
      have hsub := CInt.toInt_sub_of_nonneg hnew hp
      rcases @ih { new with delta := new.delta - p.delta } hP' (Or.inl hn')
        (by simp only [hsub]; omega) (by simp only [hsub]; omega) with
        ⟨P', n', heq, hP'', hn'', hs, hperm⟩ | ⟨d, hd, heq⟩
      · refine Or.inl ⟨p :: P', n', fun R => ?_, ?_, hn'', hs,
          (List.Perm.cons _ hperm).trans (List.Perm.swap ..)⟩
        · simp only [List.cons_append, insertTimer, if_neg h, heq]
        · simpa using ⟨hp, hP''⟩
      · refine Or.inr ⟨d, hd, fun R => ?_⟩
        simp only [List.cons_append, insertTimer, if_neg h, heq]

section Callback

variable (x : Nat) (W : List TicksCallback → List TicksCallback → Prop)

/-- Adds keep what the lists behind the fired node have to do with each other. -/
def Stable : Prop :=
  ∀ new A B, 0 ≤ new.delta.toInt → NonNeg A → W A B → W (insertTimer new A) (insertTimer new B)

/-- Both runs stand inside the callback of the timer `f`: the nodes `P` in front of its node `n`
are the same, and so is `n`; what stands behind is related by `W`. -/
structure InCall (f : Nat) (P : List TicksCallback) (n : TicksCallback)
    (A B : List TicksCallback) (g g' : ApeTimers) : Prop where
  first : g.timers.map (twin x) = P ++ n :: A
  second : g'.timers = P ++ n :: B
  name : n.serial = beside x f
  front : n.serial ∉ names P
  nonNeg : NonNeg P
  spent : 0 ≤ n.delta.toInt ∨ P = [] ∧ n.delta.toInt = -1
  calm : Calm A
  behind : W A B
  same : Same x g g'
  own : n.serial < g'.serials
  known : ∀ t ∈ A, t.serial < g'.serials

variable {x W}

/-- An add asked for while the node being fired has the delta `d` does not overflow. -/
def AddRequest.Fits (r : AddRequest) (d : ℤ) : Prop :=
  r.msec.toNat < 2 ^ 31 ∧ (r.msec.toNat : ℤ) - d < 2 ^ 31

theorem AddRequest.fits_of_nonneg {r : AddRequest} {d : ℤ} (hr : r.msec.toNat < 2 ^ 31)
    (hd : 0 ≤ d) : r.Fits d := ⟨hr, by omega⟩

/-- **One add** of a callback leaves the two runs as they stand to each other. -/
theorem InCall.serve (hW : Stable W) {f : Nat} {P : List TicksCallback} {n : TicksCallback}
    {A B : List TicksCallback} {g g' : ApeTimers} (h : InCall x W f P n A B g g')
    {r : AddRequest} (hr : r.Fits n.delta.toInt) :
    ∃ P' n' A' B', InCall x W f P' n' A' B' (serveInside f g r) (serveInside (beside x f) g' r) ∧
      (n' = n ∨ 0 ≤ n'.delta.toInt) := by
  have hsecond : deltaOf (beside x f) g'.timers = some n.delta := by
    rw [h.second, ← h.name]
    exact deltaOf_split h.front
  have hfirst : deltaOf f g.timers = some n.delta := by
    rw [← deltaOf_map_twin x, h.first, ← h.name]
    exact deltaOf_split h.front
  rw [serveInside, serveInside, hfirst, hsecond]
  have hsame := h.same.serve (some n.delta) r
  set new := twin x (newNode r g) with hnew
  have hdelta : new.delta.toInt = r.msec.toNat := CInt.toInt_toInt32 hr.1
  have hperiod : new.ticksNeed.toInt = r.msec.toNat := CInt.toInt_toInt32 hr.1
  have hserial : new.serial = g'.serials := by rw [hnew, ← h.same.newNode r, Timers.newNode]
  have htimers : (Timers.serve (some n.delta) r g).timers.map (twin x) =
      insertTimer new (P ++ n :: A) := by
    rw [serve_eq]
    simp only [map_twin_insertTimer, h.first, hnew]
  have htimers' : (Timers.serve (some n.delta) r g').timers = insertTimer new (P ++ n :: B) := by
    rw [serve_eq]
    simp only [h.second, h.same.newNode r, hnew]
  have hlater : g'.serials < (Timers.serve (some n.delta) r g').serials := by
    rw [serve_eq]
    exact Nat.lt_succ_self _
  rcases @insertTimer_cut n new P h.nonNeg h.spent (by omega) (by rw [hdelta]; exact hr.2) with
    ⟨P', n', heq, hP', hn', hs, hperm⟩ | ⟨d, hd, heq⟩
  · -- in front of the node: the two fronts grow alike
    refine ⟨P', n', A, B, ⟨by rw [htimers, heq], by rw [htimers', heq], hs.trans h.name, ?_, hP',
      Or.inl hn', h.calm, h.behind, hsame, ?_, fun t ht => (h.known t ht).trans hlater⟩,
      Or.inr hn'⟩
    · rw [hperm.mem_iff, List.mem_cons, hs, hserial, not_or]
      exact ⟨h.own.ne, h.front⟩
    · rw [hs]
      exact h.own.trans hlater
  · refine ⟨P, n, _, _, ⟨by rw [htimers, heq], by rw [htimers', heq], h.name, h.front, h.nonNeg,
      h.spent, h.calm.insert hd (by simp only [hperiod]; omega), hW _ _ _ hd h.calm.nonNeg h.behind,
      hsame, h.own.trans hlater, fun t ht => ?_⟩, Or.inl rfl⟩
    rcases body_of_mem_insertTimer ht with hb | ⟨u, hu, hb⟩
    · have hts : t.serial = g'.serials := by
        rw [← t.body_serial, hb, TicksCallback.body_serial, hserial]
      rw [hts]
      exact hlater
    · have hts : t.serial = u.serial := by rw [← t.body_serial, hb, TicksCallback.body_serial]
      rw [hts]
      exact (h.known u hu).trans hlater

/-- **A whole callback** in both runs. -/
theorem InCall.serves (hW : Stable W) {f : Nat} (adds : List AddRequest) {P : List TicksCallback}
    {n : TicksCallback} {A B : List TicksCallback} {g g' : ApeTimers}
    (h : InCall x W f P n A B g g') (hr : ∀ r ∈ adds, r.Fits n.delta.toInt) :
    ∃ P' n' A' B', InCall x W f P' n' A' B' (adds.foldl (serveInside f) g)
      (adds.foldl (serveInside (beside x f)) g') := by
  induction adds generalizing P n A B g g' with
  | nil => exact ⟨P, n, A, B, h⟩
  | cons r adds ih =>
    obtain ⟨P', n', A', B', h', hn'⟩ := h.serve hW (hr r (List.mem_cons_self ..))
    refine ih h' fun r' hr' => ?_
    have hold := hr r' (List.mem_cons_of_mem _ hr')
    rcases hn' with rfl | hn'
    · exact hold
    · exact AddRequest.fits_of_nonneg hold.1 hn'

/-! ## A round for the same timer -/

theorem calm_map_twin {l : List TicksCallback} : Calm (l.map (twin x)) ↔ Calm l := by
  constructor
  · rintro ⟨hdelta, hperiod⟩
    exact ⟨fun t ht => hdelta (twin x t) (List.mem_map_of_mem ht),
      fun t ht => hperiod (twin x t) (List.mem_map_of_mem ht)⟩
  · rintro ⟨hdelta, hperiod⟩
    refine ⟨fun t ht => ?_, fun t ht => ?_⟩
    · obtain ⟨u, hu, rfl⟩ := List.mem_map.1 ht
      exact hdelta u hu
    · obtain ⟨u, hu, rfl⟩ := List.mem_map.1 ht
      exact hperiod u hu

/-- The two runs between two rounds: the lists are related by `W`, and nothing on them is negative
or has a name still to be given. -/
structure Between (x : Nat) (W : List TicksCallback → List TicksCallback → Prop)
    (g g' : ApeTimers) : Prop where
  lists : W (g.timers.map (twin x)) g'.timers
  calm : Calm g.timers
  known : ∀ t ∈ g.timers.map (twin x), t.serial < g'.serials
  same : Same x g g'

/-- Both runs are about to fire the timer `t`. -/
structure Firing (x : Nat) (W : List TicksCallback → List TicksCallback → Prop)
    (t : TicksCallback) (rest rest' : List TicksCallback) (g g' : ApeTimers) : Prop where
  behind : W (rest.map (twin x)) rest'
  calm : Calm rest
  period : 0 ≤ t.ticksNeed.toInt
  spent : 0 ≤ t.delta.toInt ∨ t.delta.toInt = -1
  own : (twin x t).serial < g'.serials
  known : ∀ u ∈ rest.map (twin x), u.serial < g'.serials
  same : Same x g g'

/-- The callback is called in both runs. -/
theorem Firing.begun (run : CallbackRun) {t : TicksCallback} {rest rest' : List TicksCallback}
    {g g' : ApeTimers} (h : Firing x W t rest rest' g g') :
    InCall x W t.serial [] (twin x t).called (rest.map (twin x)) rest'
      (begun (fun _ => run) t rest g) (begun (fun _ => run) (twin x t) rest' g') where
  first := rfl
  second := rfl
  name := rfl
  front := List.not_mem_nil
  nonNeg := nonNeg_nil
  spent := h.spent.imp id fun hneg => ⟨rfl, hneg⟩
  calm := calm_map_twin.2 h.calm
  behind := h.behind
  own := h.own
  known := h.known
  same := by
    refine ⟨h.same.ticks, h.same.serials, h.same.ntimers, ?_, ?_, h.same.later⟩
    · simp only [Timers.begun, firings_append, twin_serial,
        firings_fired_of_ne (beside_ne x t.serial), List.append_nil, h.same.calls]
      omega
    · have hown : others x [.fired (twin x t).serial g'.ticks run.setsLast] =
          [TimerEvent.fired t.serial g.ticks run.setsLast].map (TimerEvent.shift x) := by
        simp [others, TimerEvent.serial, beside_ne, TimerEvent.shift, h.same.ticks]
      simp only [Timers.begun, others_append, h.same.log, hown, List.map_append]

/-- The callback has returned; the node is unlinked and armed again. -/
theorem InCall.finish (hW : Stable W) {t : TicksCallback} (b : Bool) {P : List TicksCallback}
    {n : TicksCallback} {A B : List TicksCallback} {g g' : ApeTimers}
    (h : InCall x W t.serial P n A B g g') (hperiod : 0 ≤ t.ticksNeed.toInt) :
    Between x W (finish t b (nextOf t.serial g.timers) g)
      (finish (twin x t) b (nextOf (twin x t).serial g'.timers) g') := by
  have hfirst : (nextOf t.serial g.timers).map (twin x) = A := by
    rw [map_twin_nextOf, h.first, ← h.name]
    exact nextOf_split h.front
  have hsecond : nextOf (twin x t).serial g'.timers = B := by
    rw [h.second, twin_serial, ← h.name]
    exact nextOf_split h.front
  have hcalm : Calm (nextOf t.serial g.timers) := by
    rw [← calm_map_twin (x := x), hfirst]
    exact h.calm
  rw [hsecond]
  unfold Timers.finish
  rw [twin_lastcall]
  by_cases hlast : t.lastcall b = true
  · rw [if_pos hlast, if_pos hlast]
    exact ⟨by rw [hfirst]; exact h.behind, hcalm, by rw [hfirst]; exact h.known,
      ⟨h.same.ticks, h.same.serials, h.same.ntimers, h.same.calls, h.same.log, h.same.later⟩⟩
  · rw [if_neg hlast, if_neg hlast]
    set again : TicksCallback := { t.called with delta := t.ticksNeed } with hagain
    have htimers : (rearm t.called { g with timers := nextOf t.serial g.timers }).timers.map
        (twin x) = insertTimer (twin x again) A := by
      rw [rearm_timers, map_twin_insertTimer, hfirst]
      rfl
    refine ⟨?_, ?_, fun u hu => ?_, ?_⟩
    · rw [htimers, rearm_timers]
      exact hW _ _ _ hperiod h.calm.nonNeg h.behind
    · rw [rearm_timers]
      exact hcalm.insert hperiod hperiod
    · have hlater : g'.serials <
          (rearm (twin x t).called { g' with timers := B }).serials := Nat.lt_succ_self _
      rw [htimers] at hu
      rcases body_of_mem_insertTimer hu with hb | ⟨v, hv, hb⟩
      · have hus : u.serial = n.serial := by
          rw [← u.body_serial, hb, TicksCallback.body_serial, h.name]
          rfl
        rw [hus]
        exact h.own.trans hlater
      · have hus : u.serial = v.serial := by rw [← u.body_serial, hb, TicksCallback.body_serial]
        rw [hus]
        exact (h.known v hv).trans hlater
    · refine ⟨h.same.ticks, ?_, ?_, h.same.calls, h.same.log, h.same.later.trans (Nat.le_succ _)⟩
      · simp only [rearm, addTimeout, h.same.serials]
      · simp only [rearm, addTimeout, h.same.ntimers, UInt32.add_sub_cancel]

/-- **A round for the same timer** in both runs. -/
theorem fireHead_beside (hW : Stable W) (run : CallbackRun) {t : TicksCallback}
    {rest rest' : List TicksCallback} {g g' : ApeTimers} (h : Firing x W t rest rest' g g')
    (hadds : ∀ r ∈ run.adds, r.Fits t.delta.toInt) :
    Between x W (fireHead (fun _ => run) t rest g)
      (fireHead (fun _ => run) (twin x t) rest' g') := by
  obtain ⟨P, n, A, B, hcall⟩ := (h.begun run).serves hW run.adds hadds
  rw [fireHead_eq, fireHead_eq]
  exact hcall.finish hW run.setsLast h.period

end Callback

end Ape.Timers
