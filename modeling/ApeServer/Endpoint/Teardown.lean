import ApeServer.Endpoint.Calls

/-!
# A socket is torn down once

`APE_socket_destroy` is guarded by the state `OFFLINE`, which it sets behind the callback
`on_disconnect`.  So it tears the socket down once unless it is reached from inside of that
callback, or a lookup that ends on a destroyed socket brings it back to life.

* `Quiet` — nothing has happened that belongs to the teardown; one lemma for each function;
* `Life` — the invariant: not yet destroyed, inside of `on_disconnect`, or destroyed;
* `StepOk` — the step is neither of the two that go wrong;
* `teardown_once` — **in every run of such steps the callback, the `close` and the release happen at
  most once**.
-/

namespace Ape.Endpoint

open Socket (PoolList JobSlot JobType JobPtr Packet packetLoop)

/-! ## What is promised, and when -/

/-- `on_disconnect`, `close` and the release have happened at most once. -/
structure Once (s : Sock) : Prop where
  onDisconnect : s.log.count .onDisconnect ≤ 1
  close : s.log.count .close ≤ 1
  free : s.log.count .free ≤ 1

/-- The callback `on_disconnect` runs. -/
def Sock.disconnecting (s : Sock) : Bool := s.stack.contains .onDisconnect

/-- The call offers its data to the system, gets an error that is not `EAGAIN`, and cannot shut the
socket down either. -/
def writeFails (sys : System) (data : List UInt8) (s : Sock) : Bool :=
  if s.secure then
    (sys.reply s.calls).clip data.length = .error && sys.shutdownFails (s.calls + 1)
  else
    match writeLoop sys data.length data s with
    | (.failed, _, s) => sys.shutdownFails s.calls
    | _ => false

/-- The call of a callback gets to `APE_socket_destroy`. -/
def Label.destroys (sys : System) (s : Sock) : Label → Bool
  | .write data => s.state = .online && !s.mustQueue && writeFails sys data s
  | .shutdown => s.state = .online && !s.mustQueue && sys.shutdownFails s.calls
  | .destroy => true
  | .connect port => port = 0
  | .lookedUp resolved => !resolved || sys.connect s.calls ≠ .inProgress
  | _ => false

/-- The step neither gets to `APE_socket_destroy` from inside of `on_disconnect`, nor connects a
socket that is destroyed. -/
structure StepOk (sys : System) (s : Sock) (l : Label) : Prop where
  reenter : s.disconnecting = true → l.destroys sys s = false
  revive : l = .lookedUp true → s.state = .offline → sys.connect s.calls ≠ .inProgress

/-- Every step of a run is of this kind. -/
def RunOk (sys : System) : Sock → List Label → Prop
  | _, [] => True
  | s, l :: ls => StepOk sys s l ∧ RunOk sys (step sys s l) ls

/-! ## Nothing that belongs to the teardown -/

/-- An entry that belongs to the teardown. -/
def Action.tearsDown : Action → Bool
  | .onDisconnect | .close | .free => true
  | _ => false

/-- From `s` to `s'` nothing has happened that belongs to the teardown. -/
structure Quiet (s s' : Sock) : Prop where
  state : s'.state = s.state
  stack : s'.stack = s.stack
  log : ∃ ev, s'.log = s.log ++ ev ∧ ∀ e ∈ ev, e.tearsDown = false

theorem Quiet.refl (s : Sock) : Quiet s s := ⟨rfl, rfl, [], by simp⟩

theorem Quiet.trans {s s' s'' : Sock} (h : Quiet s s') (h' : Quiet s' s'') : Quiet s s'' := by
  obtain ⟨ev, hlog, hev⟩ := h.log
  obtain ⟨ev', hlog', hev'⟩ := h'.log
  refine ⟨h'.state.trans h.state, h'.stack.trans h.stack, ev ++ ev', ?_, fun e he => ?_⟩
  · rw [hlog', hlog, List.append_assoc]
  · exact (List.mem_append.1 he).elim (hev e) (hev' e)

/-- One more entry, and any change of the fields that are not named. -/
theorem Quiet.entry {s s' : Sock} {a : Action} (ha : a.tearsDown = false)
    (hstate : s'.state = s.state) (hstack : s'.stack = s.stack) (hlog : s'.log = s.log ++ [a]) :
    Quiet s s' :=
  ⟨hstate, hstack, [a], hlog, fun e he => by rw [List.mem_singleton.1 he, ha]⟩

/-- Fields that are not named may change. -/
theorem Quiet.same {s s' : Sock} (hstate : s'.state = s.state) (hstack : s'.stack = s.stack)
    (hlog : s'.log = s.log) : Quiet s s' := ⟨hstate, hstack, [], by simp [hlog]⟩

theorem ask_quiet (sys : System) (asked : Nat) (s : Sock) : Quiet s (ask sys asked s).2 :=
  .entry rfl rfl rfl rfl

theorem getSlot_quiet (type : JobType) (s : Sock) : Quiet s (getSlot type s) := .same rfl rfl rfl

theorem setPtr_quiet (ptr : JobPtr) (s : Sock) : Quiet s (setPtr ptr s) := .same rfl rfl rfl

theorem setHead_quiet (f : JobSlot → JobSlot) (s : Sock) : Quiet s (setHead f s) := .same rfl rfl rfl

theorem block_quiet (s : Sock) : Quiet s s.block := .same rfl rfl rfl

theorem finishJob_quiet (s : Sock) : Quiet s (finishJob s) := .same rfl rfl rfl

theorem queueData_quiet (data : List UInt8) (offset : Nat) (s : Sock) :
    Quiet s (queueData data offset s) := by
  apply (getSlot_quiet .writev s).trans
  simp only [queueData]
  cases (getSlot .writev s).jobs.current.ptr with
  | null => exact setPtr_quiet _ _
  | packets q => exact setPtr_quiet _ _
  | file rest => exact .entry rfl rfl rfl rfl

theorem writeLoop_quiet (sys : System) (fuel : Nat) (rest : List UInt8) (s : Sock) :
    Quiet s (writeLoop sys fuel rest s).2.2 := by
  induction fuel generalizing rest s with
  | zero => exact .refl s
  | succ fuel ih =>
    simp only [writeLoop]
    by_cases hnil : rest = []
    · rw [if_pos hnil]
      exact .refl s
    · rw [if_neg hnil]
      have hask := ask_quiet sys rest.length s
      revert hask
      rcases ask sys rest.length s with ⟨_ | _ | _ | _, s'⟩
      · exact fun hask => hask.trans (ih _ s')
      all_goals exact id

theorem sendfileLoop_quiet (sys : System) (fuel : Nat) (rest : List UInt8) (s : Sock) :
    Quiet s (sendfileLoop sys fuel rest s).2.2 := by
  induction fuel generalizing rest s with
  | zero => exact .refl s
  | succ fuel ih =>
    simp only [sendfileLoop]
    have hask := ask_quiet sys (rest.take 4096).length s
    revert hask
    rcases ask sys (rest.take 4096).length s with ⟨n | _ | _ | _, s'⟩
    · intro hask
      simp only
      by_cases hzero : n = 0
      · rw [if_pos hzero]
        exact hask
      · rw [if_neg hzero]
        exact hask.trans (ih _ s')
    all_goals exact id

theorem sslLoop_quiet (sys : System) (fuel : Nat) (q : PoolList Packet) (s : Sock) :
    Quiet s (sslLoop sys fuel q s).2.2 := by
  induction fuel generalizing q s with
  | zero => exact .refl s
  | succ fuel ih =>
    simp only [sslLoop]
    by_cases hnone : q.head.data.isNone = true
    · rw [if_pos hnone]
      exact .refl s
    · rw [if_neg hnone]
      have hask := ask_quiet sys q.head.len s
      revert hask
      rcases ask sys q.head.len s with ⟨_ | _ | _ | _, s'⟩
      · exact fun hask => hask.trans (ih _ s')
      · exact id
      · exact fun hask => hask.trans (ih _ s')
      · exact id

theorem apeSendfile_quiet (sys : System) (content : List UInt8) (s : Sock) :
    Quiet s (apeSendfile sys content s) := by
  have hqueue : ∀ rest s', Quiet s s' → Quiet s (setPtr (.file rest) (getSlot .sendfile s'.block)) :=
    fun rest s' h => ((h.trans (block_quiet s')).trans (getSlot_quiet _ _)).trans (setPtr_quiet _ _)
  unfold apeSendfile
  by_cases hstate : s.state ≠ .online
  · rw [if_pos hstate]
    exact .refl s
  rw [if_neg hstate]
  by_cases hqueued : s.mustQueue = true
  · rw [if_pos hqueued]
    exact hqueue content s (.refl s)
  · rw [if_neg hqueued]
    have hloop := sendfileLoop_quiet sys (content.length + 1) content s
    revert hloop
    rcases sendfileLoop sys (content.length + 1) content s with ⟨_ | _ | _, rest, s'⟩
    · exact id
    · exact hqueue rest s'
    · exact id

/-! ## At most one call of `APE_socket_destroy` -/

/-- From `s` to `s'` nothing has happened that belongs to the teardown but, at the end, a call of
`APE_socket_destroy`. -/
def Destroys (s s' : Sock) : Prop := ∃ s₁, Quiet s s₁ ∧ s' = destroy s₁

theorem Quiet.destroys {s s' s'' : Sock} (h : Quiet s s') (h' : Destroys s' s'') :
    Destroys s s'' := by
  obtain ⟨s₁, hquiet, rfl⟩ := h'
  exact ⟨s₁, h.trans hquiet, rfl⟩

/-- A failing `shutdown` is followed by `APE_socket_destroy`. -/
theorem shutdownFd_fails {sys : System} {s : Sock} (h : sys.shutdownFails s.calls = true) :
    Destroys s (shutdownFd sys s) := by
  refine ⟨{ s.note .shutdown with calls := s.calls + 1 }, .entry rfl rfl rfl rfl, ?_⟩
  simp only [shutdownFd]
  rw [if_pos h]

theorem shutdownFd_quiet {sys : System} {s : Sock} (h : sys.shutdownFails s.calls = false) :
    Quiet s (shutdownFd sys s) := by
  simp only [shutdownFd]
  rw [if_neg (by simp [h])]
  exact .entry rfl rfl rfl rfl

theorem shutdownFd_cases (sys : System) (s : Sock) :
    Quiet s (shutdownFd sys s) ∨ Destroys s (shutdownFd sys s) := by
  cases h : sys.shutdownFails s.calls with
  | false => exact .inl (shutdownFd_quiet h)
  | true => exact .inr (shutdownFd_fails h)

theorem shutdownForce_cases (sys : System) (s : Sock) :
    Quiet s (shutdownForce sys s) ∨
      (sys.shutdownFails s.calls = true ∧ Destroys s (shutdownForce sys s)) := by
  unfold shutdownForce
  by_cases hstate : s.state ≠ .online
  · rw [if_pos hstate]
    exact .inl (.refl s)
  · rw [if_neg hstate]
    cases h : sys.shutdownFails s.calls with
    | false => exact .inl (shutdownFd_quiet h)
    | true => exact .inr ⟨rfl, shutdownFd_fails h⟩

theorem apeSocketShutdown_cases (sys : System) (s : Sock) :
    Quiet s (apeSocketShutdown sys s) ∨
      (Label.shutdown.destroys sys s = true ∧ Destroys s (apeSocketShutdown sys s)) := by
  unfold apeSocketShutdown
  by_cases hstate : s.state ≠ .online
  · rw [if_pos hstate]
    exact .inl (.refl s)
  rw [if_neg hstate]
  by_cases hqueued : s.mustQueue = true
  · rw [if_pos hqueued]
    exact .inl (getSlot_quiet _ _)
  · rw [if_neg hqueued]
    cases h : sys.shutdownFails s.calls with
    | false => exact .inl (shutdownFd_quiet h)
    | true =>
      refine .inr ⟨?_, shutdownFd_fails h⟩
      simp only [not_not] at hstate
      simp [Label.destroys, hstate, hqueued, h]

/-- **A write** gets to `APE_socket_destroy` only through an error and a failing `shutdown`. -/
theorem apeSocketWrite_cases (sys : System) (data : List UInt8) (s : Sock) :
    Quiet s (apeSocketWrite sys data s) ∨
      ((Label.write data).destroys sys s = true ∧ Destroys s (apeSocketWrite sys data s)) := by
  unfold apeSocketWrite
  by_cases hnot : s.state ≠ .online ∨ data = []
  · rw [if_pos hnot]
    exact .inl (.refl s)
  rw [if_neg hnot]
  by_cases hqueued : s.mustQueue = true
  · rw [if_pos hqueued]
    exact .inl (queueData_quiet _ _ s)
  rw [if_neg hqueued]
  have hstate : s.state = .online := by
    by_contra h
    exact hnot (.inl h)
  have hdestroys : writeFails sys data s = true → (Label.write data).destroys sys s = true := by
    intro h
    simp [Label.destroys, hstate, hqueued, h]
  by_cases hsecure : s.secure = true
  · rw [if_pos hsecure]
    have hask := ask_quiet sys data.length s
    have hreply : (ask sys data.length s).1 = (sys.reply s.calls).clip data.length := rfl
    have hcalls : (ask sys data.length s).2.calls = s.calls + 1 := rfl
    revert hask hreply hcalls
    rcases ask sys data.length s with ⟨_ | _ | _ | _, s'⟩
    · exact fun hask _ _ => .inl hask
    · exact fun hask _ _ => .inl ((hask.trans (block_quiet s')).trans (queueData_quiet _ _ _))
    · exact fun hask _ _ => .inl hask
    · intro hask hreply hcalls
      rcases shutdownForce_cases sys s' with hquiet | ⟨hfails, hdestroy⟩
      · exact .inl (hask.trans hquiet)
      · refine .inr ⟨hdestroys ?_, hask.destroys hdestroy⟩
        change s'.calls = s.calls + 1 at hcalls
        rw [hcalls] at hfails
        simp only at hreply
        simp [writeFails, hsecure, ← hreply, hfails]
  · rw [if_neg hsecure]
    have hloop := writeLoop_quiet sys data.length data s
    have hfails : writeFails sys data s =
        match writeLoop sys data.length data s with
        | (.failed, _, s) => sys.shutdownFails s.calls
        | _ => false := by
      rw [writeFails, if_neg hsecure]
    revert hloop hfails
    rcases writeLoop sys data.length data s with ⟨_ | _ | _, rest, s'⟩
    · exact fun hloop _ => .inl hloop
    · exact fun hloop _ => .inl ((hloop.trans (block_quiet s')).trans (queueData_quiet _ _ _))
    · intro hloop hfails
      rcases shutdownForce_cases sys s' with hquiet | ⟨hshut, hdestroy⟩
      · exact .inl (hloop.trans hquiet)
      · exact .inr ⟨hdestroys (hfails.trans hshut), hloop.destroys hdestroy⟩

/-- A finished `writev` is quiet; one that is not may have shut the socket down. -/
theorem doWritev_cases (sys : System) (s : Sock) :
    Quiet s (doWritev sys s).2 ∨ ((doWritev sys s).1 = false ∧ Destroys s (doWritev sys s).2) := by
  unfold doWritev
  split
  · rename_i q _
    by_cases hsecure : s.secure = true
    · rw [if_pos hsecure]
      have hloop := sslLoop_quiet sys q.nodes.length q s
      revert hloop
      rcases sslLoop sys q.nodes.length q s with ⟨_ | _ | _, q', s'⟩
      · exact fun hloop => .inl (hloop.trans (setHead_quiet _ _))
      · exact fun hloop => .inl ((hloop.trans (setHead_quiet _ _)).trans (block_quiet _))
      · intro hloop
        have hhead := hloop.trans (setHead_quiet (fun j => { j with ptr := .packets q' }) s')
        rcases shutdownForce_cases sys (setHead (fun j => { j with ptr := .packets q' }) s') with
          hquiet | ⟨-, hdestroy⟩
        · exact .inl (hhead.trans hquiet)
        · exact .inr ⟨rfl, hhead.destroys hdestroy⟩
    · rw [if_neg hsecure]
      have hask := ask_quiet sys (chunks sys q) s
      revert hask
      rcases ask sys (chunks sys q) s with ⟨n | _ | _ | _, s'⟩
      · intro hask
        simp only
        have hhead : Quiet s (setHead (fun j =>
            { j with ptr := .packets (packetLoop q.nodes.length n q) }) s') :=
          hask.trans (setHead_quiet _ s')
        split
        · exact .inl (hhead.trans (block_quiet _))
        · exact .inl hhead
      all_goals exact fun hask => .inl (hask.trans (block_quiet s'))
  · exact .inl (.entry rfl rfl rfl rfl)

theorem doSendfile_quiet (sys : System) (s : Sock) : Quiet s (doSendfile sys s).2 := by
  unfold doSendfile
  split
  · rename_i rest _
    have hloop := sendfileLoop_quiet sys (rest.length + 1) rest s
    revert hloop
    rcases sendfileLoop sys (rest.length + 1) rest s with ⟨_ | _ | _, rest', s'⟩
    · exact fun hloop => hloop.trans (setHead_quiet _ _)
    · exact fun hloop => (hloop.trans (setHead_quiet _ _)).trans (block_quiet _)
    · exact fun hloop => hloop.trans (setHead_quiet _ _)
  · exact .entry rfl rfl rfl rfl

/-- **The jobs** get to `APE_socket_destroy` at the end only. -/
theorem doJobsLoop_cases (sys : System) (fuel : Nat) (s : Sock) :
    Quiet s (doJobsLoop sys fuel s) ∨ Destroys s (doJobsLoop sys fuel s) := by
  induction fuel generalizing s with
  | zero => exact .inl (.refl s)
  | succ fuel ih =>
    -- a round that is finished goes on quietly
    have hround : ∀ s', Quiet s s' → Quiet s (doJobsLoop sys fuel (finishJob s')) ∨
        Destroys s (doJobsLoop sys fuel (finishJob s')) := by
      intro s' hquiet
      have hfinish := hquiet.trans (finishJob_quiet s')
      exact (ih (finishJob s')).imp hfinish.trans hfinish.destroys
    rw [doJobsLoop]
    by_cases hidle : s.jobs.head.active = false
    · rw [if_pos hidle]
      exact .inl (.refl s)
    rw [if_neg hidle]
    split
    · rcases hwritev : doWritev sys s with ⟨finished, s'⟩
      have hcases := doWritev_cases sys s
      rw [hwritev] at hcases
      cases finished with
      | false => exact hcases.imp_right And.right
      | true =>
        rcases hcases with hquiet | ⟨hfalse, -⟩
        · exact hround s' hquiet
        · exact Bool.noConfusion hfalse
    · rcases hsendfile : doSendfile sys s with ⟨finished, s'⟩
      have hquiet := doSendfile_quiet sys s
      rw [hsendfile] at hquiet
      cases finished with
      | false => exact .inl hquiet
      | true => exact hround s' hquiet
    · exact shutdownFd_cases sys s
    · exact hround s (.refl s)

/-! ## The invariant -/

/-- The three times of a socket: before `APE_socket_destroy`, inside of its callback, and behind
it. -/
inductive Life (s : Sock) : Prop where
  | up (state : s.state ≠ .offline) (stack : .onDisconnect ∉ s.stack)
      (onDisconnect : s.log.count .onDisconnect = 0) (close : s.log.count .close = 0)
      (free : s.log.count .free = 0)
  | closing (state : s.state ≠ .offline) (rest : List Frame) (top : s.stack = .onDisconnect :: rest)
      (below : .onDisconnect ∉ rest) (onDisconnect : s.log.count .onDisconnect = 1)
      (close : s.log.count .close = 0) (free : s.log.count .free = 0)
  | down (state : s.state = .offline) (stack : .onDisconnect ∉ s.stack)
      (onDisconnect : s.log.count .onDisconnect ≤ 1) (close : s.log.count .close ≤ 1)
      (free : s.log.count .free ≤ 1)

theorem Life.once {s : Sock} (h : Life s) : Once s := by
  cases h with
  | up _ _ hd hc hf => exact ⟨by omega, by omega, by omega⟩
  | closing _ _ _ _ hd hc hf => exact ⟨by omega, by omega, by omega⟩
  | down _ _ hd hc hf => exact ⟨hd, hc, hf⟩

theorem life_new (state : SocketState) (secure r c d : Bool) :
    Life (Sock.new state secure r c d) := by
  by_cases h : state = .offline
  · exact .down h (by simp [Sock.new]) (by simp [Sock.new]) (by simp [Sock.new]) (by simp [Sock.new])
  · exact .up h (by simp [Sock.new]) rfl rfl rfl

/-- A quiet entry is none of the teardown. -/
theorem Quiet.count {s s' : Sock} (h : Quiet s s') {a : Action} (ha : a.tearsDown = true) :
    s'.log.count a = s.log.count a := by
  obtain ⟨ev, hlog, hev⟩ := h.log
  have hnot : a ∉ ev := fun hmem => by simp [hev a hmem] at ha
  rw [hlog, List.count_append, List.count_eq_zero_of_not_mem hnot, Nat.add_zero]

theorem Life.quiet {s s' : Sock} (h : Life s) (hq : Quiet s s') : Life s' := by
  have hd := hq.count (a := .onDisconnect) rfl
  have hc := hq.count (a := .close) rfl
  have hf := hq.count (a := .free) rfl
  cases h with
  | up hstate hstack h₁ h₂ h₃ =>
    exact .up (by rwa [hq.state]) (by rwa [hq.stack]) (hd.trans h₁) (hc.trans h₂) (hf.trans h₃)
  | closing hstate rest htop hbelow h₁ h₂ h₃ =>
    exact .closing (by rwa [hq.state]) rest (hq.stack.trans htop) hbelow (hd.trans h₁) (hc.trans h₂)
      (hf.trans h₃)
  | down hstate hstack h₁ h₂ h₃ =>
    exact .down (hq.state.trans hstate) (by rwa [hq.stack]) (by rwa [hd]) (by rwa [hc]) (by rwa [hf])

/-- **`APE_socket_destroy`**, outside of its callback. -/
theorem Life.destroy {s : Sock} (h : Life s) (hnot : .onDisconnect ∉ s.stack) : Life (destroy s) := by
  unfold Endpoint.destroy
  by_cases hoffline : s.state = .offline
  · rw [if_pos hoffline]
    exact h
  rw [if_neg hoffline]
  cases h with
  | up hstate hstack h₁ h₂ h₃ =>
    by_cases hcallback : s.hasOnDisconnect = true
    · rw [if_pos hcallback]
      exact .closing hoffline s.stack rfl hstack (by simp [Sock.note, h₁]) (by simp [Sock.note, h₂])
        (by simp [Sock.note, h₃])
    · rw [if_neg hcallback]
      exact .down rfl hstack (by simp [finishDestroy, Sock.note, h₁])
        (by simp [finishDestroy, Sock.note, h₂]) (by simp [finishDestroy, Sock.note, h₃])
  | closing _ rest htop _ _ _ _ => exact absurd (by rw [htop]; exact List.mem_cons_self ..) hnot
  | down hstate _ _ _ _ => exact absurd hstate hoffline

theorem Life.destroys {s s' : Sock} (h : Life s) (hnot : .onDisconnect ∉ s.stack)
    (hd : Destroys s s') : Life s' := by
  obtain ⟨s₁, hquiet, rfl⟩ := hd
  exact (h.quiet hquiet).destroy (by rwa [hquiet.stack])

/-- A callback that is not `on_disconnect` may be called. -/
theorem Life.push {s : Sock} (h : Life s) (hnot : .onDisconnect ∉ s.stack) {a : Action}
    (ha : a.tearsDown = false) {f : Frame} (hf : f ≠ .onDisconnect) :
    Life { s.note a with stack := f :: s.stack } := by
  have hquiet : Quiet s (s.note a) := .entry ha rfl rfl rfl
  have hstack : Frame.onDisconnect ∉ f :: s.stack := by
    rw [List.mem_cons, not_or]
    exact ⟨hf.symm, hnot⟩
  cases h.quiet hquiet with
  | up hstate _ h₁ h₂ h₃ => exact .up hstate hstack h₁ h₂ h₃
  | closing _ rest htop _ _ _ _ =>
    exact absurd (by rw [show s.stack = _ from htop]; exact List.mem_cons_self ..) hnot
  | down hstate _ h₁ h₂ h₃ => exact .down hstate hstack h₁ h₂ h₃

/-- A state that is neither of the two is left for another one. -/
theorem Life.setState {s : Sock} (h : Life s) (hstate : s.state ≠ .offline) {state : SocketState}
    (hstate' : state ≠ .offline) : Life { s with state := state } := by
  cases h with
  | up _ hstack h₁ h₂ h₃ => exact .up hstate' hstack h₁ h₂ h₃
  | closing _ rest htop hbelow h₁ h₂ h₃ => exact .closing hstate' rest htop hbelow h₁ h₂ h₃
  | down hoffline _ _ _ _ => exact absurd hoffline hstate

/-! ## The steps -/

theorem life_read (sys : System) (nread : Nat) (e : ReadEnd) {s : Sock} (h : Life s)
    (hnot : .onDisconnect ∉ s.stack) : Life (apeSocketRead sys nread e s) := by
  have hfinish : ∀ s', Quiet s s' → Life (finishRead (e = .eof) s') := by
    intro s' hquiet
    unfold finishRead
    split
    · exact h.destroys hnot ⟨s', hquiet, rfl⟩
    · exact h.quiet hquiet
  unfold apeSocketRead
  by_cases hstate : s.state ≠ .online
  · rw [if_pos hstate]
    exact h
  rw [if_neg hstate]
  set w : Sock := { s with used := s.used + nread } with hw
  have hquiet : Quiet s w := .same rfl rfl rfl
  simp only
  split_ifs with hfatal hnone hcallback
  · rcases shutdownForce_cases sys w with hq | ⟨-, hd⟩
    · exact h.quiet (hquiet.trans hq)
    · exact h.destroys hnot (hquiet.destroys hd)
  · exact hfinish w hquiet
  · exact (h.quiet hquiet).push (by rwa [hquiet.stack]) rfl (by simp)
  · exact hfinish _ (.same rfl rfl rfl)

theorem life_work (sys : System) {s : Sock} (h : Life s) (hnot : .onDisconnect ∉ s.stack) :
    Life (work sys s) := by
  unfold work
  by_cases honline : s.state = .online ∧ s.wouldBlock = false
  · rw [if_pos honline]
    rcases doJobsLoop_cases sys (s.jobs.nodes.length + 1) s with hq | hd
    · exact h.quiet hq
    · exact h.destroys hnot hd
  rw [if_neg honline]
  by_cases hprogress : s.state = .progress
  · rw [if_pos hprogress]
    set w : Sock := { s with calls := s.calls + 1 } with hw
    have hlife : Life w := h.quiet (.same rfl rfl rfl)
    have hup : Life { w with state := .online } :=
      hlife.setState (by simp [hw, hprogress]) (by simp)
    simp only
    split_ifs
    · exact hlife
    · exact hup.push hnot (a := .onConnected) rfl (f := .onConnected) (by simp)
    · exact hup
  · rw [if_neg hprogress]
    exact h

/-- A callback may return, and `on_disconnect` is not below it. -/
theorem Life.pop {s : Sock} (h : Life s) {f : Frame} {rest : List Frame} (htop : s.stack = f :: rest)
    (hf : f ≠ .onDisconnect) (used : Nat) :
    Life { s with stack := rest, used := used } ∧ .onDisconnect ∉ rest := by
  have hnot : Frame.onDisconnect ∉ s.stack → Frame.onDisconnect ∉ rest := by
    rw [htop, List.mem_cons, not_or]
    exact And.right
  cases h with
  | up hstate hstack h₁ h₂ h₃ => exact ⟨.up hstate (hnot hstack) h₁ h₂ h₃, hnot hstack⟩
  | closing _ rest' htop' _ _ _ _ => exact absurd (List.cons.inj (htop.symm.trans htop')).1 hf
  | down hstate hstack h₁ h₂ h₃ => exact ⟨.down hstate (hnot hstack) h₁ h₂ h₃, hnot hstack⟩

/-- **The return of `on_disconnect`** ends the teardown. -/
theorem Life.finishDestroy {s : Sock} (h : Life s) {rest : List Frame}
    (htop : s.stack = .onDisconnect :: rest) : Life (finishDestroy { s with stack := rest }) := by
  have hmem : Frame.onDisconnect ∈ s.stack := by
    rw [htop]
    exact List.mem_cons_self ..
  cases h with
  | up _ hstack _ _ _ => exact absurd hmem hstack
  | closing _ rest' htop' hbelow h₁ h₂ h₃ =>
    obtain rfl : rest = rest' := (List.cons.inj (htop.symm.trans htop')).2
    exact .down rfl hbelow (by simp [Endpoint.finishDestroy, Sock.note, h₁])
      (by simp [Endpoint.finishDestroy, Sock.note, h₂])
      (by simp [Endpoint.finishDestroy, Sock.note, h₃])
  | down _ hstack _ _ _ => exact absurd hmem hstack

theorem life_ret {s : Sock} (h : Life s) : Life (ret s) := by
  unfold ret
  split
  · exact h
  · rename_i htop
    exact h.finishDestroy htop
  · rename_i eof rest htop
    obtain ⟨hpop, hnot⟩ := h.pop htop (by simp) 0
    unfold finishRead
    split
    · exact hpop.destroy hnot
    · exact hpop
  · rename_i htop
    exact (h.pop htop (by simp) s.used).1

/-- **One step** of the kind allowed keeps the invariant. -/
theorem life_step (sys : System) {s : Sock} (h : Life s) {l : Label} (hok : StepOk sys s l) :
    Life (step sys s l) := by
  unfold step
  by_cases hallows : s.allows l = true
  swap
  · rw [if_neg hallows]
    exact h
  rw [if_pos hallows]
  -- a call that gets to `APE_socket_destroy` is not made inside of `on_disconnect`
  have hcall : ∀ s', Quiet s s' ∨ (l.destroys sys s = true ∧ Destroys s s') → Life s' := by
    rintro s' (hquiet | ⟨hdestroys, hd⟩)
    · exact h.quiet hquiet
    · refine h.destroys (fun hmem => ?_) hd
      rw [hok.reenter (by simpa [Sock.disconnecting] using hmem)] at hdestroys
      exact Bool.noConfusion hdestroys
  -- the event loop runs no callback
  have hloop : s.stack.isEmpty = true → .onDisconnect ∉ s.stack := by
    intro hempty
    rw [List.isEmpty_iff.1 hempty]
    exact List.not_mem_nil
  cases l with
  | write data => exact hcall _ (apeSocketWrite_cases sys data s)
  | sendfile content => exact h.quiet (apeSendfile_quiet sys content s)
  | shutdown => exact hcall _ (apeSocketShutdown_cases sys s)
  | destroy => exact hcall _ (.inr ⟨rfl, s, .refl s, rfl⟩)
  | connect port =>
    apply hcall
    simp only [Label.exec, apeSocketConnect]
    by_cases hport : port = 0
    · rw [if_pos hport]
      exact .inr ⟨by simp [Label.destroys, hport], s, .refl s, rfl⟩
    · rw [if_neg hport]
      exact .inl (.same rfl rfl rfl)
  | lookedUp resolved =>
    simp only [Label.exec, connectReady]
    cases resolved with
    | false =>
      rw [if_pos rfl]
      exact hcall _ (.inr ⟨rfl, { s with lookups := s.lookups - 1 }, .same rfl rfl rfl, rfl⟩)
    | true =>
      rw [if_neg (by simp)]
      have hrest : (Label.lookedUp true).destroys sys s = true →
          Life (destroy { s with lookups := s.lookups - 1, calls := s.calls + 1 }) :=
        fun hdestroys => hcall _ (.inr ⟨hdestroys,
          { s with lookups := s.lookups - 1, calls := s.calls + 1 }, .same rfl rfl rfl, rfl⟩)
      cases hreply : sys.connect s.calls with
      | inProgress =>
        have hup : s.state ≠ .offline := fun hoffline => hok.revive rfl hoffline hreply
        have hquiet : Quiet s { s with lookups := s.lookups - 1, calls := s.calls + 1 } :=
          .same rfl rfl rfl
        exact (h.quiet hquiet).setState hup (by simp)
      | done => exact hrest (by simp [Label.destroys, hreply])
      | error => exact hrest (by simp [Label.destroys, hreply])
  | clear => exact h.quiet (.entry rfl rfl rfl rfl)
  | read nread e => exact life_read sys nread e h (hloop hallows)
  | doJobs =>
    rcases doJobsLoop_cases sys (s.jobs.nodes.length + 1) s with hq | hd
    · exact h.quiet hq
    · exact h.destroys (hloop hallows) hd
  | work => exact life_work sys h (hloop hallows)
  | ret => exact life_ret h

/-! ## Every run -/

/-- **Every run** of such steps keeps it. -/
theorem life_run (sys : System) {s : Sock} (h : Life s) {ls : List Label} (hok : RunOk sys s ls) :
    Life (run sys s ls) := by
  induction ls generalizing s with
  | nil => exact h
  | cons l ls ih => exact ih (life_step sys h hok.1) hok.2

theorem RunOk.left {sys : System} {s : Sock} {pre post : List Label}
    (h : RunOk sys s (pre ++ post)) : RunOk sys s pre := by
  induction pre generalizing s with
  | nil => exact trivial
  | cons l pre ih => exact ⟨h.1, ih h.2⟩

/-- **A socket is torn down once.**  Whatever the system answers, in every run whose steps neither
get to `APE_socket_destroy` from inside of `on_disconnect` nor connect a destroyed socket,
`on_disconnect` is called at most once, the descriptor is closed at most once, and the release is
scheduled at most once, at every point of the run. -/
theorem teardown_once (sys : System) (state : SocketState) (secure r c d : Bool)
    (ls : List Label) (hok : RunOk sys (Sock.new state secure r c d) ls) :
    ∀ pre post, ls = pre ++ post → Once (run sys (Sock.new state secure r c d) pre) := by
  rintro pre post rfl
  apply Life.once
  exact life_run sys (life_new state secure r c d) hok.left

/-- A system that takes everything, and fails to shut a socket down. -/
def quietSystem : System :=
  ⟨fun _ => .took 1000, fun _ => true, fun _ => .inProgress, fun _ => false, 1024⟩

/-- A client that is read to its end: `on_read` answers and destroys the socket, `on_disconnect`
writes, and the 0 behind the data finds the socket destroyed. -/
theorem teardown_once_client :
    Once (run quietSystem (Sock.new .online false true true true)
      [.read 5 .eof, .write [1, 2, 3], .destroy, .write [4], .ret, .ret]) := by
  refine teardown_once quietSystem .online false true true true _ ?_ _ [] (List.append_nil _).symm
  refine ⟨⟨?_, ?_⟩, ⟨?_, ?_⟩, ⟨?_, ?_⟩, ⟨?_, ?_⟩, ⟨?_, ?_⟩, ⟨?_, ?_⟩, trivial⟩
  all_goals decide

/-- **A socket whose `on_disconnect` shuts it down** after the peer has gone: `shutdown` fails, and
everything is done a second time. -/
theorem teardown_fails :
    ¬ Once (run quietSystem (Sock.new .online false true true true)
      [.read 0 .eof, .shutdown, .ret, .ret]) := by
  intro h
  exact absurd h.close (by decide)

end Ape.Endpoint
