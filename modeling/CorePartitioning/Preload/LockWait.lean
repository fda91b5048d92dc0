import CorePartitioning.Preload.MachineRefines

/-!
# ld_preload.c — who waits for `table_rwlock`, and for what

A delegated wrapper keeps `table_rwlock` for reading until the entry's
thread has performed the original call, however long that takes. Other
readers do not mind. A thread that wants the lock for writing waits for all
of them: `socket` for the end of another thread's `recv`. A thread that
wants it for reading waits for a writer only, and what a writer asks an
entry's thread for is no original call.
-/

namespace CorePartitioning.Preload

open RwLock (Hold)

namespace Machine

variable {Tid : Type} [DecidableEq Tid]

/-- The thread's next operation is `x` on the lock. -/
def locking (x : RwLock.Op) : Option (Syscall × Wrapper Word) → Bool
  | some (_, .op (.pthread_rwlock y) _) => y == x
  | _ => false

/-- The thread's next operation is to receive from the entry at `p`. -/
def receiving (p : Ptr) : Option (Syscall × Wrapper Word) → Bool
  | some (_, .op (.CPART_recv_from_thread q) _) => q == p
  | _ => false

/-- `t` waits to acquire `table_rwlock` with `x`. -/
def WaitsForLock (s : State Tid) (t : Tid) (x : RwLock.Op) : Prop :=
  locking x (s.thread t) = true ∧ (s.shared.world.lock.step t x).isNone = true

/-- `u` waits for the completion of an original call that an entry's thread
performs for it. -/
def AwaitsOriginal (s : State Tid) (u : Tid) : Prop :=
  ∃ p, receiving p (s.thread u) = true ∧ (s.shared.channel p).exchange.response = false ∧
    ∃ k, (s.shared.channel p).exchange.client u = .pending k ∧ (dispatch k.args).isSome = true

/-- No holder of the lock awaits an original call while a thread waits to
acquire the lock with `x`. -/
def NoOriginalUnderLock (x : RwLock.Op) (s : State Tid) : Prop :=
  ∀ t u, WaitsForLock s t x → holds s.shared.world u ≠ Hold.none → ¬ AwaitsOriginal s u

/-- The annotations are right about the lock and about who awaits a response. -/
structure Linked (m : Machine Tid) (ann : Tid → Ann) : Prop extends Held m.world.lock ann where
  pending : ∀ p t k, (m.channel p).exchange.client t = .pending k →
    (ann t).talk = .asked ∧ (∃ fd, (ann t).entry = some (p, fd)) ∧
      ∃ c, (ann t).call = some c ∧ k.args = send_data c

variable {m m' : Machine Tid} {ann : Tid → Ann} {t : Tid}

/-- Who awaits a response after an operation of `t` did so before, or is `t`
and has sent its request. -/
theorem pending_of_sem {e : Env} {o : Op} {r : o.Res} (h : m.sem t e o = some (r, m'))
    {p : Ptr} {u : Tid} {k : Ipc.Call} (hk : (m'.channel p).exchange.client u = .pending k) :
    ((m.channel p).exchange.client u = .pending k ∧
        (o = .CPART_recv_from_thread p → u ≠ t)) ∨
      ∃ args, o = .CPART_send_to_thread args p ∧ u = t ∧ k.args = args := by
  obtain ⟨hne, heq⟩ | ⟨-, -, hnew⟩ | ⟨args, rfl, ha⟩ | ⟨r', rfl, ha⟩ := exchange_of_sem h p
  · rw [heq] at hk
    exact .inl ⟨hk, fun ho => absurd ho hne⟩
  · rw [hnew] at hk
    cases hk
  · obtain ⟨-, -, heq⟩ := Ipc.Exchange.send_to_thread_eq_some ha
    rw [heq] at hk
    by_cases hut : u = t
    · subst hut
      simp only [Function.update_self] at hk
      cases hk
      exact .inr ⟨args, rfl, rfl, rfl⟩
    · simp only [Function.update_of_ne hut] at hk
      exact .inl ⟨hk, nofun⟩
  · obtain ⟨k', -, -, heq⟩ := Ipc.Exchange.recv_from_thread_eq_some ha
    rw [(Prod.mk.inj heq).2] at hk
    by_cases hut : u = t
    · subst hut
      simp only [Function.update_self] at hk
      cases hk
    · simp only [Function.update_of_ne hut] at hk
      exact .inl ⟨hk, fun _ => hut⟩

/-- One operation. -/
theorem Linked.sem {e : Env} {o : Op} {r : o.Res} (hl : Linked m ann) (hp : (ann t).pre o)
    (ho : m.sem t e o = some (r, m')) :
    Linked m' (Function.update ann t ((ann t).next o r)) where
  toHeld := by
    obtain ⟨recv_data, hw⟩ := sem_world ho
    exact hl.toHeld.sem hp hw
  pending p u k hk := by
    obtain ⟨hold, hne⟩ | ⟨args, rfl, rfl, hargs⟩ := pending_of_sem ho hk
    · obtain ⟨htalk, ⟨fd, hentry⟩, c, hc, hargs⟩ := hl.pending p u k hold
      by_cases hut : u = t
      · subst hut
        rw [Function.update_self]
        obtain ⟨q, rfl⟩ | ⟨htalk', hentry', -⟩ := Ann.asked_next (hl.coherent u) htalk hp r
        · -- it is its own response that it receives
          obtain ⟨fd', hentry', -⟩ := hp
          obtain ⟨rfl, -⟩ := Prod.mk.inj (Option.some.inj (hentry.symm.trans hentry'))
          exact absurd rfl (hne rfl)
        · exact ⟨htalk', ⟨fd, hentry'.trans hentry⟩, c, ((ann u).next_call o r).trans hc, hargs⟩
      · rw [Function.update_of_ne hut]
        exact ⟨htalk, ⟨fd, hentry⟩, c, hc, hargs⟩
    · obtain ⟨c, fd, hask⟩ := hp
      rw [Function.update_self]
      exact ⟨rfl, ⟨fd, hask.entry⟩, c, hask.call, hargs.trans hask.args⟩

/-- Another annotation for a thread that awaits no response. -/
theorem Linked.update (hl : Linked m ann) {h : Ann}
    (hheld : Held m.world.lock (Function.update ann t h)) (ht : (ann t).talk ≠ .asked) :
    Linked m (Function.update ann t h) where
  toHeld := hheld
  pending p u k hk := by
    have hold := hl.pending p u k hk
    have hut : u ≠ t := by
      rintro rfl
      exact ht hold.1
    rwa [Function.update_of_ne hut]

omit [DecidableEq Tid] in
/-- The threads leave the clients alone. -/
theorem Serves.client {b : ThreadStep} (h : m.Serves b m') (p : Ptr) :
    (m'.channel p).exchange.client = (m.channel p).exchange.client := by
  have hset : ∀ {q : Ptr} {ch : Channel Tid}, ch.exchange.client = (m.channel q).exchange.client →
      ((m.set q ch).channel p).exchange.client = (m.channel p).exchange.client := by
    intro q ch hch
    apply set_channel_of (P := fun ch => ch.exchange.client = (m.channel p).exchange.client)
    · rintro rfl
      exact hch
    · exact fun _ => rfl
  cases h with
  | unfound | start => exact hset rfl
  | recv_from_app hl hx =>
      obtain ⟨-, -, rfl⟩ := Ipc.Exchange.recv_from_app_eq_some hx
      exact hset rfl
  | switch o hl ha =>
      obtain ⟨-, rfl⟩ := Ipc.Exchange.produce_eq_some ha
      rw [perform_channel]
      exact hset rfl
  | send_to_app hl ha =>
      obtain ⟨r, -, -, rfl⟩ := Ipc.Exchange.send_to_app_eq_some ha
      exact hset rfl

theorem Linked.serves {b : ThreadStep} (hl : Linked m ann) (h : m.Serves b m') :
    Linked m' ann where
  toHeld := by
    rw [h.world]
    exact hl.toHeld
  pending p u k hk := by
    rw [h.client] at hk
    exact hl.pending p u k hk

theorem linked_init : Linked ({} : Machine Tid) fun _ => {} :=
  ⟨held_init, nofun⟩

theorem Linked.write (hl : Linked m ann) (x : LogEntry Tid) : Linked (m.write x) ann :=
  ⟨hl.toHeld, hl.pending⟩

/-- Annotations for every state reached. -/
theorem linked_of_reachable {guard : State Tid → Label Tid → Prop} {s : State Tid}
    (h : Run.Reachable step guard init s) :
    ∃ ann, Linked s.shared ann ∧ ∀ t, Threads.Outlined Ann.next (fun _ _ _ _ => True)
      (fun c h o => h.pre o ∧ h.call = some c) (fun c h a => h.post a ∧ h.call = some c) {}
      (ann t) (s.thread t) := by
  refine Threads.outlined_of_reachable ({} : Ann) h wrapper_outline (fun _ => rfl) linked_init
    ?_ ?_ ?_ ?_
  · intro s ann t c hl ht _ _
    exact (hl.update (hl.toHeld.start ht c) (by rw [ht]; nofun)).write _
  · intro s ann t e c a hl _ _ hpost
    have hq := hpost.1.1
    exact (hl.update (hl.toHeld.idle hq) (by rw [hq.talk]; nofun)).write _
  · intro s ann t e c o k r sh hl _ _ hpre ho
    exact ⟨trivial, hl.sem hpre.1 ho⟩
  · intro s ann b sh hl _ hb
    exact hl.serves (serves_of_syscall_thread hb)

/-- What a writer asks an entry's thread for is no original call. -/
theorem Linked.not_awaits_of_write {s : State Tid} {ann : Tid → Ann} (hl : Linked s.shared ann)
    {u : Tid} (hu : (holds s.shared.world u).write = true) : ¬ AwaitsOriginal s u := by
  rintro ⟨p, -, -, k, hk, hdispatch⟩
  obtain ⟨hasked, -, c, hc, hargs⟩ := hl.pending p u k hk
  obtain ⟨q, c', fd, hasks⟩ := (hl.coherent u).asked hasked
  -- its call is `close` or `shutdown`
  have hmode := (hl.locked.write u).mp hu
  rw [hasks.mode] at hmode
  have hterm : c'.terminates = true := by
    by_contra hne
    rw [if_neg hne] at hmode
    cases hmode
  obtain rfl : c = c' := Option.some.inj (hc.symm.trans hasks.call)
  rw [hargs, dispatch_terminates hterm] at hdispatch
  cases hdispatch

/-- **No original call under the write lock**, whoever waits, and **whoever
waits for the lock for reading is not held up by an original call**: in every
state of every run, for any number of threads and any descriptors. -/
theorem no_original_while_rdlock_waits {s : State Tid} (h : Run.Reachable step Run.free init s) :
    (∀ u, (holds s.shared.world u).write = true → ¬ AwaitsOriginal s u) ∧
      NoOriginalUnderLock .rdlock s := by
  obtain ⟨ann, hl, -⟩ := linked_of_reachable h
  refine ⟨fun u => hl.not_awaits_of_write, ?_⟩
  rintro t u ⟨-, hwait⟩ hhold
  -- there is a writer, and it is `u`
  have hwriter : s.shared.world.lock.writer ≠ none := by
    intro hnone
    simp [RwLock.step, hnone] at hwait
  obtain ⟨w, hw⟩ := Option.ne_none_iff_exists'.mp hwriter
  have hw' : (s.shared.world.lock.hold w).write = true := by simp [RwLock.hold, hw]
  obtain rfl : u = w := by
    by_contra huw
    exact hhold (hl.locked.exclusive.hold_of_write hw' huw)
  exact hl.not_awaits_of_write hw'

/-- `socket` gives descriptor 7, its thread is at its loop. -/
def oneSocket : List (Label Bool) :=
  .inl (.call true (.socket 2 1 0)) :: List.replicate 13 (.inl (.step true { result := 7 })) ++
    [.inr (.start 1 .zero .zero)]

/-- Thread `t` makes a call and executes `n` operations. -/
def calls (t : Bool) (c : Syscall) (n : Nat) (e : Env) : List (Label Bool) :=
  .inl (.call t c) :: List.replicate n (.inl (.step t e))

/-- One thread is inside `close`, another at the beginning of `recv`. -/
theorem no_original_while_recv_waits :
    ∃ s : State Bool, Run.Reachable step Run.free init s ∧ WaitsForLock s false .rdlock ∧
      (∀ u, (holds s.shared.world u).write = true → ¬ AwaitsOriginal s u) ∧
      NoOriginalUnderLock .rdlock s := by
  have hrun : ((Run.exec step Run.free init
      (oneSocket ++ calls true (.close 7) 4 {} ++ calls false (.recv 8 0 0 0) 1 {})).map fun s =>
        locking .rdlock (s.thread false) &&
          (s.shared.world.lock.step false .rdlock).isNone) = some true := by
    decide
  obtain ⟨s, hs, hwaits⟩ := Option.map_eq_some_iff.mp hrun
  have hreach := Run.reachable_of_exec hs
  exact ⟨s, hreach, by simpa [WaitsForLock] using hwaits, no_original_while_rdlock_waits hreach⟩

/-- One thread is inside `recv`, for which the entry's thread performs the
original call; another waits to acquire the lock in `socket`. -/
theorem original_while_wrlock_waits :
    ¬ ∀ s : State Bool, Run.Reachable step Run.free init s → ∀ x, NoOriginalUnderLock x s := by
  intro h
  have hrun : ((Run.exec step Run.free init
      (oneSocket ++ calls true (.recv 7 0 0 0) 4 {} ++ [.inr (.recv_from_app 1)]
        ++ calls false (.socket 2 1 0) 2 { result := 8 })).map fun s =>
        (locking .wrlock (s.thread false), (s.shared.world.lock.step false .wrlock).isNone,
          receiving 1 (s.thread true), (s.shared.channel 1).exchange.response,
          (s.shared.channel 1).exchange.client true, holds s.shared.world true)) =
      some (true, true, true, false, .pending ⟨0, send_data (.recv 7 0 0 0)⟩, ⟨1, false⟩) := by
    decide
  obtain ⟨s, hs, hproj⟩ := Option.map_eq_some_iff.mp hrun
  simp only [Prod.mk.injEq] at hproj
  obtain ⟨hlocking, hblocked, hrecv, hresponse, hclient, hhold⟩ := hproj
  refine h s (Run.reachable_of_exec hs) .wrlock false true ⟨hlocking, hblocked⟩ ?_
    ⟨1, hrecv, hresponse, _, hclient, ?_⟩
  · rw [hhold]
    decide
  · rw [dispatch_send_data rfl]
    rfl

end Machine

end CorePartitioning.Preload
