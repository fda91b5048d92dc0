import CorePartitioning.Preload.Transparency

/-!
# ld_preload.c — a call that runs alone

One application thread is in the library, and the threads of the entries
wait for requests. Whenever it waits for a response, the entry's thread is
the only one that can move: it finds its entry if it has not yet, takes the
request, serves it and puts the response. `callAlone` is the whole call,
and a run of the machine.
-/

namespace CorePartitioning.Preload

namespace Machine

variable {Tid : Type}

/-! ## The run of one call -/

/-- What happens outside the library during the call: the original function
does `outcome`, whoever executes it, and the entry's thread starts with
these values in its variables. -/
structure Around where
  env : Env := {}
  outcome : Outcome
  send_data : ArgsData := .zero
  recv_data : RetvalData := .zero

/-- What an application thread sees of it. -/
def Around.answers (x : Around) : Env :=
  { x.env with
    result := x.outcome.result
    errno := if x.outcome.errno = 0 then none else some x.outcome.errno }

/-- The thread of the entry at `p` reaches its loop, if it has not yet. -/
def wake (m : Machine Tid) (p : Ptr) (x : Around) : Option (Machine Tid) :=
  if (m.channel p).life = .created then m.syscall_thread (.start p x.send_data x.recv_data)
  else some m

/-- It serves one request. -/
def respond (m : Machine Tid) (p : Ptr) (x : Around) : Option (Machine Tid) := do
  let m ← m.wake p x
  let m ← m.syscall_thread (.recv_from_app p)
  let m ← m.syscall_thread (.switch p x.outcome)
  m.syscall_thread (.send_to_app p)

variable [DecidableEq Tid]

/-- Thread `t` executes an operation, alone in the library. -/
def semAlone (t : Tid) (x : Around) (m : Machine Tid) : (o : Op) → Option (o.Res × Machine Tid)
  | .CPART_recv_from_thread p =>
      (m.respond p x).bind fun m => m.sem t x.answers (.CPART_recv_from_thread p)
  | o => m.sem t x.answers o

/-- The wrapper of `c`, called by `t`. -/
def callAlone (m : Machine Tid) (t : Tid) (x : Around) (c : Syscall) :
    Option (Word × Machine Tid) :=
  (wrapper c).exec (semAlone t) x m

/-- The steps of the entries' threads that go with it. -/
def Around.Allows (x : Around) : ThreadStep → Prop
  | .start _ send_data recv_data => send_data = x.send_data ∧ recv_data = x.recv_data
  | .switch _ o => o = x.outcome
  | _ => True

abbrev Background (x : Around) : Machine Tid → Machine Tid → Prop :=
  Threads.Background (fun b m => m.syscall_thread b) x.Allows

omit [DecidableEq Tid] in
theorem background_of_respond {m m' : Machine Tid} {p : Ptr} {x : Around}
    (h : m.respond p x = some m') : Background x m m' := by
  obtain ⟨m₁, hwake, h⟩ := Option.bind_eq_some_iff.mp h
  obtain ⟨m₂, hrecv, h⟩ := Option.bind_eq_some_iff.mp h
  obtain ⟨m₃, hswitch, hsend⟩ := Option.bind_eq_some_iff.mp h
  have hrest : Background x m₁ m' :=
    .head ⟨.recv_from_app p, trivial, hrecv⟩
      (.head ⟨.switch p x.outcome, rfl, hswitch⟩ (.single ⟨.send_to_app p, trivial, hsend⟩))
  unfold wake at hwake
  split at hwake
  · exact .head ⟨.start p x.send_data x.recv_data, ⟨rfl, rfl⟩, hwake⟩ hrest
  · cases hwake
    exact hrest

/-- **The call is a run of the machine** in which `t` and the entries'
threads move and nobody else. -/
theorem reachable_of_callAlone {s : State Tid} {t : Tid} {x : Around} {c : Syscall} {a : Word}
    {m' : Machine Tid} (ht : s.thread t = some (c, wrapper c))
    (h : s.shared.callAlone t x c = some (a, m')) :
    Run.Reachable step (Threads.Only t x.answers x.Allows) s
      { shared := leave t c a m', thread := Function.update s.thread t none } := by
  refine Threads.reachable_of_exec_alone ?_ ht h
  intro m o r m' ho
  cases o with
  | CPART_recv_from_thread p =>
      obtain ⟨m₁, hrespond, hsem⟩ := Option.bind_eq_some_iff.mp ho
      exact ⟨m₁, background_of_respond hrespond, hsem⟩
  | _ => exact ⟨m, .refl, ho⟩

/-! ## The entry's thread -/

/-- The thread of the entry at `p` is in its loop, or will find its entry and
reach it. -/
def Live (m : Machine Tid) (p : Ptr) : Prop :=
  (m.channel p).life = .running ∨
    (m.channel p).life = .created ∧
      ∃ sock, fdtable_get_by_tid m.world.table (m.channel p).thread = some sock ∧
        sock.ptr = p ∧ sock.pid = m.world.pid

/-- A request is in the message. -/
structure Asked (a : Ipc.Exchange Tid) (args : ArgsData) : Prop where
  phase : a.phase = .waiting
  request : a.request = true
  response : a.response = false
  message : a.message = args

/-- The original call that a request makes, performed with result `w`. -/
def performedBy (args : ArgsData) (w : Word) : List (LogEntry Tid) :=
  (dispatch args).toList.map fun c => .performed none c w

/-- What the entry's thread leaves behind. -/
structure Responded (m : Machine Tid) (p : Ptr) (args : ArgsData) (x : Around)
    (m' : Machine Tid) : Prop where
  world : m'.world = m.world
  client : (m'.channel p).exchange.client = (m.channel p).exchange.client
  response : (m'.channel p).exchange.response = true
  reply : ∃ stale, (m'.channel p).exchange.message.retval = serve args stale x.outcome
  log : m'.log = m.log ++ performedBy args x.outcome.result

section Respond

variable {m m' : Machine Tid} {p : Ptr} {args : ArgsData} {x : Around}

omit [DecidableEq Tid]

theorem live_congr (htable : m'.world.table = m.world.table) (hpid : m'.world.pid = m.world.pid)
    (hlife : (m'.channel p).life = (m.channel p).life)
    (hthread : (m'.channel p).thread = (m.channel p).thread) : m'.Live p ↔ m.Live p := by
  unfold Live
  rw [htable, hpid, hlife, hthread]

/-- A thread that can reach its loop does, and leaves the exchange alone. -/
theorem wake_of_live (h : m.Live p) :
    ∃ ch, m.wake p x = some (m.set p ch) ∧ ch.life = .running ∧
      ch.exchange = (m.channel p).exchange := by
  rcases h with hrunning | ⟨hcreated, sock, hsock, hptr, hpid⟩
  · refine ⟨m.channel p, ?_, hrunning, rfl⟩
    have hset : m.set p (m.channel p) = m := by
      unfold set
      rw [Function.update_eq_self]
    rw [hset, wake, if_neg (by rw [hrunning]; decide)]
  · refine ⟨{ m.channel p with
      life := .running
      send_data := { x.send_data with request_type := -1 }
      recv_data := x.recv_data }, ?_, rfl, rfl⟩
    simp [wake, syscall_thread, Machine.start, hcreated, hsock, hptr, hpid]

/-- A thread that gets as far as its loop is live. -/
theorem live_of_wake (h : m.wake p x = some m') (hrunning : (m'.channel p).life = .running) :
    m.Live p := by
  unfold wake at h
  split at h
  case isTrue hcreated =>
    refine .inr ⟨hcreated, ?_⟩
    cases serves_of_syscall_thread h with
    | unfound => simp at hrunning
    | start _ _ _ hs hp =>
        refine ⟨_, hs, hp, ?_⟩
        by_contra hpid
        simp [hpid] at hrunning
  case isFalse =>
    cases h
    exact .inl hrunning

/-- In its loop it takes a request, serves it and puts the response. -/
theorem respond_of_running {ch : Channel Tid} (hlife : ch.life = .running)
    (ha : Asked ch.exchange args) :
    ∃ m', ((m.set p ch).syscall_thread (.recv_from_app p) >>= fun m =>
        m.syscall_thread (.switch p x.outcome) >>= fun m => m.syscall_thread (.send_to_app p))
          = some m' ∧
      m'.world = m.world ∧ (m'.channel p).exchange.client = ch.exchange.client ∧
      (m'.channel p).exchange.response = true ∧
      (∃ stale, (m'.channel p).exchange.message.retval = serve args stale x.outcome) ∧
      m'.log = m.log ++ performedBy args x.outcome.result := by
  obtain ⟨hphase, hrequest, hresponse, hmessage⟩ := ha
  have hlog : ∀ m : Machine Tid, (m.perform args x.outcome.result).log
      = m.log ++ performedBy args x.outcome.result := by
    intro m
    unfold perform performedBy
    cases dispatch args with
    | none => simp
    | some c => simp
  simp only [syscall_thread, set_channel, Function.update_self, hlife, hphase, hrequest,
    hmessage, hresponse, Ipc.Exchange.recv_from_app, Ipc.Exchange.produce,
    Ipc.Exchange.send_to_app, perform_channel, Option.map_some, Option.bind_eq_bind,
    Option.bind_some, if_true, and_self, Bool.false_eq_true, if_false]
  refine ⟨_, rfl, ?_, ?_, ?_, ⟨ch.recv_data, ?_⟩, ?_⟩
  · simp
  · simp
  · simp
  · simp [ArgsData.retval_overwrite]
  · simp [hlog]

/-- **A live thread responds.** -/
theorem respond_of_live (h : m.Live p) (ha : Asked (m.channel p).exchange args) :
    ∃ m', m.respond p x = some m' ∧ Responded m p args x m' := by
  obtain ⟨ch, hwake, hlife, hexchange⟩ := wake_of_live (x := x) h
  obtain ⟨m', hrun, hworld, hclient, hresponse, hreply, hlog⟩ :=
    respond_of_running (m := m) (p := p) (x := x) hlife (hexchange ▸ ha)
  refine ⟨m', ?_, hworld, hexchange ▸ hclient, hresponse, hreply, hlog⟩
  unfold respond
  rw [hwake]
  exact hrun

/-- Only a live thread does. -/
theorem live_of_respond (h : m.respond p x = some m') : m.Live p := by
  obtain ⟨m₁, hwake, h⟩ := Option.bind_eq_some_iff.mp h
  obtain ⟨m₂, hrecv, -⟩ := Option.bind_eq_some_iff.mp h
  refine live_of_wake hwake ?_
  cases serves_of_syscall_thread hrecv with
  | recv_from_app hl => exact hl

end Respond

/-! ## Delegated calls -/

/-- No other thread is in the library, no request is under way. -/
structure Alone (m : Machine Tid) : Prop where
  lock : m.world.lock.writer = none
  idle : ∀ p t, (m.channel p).exchange.client t = .idle
  clean : ∀ p, Clean (m.channel p)

/-- Between two operations a client is in no exchange or awaits its response. -/
theorem idle_or_pending_of_reachable {guard : State Tid → Label Tid → Prop} {s : State Tid}
    (h : Run.Reachable step guard init s) (p : Ptr) (t : Tid) :
    (s.shared.channel p).exchange.client t = .idle ∨
      ∃ k, (s.shared.channel p).exchange.client t = .pending k := by
  refine h.invariant (I := fun s => (s.shared.channel p).exchange.client t = .idle ∨
    ∃ k, (s.shared.channel p).exchange.client t = .pending k) (.inl rfl) ?_
  intro s l s' hI _ hs
  obtain ⟨u, c, rfl, -, rfl⟩ | ⟨u, e, c, a, rfl, -, rfl⟩ |
    ⟨u, e, c, o, k, r, sh, rfl, -, ho, rfl⟩ | ⟨b, sh, rfl, hb, rfl⟩ := Threads.openStep_cases hs
  · exact hI
  · exact hI
  · obtain ⟨-, heq⟩ | ⟨-, -, heq⟩ | ⟨args, -, ha⟩ | ⟨r', -, ha⟩ := exchange_of_sem ho p
    · dsimp only
      rwa [heq]
    · left
      dsimp only
      rw [heq]
      rfl
    · obtain ⟨-, -, heq⟩ := Ipc.Exchange.send_to_thread_eq_some ha
      dsimp only
      rw [heq]
      by_cases htu : t = u
      · exact .inr ⟨_, by rw [htu]; exact Function.update_self ..⟩
      · simpa only [Function.update_of_ne htu] using hI
    · obtain ⟨k', -, -, heq⟩ := Ipc.Exchange.recv_from_thread_eq_some ha
      dsimp only
      rw [(Prod.mk.inj heq).2]
      by_cases htu : t = u
      · exact .inl (by rw [htu]; exact Function.update_self ..)
      · simpa only [Function.update_of_ne htu] using hI
  · dsimp only
    rwa [(serves_of_syscall_thread hb).client]

/-- In an orderly run the next call after the others have returned is alone. -/
theorem alone_of_reachable {s : State Tid} (h : Run.Reachable step Orderly init s)
    (hidle : ∀ t, s.thread t = none) : s.shared.Alone := by
  obtain ⟨ann, htr, hann⟩ := transparent_of_reachable h
  obtain ⟨ann', hlinked, hann'⟩ := linked_of_reachable h
  have hquiet : ∀ t, ann t = {} := by
    intro t
    have htext := hann t
    rw [hidle t] at htext
    exact htext
  have hquiet' : ∀ t, ann' t = {} := by
    intro t
    have htext := hann' t
    rw [hidle t] at htext
    exact htext
  refine ⟨?_, fun p t => ?_, fun p => htr.clean p fun t c ha => ?_⟩
  · rw [Option.eq_none_iff_forall_ne_some]
    intro t hwriter
    have hwrite := (htr.held.locked.write t).mp (by simp [RwLock.hold, hwriter])
    rw [hquiet t] at hwrite
    cases hwrite
  · obtain hidle | ⟨k, hk⟩ := idle_or_pending_of_reachable h p t
    · exact hidle
    · obtain ⟨htalk, -⟩ := hlinked.pending p t k hk
      rw [hquiet' t] at htalk
      cases htalk
  · have htalk := ha.talk
    rw [hquiet t] at htalk
    cases htalk

section Delegated

variable {m m' : Machine Tid} {t : Tid} {x : Around} {d : Delegation}

/-- A reader's unlock does not wait. -/
theorem exec_unlock_alone
    (hlock : t ∈ m.world.lock.readers ∧ m.world.lock.writer = none) :
    ∃ l, ∀ k : Unit → Wrapper Word,
      (Prog.op (.pthread_rwlock .unlock) k : Wrapper Word).exec (semAlone t) x m
        = (k ()).exec (semAlone t) x { m with world := { m.world with lock := l } } := by
  obtain ⟨hmem, hwriter⟩ := hlock
  refine ⟨{ m.world.lock with readers := m.world.lock.readers.erase t }, fun k => ?_⟩
  simp only [Prog.exec, semAlone, sem, Preload.sem, RwLock.step, hwriter, hmem, reduceCtorEq,
    if_false, if_true, Option.map_some, Option.bind_some]
  rfl

/-- The call after the lookup. -/
theorem exec_delegated (h : m.Alone) :
    ∃ m₁ : Machine Tid, m₁.world.table = m.world.table ∧ m₁.world.pid = m.world.pid ∧
      m₁.channel = m.channel ∧ m₁.log = m.log ∧
      (t ∈ m₁.world.lock.readers ∧ m₁.world.lock.writer = none) ∧
      (delegated d).exec (semAlone t) x m =
        match (fdtable_get_by_fd m.world.table d.fd d.NetorFile).map (·.ptr) with
        | none => (Prog.op (.pthread_rwlock .unlock) fun _ =>
            match d.missErrno (m.world.errno t) with
            | some e => do
                op (.set_errno e)
                let r ← op (.original d.call)
                pure (d.missResult r)
            | none => do
                let r ← op (.original d.call)
                pure (d.missResult r) : Wrapper Word).exec (semAlone t) x m₁
        | some tmp => (do
            op (.CPART_send_to_thread (send_data d.call) tmp)
            let recv_data ← op (.CPART_recv_from_thread tmp)
            pthread_rwlock_unlock
            op (.set_errno (d.replyErrno recv_data (m.world.errno t)))
            pure (d.replyResult recv_data) : Wrapper Word).exec (semAlone t) x m₁ := by
  refine ⟨{ m with world := { m.world with
    lock := { m.world.lock with readers := t :: m.world.lock.readers } } }, rfl, rfl, rfl, rfl,
    ⟨List.mem_cons_self, h.lock⟩, ?_⟩
  simp only [delegated, Prog.call_bind, Prog.exec, semAlone, sem, Preload.sem, RwLock.step, h.lock,
    if_true, Option.map_some, Option.bind_some]
  cases (fdtable_get_by_fd m.world.table d.fd d.NetorFile).map (·.ptr) <;> rfl

/-- **Without an entry** the caller makes the original call itself. -/
theorem delegated_direct (h : m.Alone)
    (hnone : fdtable_get_by_fd m.world.table d.fd d.NetorFile = none) :
    ∃ m', (delegated d).exec (semAlone t) x m = some (d.missResult x.outcome.result, m') ∧
      m'.log = m.log ++ [.performed (some t) d.call x.outcome.result] := by
  obtain ⟨m₁, -, -, -, hlog, hlock, hexec⟩ := exec_delegated (t := t) (x := x) (d := d) h
  rw [hexec, hnone, ← hlog]
  obtain ⟨l, hl⟩ := exec_unlock_alone (x := x) hlock
  simp only [Option.map_none]
  rw [hl]
  cases d.missErrno (m.world.errno t) with
  | none =>
      refine ⟨_, rfl, ?_⟩
      rfl
  | some v =>
      refine ⟨_, rfl, ?_⟩
      rfl

/-- **With an entry whose thread is live** the thread makes the call that the
request stands for, and the caller gets what it responded. -/
theorem delegated_of_live (h : m.Alone) {y : ThreadInfo}
    (hfound : fdtable_get_by_fd m.world.table d.fd d.NetorFile = some y) (hlive : m.Live y.ptr) :
    ∃ m' stale, (delegated d).exec (semAlone t) x m
        = some (d.replyResult (serve (send_data d.call) stale x.outcome), m') ∧
      m'.log = m.log ++ performedBy (send_data d.call) x.outcome.result := by
  obtain ⟨m₁, htable, hpid, hchannel, hlog, hlock, hexec⟩ :=
    exec_delegated (t := t) (x := x) (d := d) h
  obtain ⟨hphase, hrequest, hresponse⟩ := h.clean y.ptr
  -- the request
  obtain ⟨a, ha⟩ : ∃ a,
      (m₁.channel y.ptr).exchange.send_to_thread t (send_data d.call) = some a := by
    rw [hchannel, Ipc.Exchange.send_to_thread, if_pos ⟨h.idle y.ptr t, hrequest⟩]
    exact ⟨_, rfl⟩
  obtain ⟨-, -, ha'⟩ := Ipc.Exchange.send_to_thread_eq_some ha
  rw [hchannel] at ha ha'
  have hasked : Asked
      ((m₁.set y.ptr { m₁.channel y.ptr with exchange := a }).channel y.ptr).exchange
      (send_data d.call) := by
    rw [set_channel, Function.update_self, ha']
    exact ⟨hphase, rfl, hresponse, rfl⟩
  have hlive' : (m₁.set y.ptr { m₁.channel y.ptr with exchange := a }).Live y.ptr := by
    refine (live_congr ?_ ?_ ?_ ?_).mpr hlive
    · exact htable
    · exact hpid
    · simp [hchannel]
    · simp [hchannel]
  -- the response
  obtain ⟨m₂, hrespond, hspec⟩ := respond_of_live (x := x) hlive' hasked
  obtain ⟨stale, hreply⟩ := hspec.reply
  have hpending : (m₂.channel y.ptr).exchange.client t =
      .pending ⟨(m.channel y.ptr).exchange.hist.nextId, send_data d.call⟩ := by
    rw [hspec.client, set_channel, Function.update_self, ha']
    exact Function.update_self ..
  obtain ⟨b, hrecv⟩ : ∃ b, (m₂.channel y.ptr).exchange.recv_from_thread t
      = some (serve (send_data d.call) stale x.outcome, b) := by
    rw [← hreply]
    simp only [Ipc.Exchange.recv_from_thread, hpending, hspec.response, if_true]
    exact ⟨_, rfl⟩
  -- the end
  have hworld : m₂.world = m₁.world := hspec.world
  obtain ⟨l, hl⟩ := exec_unlock_alone (t := t) (x := x)
    (m := m₂.set y.ptr { m₂.channel y.ptr with exchange := b }) (by
      rw [set_world, hworld]
      exact hlock)
  have hsem₁ : semAlone t x m₁ (.CPART_send_to_thread (send_data d.call) y.ptr)
      = some ((), m₁.set y.ptr { m₁.channel y.ptr with exchange := a }) := by
    simp only [semAlone, sem, hchannel, ha, Option.map_some]
  have hsem₂ : semAlone t x (m₁.set y.ptr { m₁.channel y.ptr with exchange := a })
      (.CPART_recv_from_thread y.ptr) = some (serve (send_data d.call) stale x.outcome,
        m₂.set y.ptr { m₂.channel y.ptr with exchange := b }) := by
    simp only [semAlone, sem, hrespond, hrecv, Option.map_some, Option.bind_some]
  have hrun : (delegated d).exec (semAlone t) x m =
      (Prog.op (.pthread_rwlock .unlock) fun _ => (do
        op (.set_errno (d.replyErrno (serve (send_data d.call) stale x.outcome)
          (m.world.errno t)))
        pure (d.replyResult (serve (send_data d.call) stale x.outcome)) : Wrapper Word)).exec
          (semAlone t) x (m₂.set y.ptr { m₂.channel y.ptr with exchange := b }) := by
    rw [hexec, hfound]
    simp only [Option.map_some, Prog.call_bind]
    rw [Prog.exec_op hsem₁, Prog.exec_op hsem₂]
  rw [hrun, hl]
  refine ⟨_, stale, rfl, ?_⟩
  show m₂.log = _
  rw [hspec.log, set_log, hlog]

/-- Without a live thread the caller waits for ever. -/
theorem live_of_delegated (h : m.Alone) {y : ThreadInfo}
    (hfound : fdtable_get_by_fd m.world.table d.fd d.NetorFile = some y) {a : Word}
    (hrun : (delegated d).exec (semAlone t) x m = some (a, m')) : m.Live y.ptr := by
  obtain ⟨m₁, htable, hpid, hchannel, -, -, hexec⟩ := exec_delegated (t := t) (x := x) (d := d) h
  rw [hexec, hfound] at hrun
  simp only [Option.map_some, Prog.call_bind] at hrun
  obtain ⟨⟨_, m₂⟩, hsend, hrun⟩ := Option.bind_eq_some_iff.mp hrun
  obtain ⟨⟨r, m₃⟩, hrecv, -⟩ := Option.bind_eq_some_iff.mp hrun
  obtain ⟨b, -, rfl⟩ := sem_send (e := x.answers) hsend
  obtain ⟨m₄, hrespond, -⟩ := Option.bind_eq_some_iff.mp hrecv
  refine (live_congr ?_ ?_ ?_ ?_).mp (live_of_respond hrespond)
  · exact htable
  · exact hpid
  · simp [hchannel]
  · simp [hchannel]

end Delegated

end Machine

end CorePartitioning.Preload
