import CorePartitioning.Preload.IpcRequests
import CorePartitioning.Preload.IpcTokens
import CorePartitioning.Preload.Syscall

/-!
# ipc.c — the handshake does not get stuck

As long as some client is inside a call, some party can execute its next
statement. The semaphores alone do not say so: they allow a state in which
every client waits for a response and the thread for a request. It is
excluded by counting: the clients that wait for a response are as many as
the requests, the calls being served and the responses on their way.
-/

namespace CorePartitioning.Preload.Ipc

variable {Client : Type} [DecidableEq Client]

/-! ## The thread goes on -/

/-- After such a request the thread does not leave its loop. Only `close`
and `shutdown` send another one: nobody sends `TYPE_OPENAT`. -/
def Continues (request_type : BitVec 32) : Prop :=
  isOneOf request_type [.TYPE_CLOSE, .TYPE_SHUTDOWN, .TYPE_OPENAT] = false

instance (request_type : BitVec 32) : Decidable (Continues request_type) :=
  inferInstanceAs (Decidable (_ = false))

theorem continues_send_data {c : Syscall} (hclose : ∀ fd, c ≠ .close fd)
    (hshutdown : ∀ fd flags, c ≠ .shutdown fd flags) : Continues (send_data c).request_type := by
  cases c with
  | close fd => exact absurd rfl (hclose fd)
  | shutdown fd flags => exact absurd rfl (hshutdown fd flags)
  | _ => rfl

/-- Every call made is one the thread goes on after. -/
def CallsContinue (_ : Sys Client) : Label Client → Prop
  | .call _ args => Continues args.request_type
  | _ => True

instance (s : Sys Client) (l : Label Client) : Decidable (CallsContinue s l) :=
  match l with
  | .call _ args => inferInstanceAs (Decidable (Continues args.request_type))
  | .client _ | .thread _ => inferInstanceAs (Decidable True)

/-- Nothing the thread can receive ends its loop. A response in the message
counts: it may be all that is left of a request. -/
structure Serves (s : Sys Client) : Prop where
  client : ∀ c r, s.client c = some r →
    Continues r.call.args.request_type ∧ r.pc < exchange.length
  message : Continues s.message.request_type
  received : Continues s.thread.send_data.request_type
  produced : 6 ≤ s.thread.pc → Continues s.thread.recv_data.request_type
  loop_break : s.thread.loop_break = false
  pc : s.thread.pc < syscall_thread.length

variable {s s' : Sys Client} {a : Exchange Client}

omit [DecidableEq Client] in
theorem serves_newEntry (send_data : ArgsData) (recv_data : RetvalData) :
    Serves (newEntry send_data recv_data : Sys Client) where
  client := nofun
  message := rfl
  received := rfl
  produced := nofun
  loop_break := rfl
  pc := Nat.zero_lt_succ _

/-- A client moves. -/
theorem Serves.update (h : Serves s) {c : Client} {r : Option Running}
    (hr : ∀ r', r = some r' → Continues r'.call.args.request_type ∧ r'.pc < exchange.length)
    (c' : Client) (r' : Running) (hc' : Function.update s.client c r c' = some r') :
    Continues r'.call.args.request_type ∧ r'.pc < exchange.length := by
  by_cases hcc : c' = c
  · subst hcc
    rw [Function.update_self] at hc'
    exact hr r' hc'
  · rw [Function.update_of_ne hcc] at hc'
    exact h.client c' r' hc'

theorem next_eq_some {r r' : Running} (h : r.next = some r') :
    r'.call = r.call ∧ r'.pc < exchange.length := by
  unfold Running.next at h
  split at h
  · cases h
    exact ⟨rfl, ‹_›⟩
  · cases h

theorem serve_request_type (send_data : ArgsData) (recv_data : RetvalData) (o : Outcome) :
    (serve send_data recv_data o).request_type = send_data.request_type := by
  unfold serve
  dsimp only
  split
  · rfl
  · split <;> rfl

/-- A request of one of three types is of none of any of them. -/
theorem Continues.not_isOneOf {request_type : BitVec 32} (h : Continues request_type)
    {ts : List RequestType} (hts : ts ⊆ [.TYPE_CLOSE, .TYPE_SHUTDOWN, .TYPE_OPENAT]) :
    isOneOf request_type ts = false := by
  unfold Continues isOneOf at h
  unfold isOneOf
  rw [List.any_eq_false] at h ⊢
  exact fun t ht => h t (hts ht)

theorem Serves.client_step (h : Serves s) {c : Client} {r : Running} (hc : s.client c = some r)
    {i : Instr} (hs : clientExec s c r i = some s') : Serves s' := by
  obtain ⟨hr, -⟩ := h.client c r hc
  have hclient : ∀ c' r', Function.update s.client c r.next c' = some r' →
      Continues r'.call.args.request_type ∧ r'.pc < exchange.length :=
    h.update fun r' hr' => by
      obtain ⟨hcall, hpc⟩ := next_eq_some hr'
      rw [hcall]
      exact ⟨hr, hpc⟩
  cases i with
  | sem_wait x =>
      simp only [clientExec, Option.ite_none_right_eq_some, Option.some.injEq] at hs
      obtain ⟨-, rfl⟩ := hs
      exact ⟨hclient, h.message, h.received, h.produced, h.loop_break, h.pc⟩
  | sem_post x | memcpy_out =>
      cases hs
      exact ⟨hclient, h.message, h.received, h.produced, h.loop_break, h.pc⟩
  | memcpy_in =>
      cases hs
      exact ⟨hclient, hr, h.received, h.produced, h.loop_break, h.pc⟩
  | switch | loop => cases hs

/-- Where the thread copies, serves and tests. -/
theorem memcpy_in_pc : ∀ pc, ∀ h : pc < syscall_thread.length,
    syscall_thread[pc] = .memcpy_in → 6 ≤ pc := by
  decide

theorem switch_pc : ∀ pc, ∀ h : pc < syscall_thread.length,
    syscall_thread[pc] = .switch ↔ pc = 5 := by
  decide

theorem next_pc : ∀ pc, ∀ h : pc < syscall_thread.length,
    syscall_thread[pc] ≠ .loop → pc + 1 < syscall_thread.length := by
  decide

omit [DecidableEq Client] in
theorem Serves.thread_step (h : Serves s) {o : Outcome} {i : Instr}
    (hi : syscall_thread[s.thread.pc]? = some i) (hs : threadExec s o i = some s') :
    Serves s' := by
  obtain ⟨hpc, rfl⟩ := List.getElem?_eq_some_iff.mp hi
  -- nothing but the `switch` is between a request and the response to it
  have hproduced : syscall_thread[s.thread.pc] ≠ .switch → 6 ≤ s.thread.pc + 1 →
      Continues s.thread.recv_data.request_type := by
    intro hne hle
    refine h.produced ?_
    have hfive := mt (switch_pc s.thread.pc hpc).mpr hne
    omega
  have hnext := next_pc s.thread.pc hpc
  generalize syscall_thread[s.thread.pc] = i at hs hproduced hnext hi
  cases i with
  | sem_wait x =>
      simp only [threadExec, Option.ite_none_right_eq_some, Option.some.injEq] at hs
      obtain ⟨-, rfl⟩ := hs
      exact ⟨h.client, h.message, h.received, hproduced (by simp), h.loop_break, hnext (by simp)⟩
  | sem_post x =>
      cases hs
      exact ⟨h.client, h.message, h.received, hproduced (by simp), h.loop_break, hnext (by simp)⟩
  | memcpy_out =>
      cases hs
      exact ⟨h.client, h.message, h.message, hproduced (by simp), h.loop_break, hnext (by simp)⟩
  | memcpy_in =>
      cases hs
      have hle := memcpy_in_pc s.thread.pc hpc
        (Option.some.inj ((List.getElem?_eq_getElem hpc).symm.trans hi))
      exact ⟨h.client, h.produced hle, h.received, hproduced (by simp), h.loop_break,
        hnext (by simp)⟩
  | switch =>
      cases hs
      refine ⟨h.client, h.message, h.received, fun _ => ?_, ?_, hnext (by simp)⟩
      · show Continues (serve s.thread.send_data s.thread.recv_data o).request_type
        rw [serve_request_type]
        exact h.received
      · show (s.thread.loop_break || _) = false
        rw [h.loop_break, h.received.not_isOneOf (by simp)]
        rfl
  | loop =>
      cases hs
      have hclosing : isOneOf s.thread.send_data.request_type [.TYPE_CLOSE, .TYPE_SHUTDOWN] =
          false := h.received.not_isOneOf (by simp)
      have hloop : s.thread.loop.pc = 0 := by
        simp [Thread.loop, h.loop_break, hclosing]
      refine ⟨h.client, h.message, h.received, fun hle => ?_, h.loop_break, ?_⟩
      · rw [hloop] at hle
        cases hle
      · rw [hloop]
        exact Nat.zero_lt_succ _

theorem Serves.step (h : Serves s) {l : Label Client} (hg : CallsContinue s l)
    (hs : Ipc.step s l = some s') : Serves s' := by
  cases l with
  | call c args =>
      obtain ⟨hc, rfl⟩ := step_call_iff.mp hs
      refine ⟨h.update ?_, h.message, h.received, h.produced, h.loop_break, h.pc⟩
      intro r' hr'
      cases hr'
      exact ⟨hg, Nat.zero_lt_succ _⟩
  | client c =>
      obtain ⟨r, hc, i, -, hs⟩ := step_client_iff.mp hs
      exact h.client_step hc hs
  | thread o =>
      obtain ⟨i, hi, hs⟩ := step_thread_iff.mp hs
      exact h.thread_step hi hs

/-! ## As many pending clients as answers owed -/

/-- The client has sent its request and not read its response. -/
def Stage.Pending (x : Stage) : Prop := ∃ k, x = .pending k

instance : DecidablePred Stage.Pending := fun x =>
  match x with
  | .pending k => isTrue ⟨k, rfl⟩
  | .idle | .calling _ | .done => isFalse nofun

/-- The requests, the calls being served and the responses. -/
def Exchange.owed (a : Exchange Client) : Nat :=
  a.request.toNat + (if a.phase = .waiting then 0 else 1) + a.response.toNat

/-- Each of them is one pending client's. -/
def Exchange.Counted (a : Exchange Client) : Prop :=
  Count.having Stage.Pending a.client = a.owed

/-- A client moves between stages outside its request and its response. -/
theorem Exchange.Counted.move (h : a.Counted) (hist : History) {c : Client} {x : Stage}
    (hc : ¬ (a.client c).Pending) (hx : ¬ x.Pending) :
    Counted { a with client := Function.update a.client c x, hist := hist } := by
  have hmove := Count.having_update Stage.Pending a.client c x
  rw [if_neg hc, if_neg hx, add_zero, add_zero] at hmove
  unfold Counted
  rw [hmove, h]
  rfl

theorem Exchange.Counted.step {a' : Exchange Client} {b : Action Client} (h : a.Counted)
    (hs : a.Step b a') : a'.Counted := by
  cases hs with
  | start args hc => exact h.move _ (by rw [hc]; nofun) nofun
  | finish hc => exact h.move a.hist (by rw [hc]; nofun) nofun
  | @request c k hc hr =>
      have hmove := Count.having_update Stage.Pending a.client c (.pending k)
      rw [if_neg (by rw [hc]; nofun), if_pos ⟨k, rfl⟩, add_zero, h] at hmove
      unfold Counted
      rw [hmove]
      norm_cast
      simp only [Exchange.owed, hr, Bool.toNat_false, Bool.toNat_true]
      omega
  | @receive c k hc hr =>
      have hmove := Count.having_update Stage.Pending a.client c .done
      rw [if_pos ⟨k, hc⟩, if_neg nofun, add_zero, h] at hmove
      unfold Counted
      generalize Count.having Stage.Pending (Function.update a.client c .done) = n at hmove ⊢
      cases n with
      | top => cases hmove
      | coe n =>
          norm_cast at hmove ⊢
          simp only [Exchange.owed, hr, Bool.toNat_false, Bool.toNat_true] at hmove ⊢
          omega
  | deliver hp hr =>
      unfold Counted
      rw [h]
      simp [Exchange.owed, hp, hr]
  | produce r hp =>
      unfold Counted
      rw [h]
      simp [Exchange.owed, hp]
  | respond hp hr =>
      unfold Counted
      rw [h]
      simp [Exchange.owed, hp, hr]

/-! ## A state without a step -/

/-- Some party can execute its next statement. -/
def Enabled (s : Sys Client) : Prop :=
  ∃ l : Label Client, (∀ c args, l ≠ .call c args) ∧ (Ipc.step s l).isSome = true

/-- The semaphore a client waits on when nobody can move. -/
theorem client_waits (hno : ¬ Enabled s) (h : Serves s) {c : Client} {r : Running}
    (hc : s.client c = some r) :
    r.pc = 0 ∧ s.sem .empty = 0 ∨ r.pc = 1 ∧ s.sem .mutex = 0 ∨
      r.pc = 5 ∧ s.sem .full2 = 0 ∨ r.pc = 6 ∧ s.sem .mutex2 = 0 := by
  have hstuck : ∀ i, exchange[r.pc]? = some i → clientExec s c r i = none := by
    intro i hi
    by_contra hsome
    refine hno ⟨.client c, nofun, ?_⟩
    simpa [Ipc.step, hc, hi] using Option.isSome_iff_ne_none.mpr hsome
  obtain ⟨-, hpc⟩ := h.client c r hc
  obtain ⟨pc, k⟩ := r
  change pc < 10 at hpc
  interval_cases pc
  all_goals
    have hnone := hstuck _ rfl
    simp [clientExec] at hnone
  · exact .inl ⟨rfl, hnone⟩
  · exact .inr (.inl ⟨rfl, hnone⟩)
  · exact .inr (.inr (.inl ⟨rfl, hnone⟩))
  · exact .inr (.inr (.inr ⟨rfl, hnone⟩))

/-- The semaphore the thread waits on. -/
theorem thread_waits (hno : ¬ Enabled s) (h : Serves s) :
    s.thread.pc = 0 ∧ s.sem .full = 0 ∨ s.thread.pc = 1 ∧ s.sem .mutex = 0 ∨
      s.thread.pc = 6 ∧ s.sem .empty2 = 0 ∨ s.thread.pc = 7 ∧ s.sem .mutex2 = 0 := by
  have hstuck : ∀ i, syscall_thread[s.thread.pc]? = some i → threadExec s ⟨0, 0⟩ i = none := by
    intro i hi
    by_contra hsome
    refine hno ⟨.thread ⟨0, 0⟩, nofun, ?_⟩
    simpa [Ipc.step, hi] using Option.isSome_iff_ne_none.mpr hsome
  have hpc := h.pc
  generalize s.thread.pc = pc at hpc hstuck
  change pc < 12 at hpc
  interval_cases pc
  all_goals
    have hnone := hstuck _ rfl
    simp [threadExec] at hnone
  · exact .inl ⟨rfl, hnone⟩
  · exact .inr (.inl ⟨rfl, hnone⟩)
  · exact .inr (.inr (.inl ⟨rfl, hnone⟩))
  · exact .inr (.inr (.inr ⟨rfl, hnone⟩))

omit [DecidableEq Client] in
/-- A token that nobody has lies in a semaphore. -/
theorem OneToken.available {xs : List Sem} {lo hi lo' hi' : Nat}
    (h : OneToken xs lo hi lo' hi' s)
    (hclient : ∀ c r, s.client c = some r → ¬ (lo ≤ r.pc ∧ r.pc ≤ hi))
    (hthread : ¬ (lo' ≤ s.thread.pc ∧ s.thread.pc ≤ hi')) : tokens xs s.sem = 1 := by
  have hnobody : clientsBetween lo hi s.client = 0 := by
    refine Count.having_eq_zero_iff.mpr fun c hc => ?_
    obtain ⟨r, hr, hpc⟩ := hc
    exact hclient c r hr hpc
  unfold OneToken between at h
  rw [hnobody, if_neg hthread] at h
  simpa using h

/-- When nobody can move, every client waits on `empty` or `full2` and the
thread on `full` or `empty2`, and each pair of semaphores has its token. -/
structure Stuck (s : Sys Client) : Prop where
  client : ∀ c r, s.client c = some r → r.pc = 0 ∧ s.sem .empty = 0 ∨ r.pc = 5 ∧ s.sem .full2 = 0
  thread : s.thread.pc = 0 ∧ s.sem .full = 0 ∨ s.thread.pc = 6 ∧ s.sem .empty2 = 0
  request : s.sem .empty + s.sem .full = 1
  response : s.sem .full2 + s.sem .empty2 = 1

theorem stuck_of_not_enabled (hno : ¬ Enabled s) (h : Serves s) (ht : Tokens s) : Stuck s := by
  have hclient := fun c r => client_waits hno h (c := c) (r := r)
  have hthread := thread_waits hno h
  -- nobody is inside a mutex
  have hmutex : tokens [.mutex] s.sem = 1 := by
    refine ht.mutex.available (fun c r hc => ?_) (by omega)
    have := hclient c r hc
    omega
  have hmutex2 : tokens [.mutex2] s.sem = 1 := by
    refine ht.mutex2.available (fun c r hc => ?_) (by omega)
    have := hclient c r hc
    omega
  simp only [tokens, List.map_cons, List.map_nil, List.sum_cons, List.sum_nil] at hmutex hmutex2
  have hclient' : ∀ c r, s.client c = some r →
      r.pc = 0 ∧ s.sem .empty = 0 ∨ r.pc = 5 ∧ s.sem .full2 = 0 := by
    intro c r hc
    have := hclient c r hc
    omega
  have hrequest : tokens [.empty, .full] s.sem = 1 := by
    refine ht.request.available (fun c r hc => ?_) (by omega)
    have := hclient' c r hc
    omega
  have hresponse : tokens [.full2, .empty2] s.sem = 1 := by
    refine ht.response.available (fun c r hc => ?_) (by omega)
    have := hclient' c r hc
    omega
  simp only [tokens, List.map_cons, List.map_nil, List.sum_cons, List.sum_nil] at hrequest hresponse
  exact ⟨hclient', by omega, by omega, by omega⟩

omit [DecidableEq Client] in
/-- A response is on its way when `full2` is posted or a party is between
the copy and the post, or the wait and the copy. -/
theorem Sim.response_iff (sim : Sim s a) :
    a.response = false ↔
      (∃ c r, s.client c = some r ∧ (r.pc = 8 ∨ r.pc = 9)) ∨ 0 < s.sem .empty2 ∨
        s.thread.pc = 7 ∨ s.thread.pc = 8 := by
  obtain ⟨h, rep, hl⟩ := sim.response
  have hiff := rep.loaded_iff
  rw [hl] at hiff
  simp only [Function.comp_apply, clientPlace_after_iff, placeFrom_before_iff, exists_const,
    Bool.not_eq_true'] at hiff
  exact hiff

omit [DecidableEq Client] in
theorem stage_pending_iff {x : Option Running} :
    (stage x).Pending ↔ ∃ r, x = some r ∧ 3 ≤ r.pc ∧ r.pc ≤ 7 := by
  cases x with
  | none => simp [stage, Stage.Pending]
  | some r =>
      simp only [stage, Stage.Pending, Option.some.injEq, exists_eq_left']
      split
      · simp
        omega
      · split
        · simp
          omega
        · simp
          omega

omit [DecidableEq Client] in
/-- Nobody is inside a call then. -/
theorem Stuck.no_client (h : Stuck s) (sim : Sim s a) (hcount : a.Counted) (c : Client) :
    s.client c = none := by
  have hpending : ∀ c, (a.client c).Pending ↔ ∃ r, s.client c = some r ∧ 3 ≤ r.pc ∧ r.pc ≤ 7 := by
    intro c
    rw [sim.client]
    exact stage_pending_iff
  obtain ⟨hpc, hfull⟩ | ⟨hpc, hempty2⟩ := h.thread
  · -- the thread waits for a request: no answer is owed
    by_contra hne
    obtain ⟨r, hr⟩ := Option.ne_none_iff_exists'.mp hne
    have hreq := h.request
    have hres := h.response
    obtain ⟨-, hempty⟩ | ⟨hfive, hfull2⟩ := h.client c r hr
    · omega
    have hrequest : a.request = false := by
      rw [← Bool.not_eq_true, sim.request_iff]
      rintro (⟨c', r', hr', hpc'⟩ | hpos | hpc' | hpc')
      · have := h.client c' r' hr'
        omega
      · omega
      · omega
      · omega
    have hresponse : a.response = false := sim.response_iff.mpr (.inr (.inl (by omega)))
    have hphase : a.phase = .waiting := by simp [sim.phase, phase, hpc]
    have hzero : Count.having Stage.Pending a.client = 0 := by
      rw [hcount]
      simp [Exchange.owed, hrequest, hresponse, hphase]
    exact Count.having_eq_zero_iff.mp hzero c ((hpending c).mpr ⟨r, hr, by omega⟩)
  · -- the thread waits to respond: somebody awaits the response, and `full2` is posted
    have hphase : a.phase ≠ .waiting := by simp [sim.phase, phase, hpc]
    have hsome : Count.having Stage.Pending a.client ≠ 0 := by
      rw [hcount]
      simp [Exchange.owed, hphase]
    obtain ⟨c', hc'⟩ : ∃ c', (a.client c').Pending := by
      by_contra hnone
      exact hsome (Count.having_eq_zero_iff.mpr (not_exists.mp hnone))
    obtain ⟨r, hr, hlow, hhigh⟩ := (hpending c').mp hc'
    have hwait := h.client c' r hr
    have hres := h.response
    omega

/-! ## Every run -/

/-- **Handshake tokens and deadlock freedom.** -/
structure Live (s : Sys Client) : Prop where
  request : (s.sem .empty + s.sem .full : ℕ∞) + clientsBetween 1 4 s.client +
    between 1 4 s.thread.pc = 1
  response : (s.sem .full2 + s.sem .empty2 : ℕ∞) + clientsBetween 6 9 s.client +
    between 7 10 s.thread.pc = 1
  mutex : s.sem .mutex ≤ 1
  mutex2 : s.sem .mutex2 ≤ 1
  enabled : (∃ c, s.client c ≠ none) → Enabled s

omit [DecidableEq Client] in
theorem OneToken.le_one {xs : List Sem} {lo hi lo' hi' : Nat} (h : OneToken xs lo hi lo' hi' s) :
    tokens xs s.sem ≤ 1 := by
  have hle : (tokens xs s.sem : ℕ∞) ≤ 1 := by
    rw [← h, add_assoc]
    exact le_self_add
  exact_mod_cast hle

/-- **The tokens add up and nothing gets stuck**, for any number of clients
and in every state of every run whose calls are not `close` or `shutdown`. -/
theorem live_of_calls_continue (send_data : ArgsData) (recv_data : RetvalData)
    (h : Run.Reachable Ipc.step CallsContinue (newEntry send_data recv_data) s) : Live s := by
  have ht := tokens_of_reachable h
  have hserves : Serves s := h.invariant (serves_newEntry send_data recv_data)
    fun hs hg hstep => hs.step hg hstep
  obtain ⟨a, sim, hcount⟩ := reachable_exchange (G := fun _ _ => True)
    (J := Exchange.Counted) h (by
      unfold Exchange.Counted
      rw [Count.having_eq_zero_iff.mpr fun c => nofun]
      rfl) (fun _ _ _ => trivial) (fun hc _ hstep => hc.step hstep)
  constructor
  · simpa [OneToken, tokens] using ht.request
  · simpa [OneToken, tokens] using ht.response
  · simpa [tokens] using ht.mutex.le_one
  · simpa [tokens] using ht.mutex2.le_one
  · rintro ⟨c, hc⟩
    by_contra hno
    exact hc ((stuck_of_not_enabled hno hserves ht).no_client sim hcount c)

/-- One client has sent its request and the thread has received it. -/
theorem live_of_request :
    ∃ s : Sys Bool, Run.Reachable Ipc.step CallsContinue (newEntry .zero .zero) s ∧
      (s.client false).isSome = true ∧ Live s := by
  have hrun : ((Run.exec Ipc.step CallsContinue (newEntry .zero .zero)
      ([.call false (send_data (.read 7 0 0))] ++ List.replicate 5 (.client false)
        ++ List.replicate 4 (.thread ⟨100, 0⟩) : List (Label Bool))).map
      fun s => (s.client false).isSome) = some true := by
    decide
  obtain ⟨s, hs, hclient⟩ := Option.map_eq_some_iff.mp hrun
  have hreach := Run.reachable_of_exec hs
  exact ⟨s, hreach, hclient, live_of_calls_continue _ _ hreach⟩

end CorePartitioning.Preload.Ipc
