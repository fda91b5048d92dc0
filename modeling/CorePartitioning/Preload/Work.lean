import Mathlib.Data.Finsupp.Basic
import CorePartitioning.Preload.Progress

/-!
# ld_preload.c — every call returns

A wrapper is a text without loops, and an entry's thread does three things
for a request and one before its first. So a call costs the process a
bounded number of steps, whoever makes them and in whatever order. Together
with the absence of deadlocks: when no more calls are made, all calls return
after finitely many steps, without any assumption about the scheduler.
-/

namespace CorePartitioning.Preload

/-! ## What the texts cost -/

/-- The steps an operation costs, those of an entry's thread included: it is
started, or receives, serves and answers. -/
def Op.cost : Op → Nat
  | .pthread_create _ => 2
  | .CPART_send_to_thread _ _ => 4
  | _ => 1

theorem Op.cost_pos (o : Op) : 1 ≤ o.cost := by
  cases o <;> simp [Op.cost]

abbrev Costs (n : Nat) (p : Wrapper Word) : Prop := p.Costs Op.cost n

/-- An operation that `n` steps allow for. The comparison is one that `rfl`
decides, also where the operation has arguments. -/
theorem op_costs {o : Op} {n : Nat} {k : o.Res → Wrapper Word} (hle : Nat.ble o.cost n = true)
    (hrest : ∀ r, Costs (n - o.cost) (k r)) : Costs n (.op o k) :=
  ⟨Nat.le_of_ble_eq_true hle, hrest⟩

theorem finish_costs (func_errno ret : CInt) : Costs 1 (finish func_errno ret) :=
  ⟨Nat.le_refl 1, fun _ => trivial⟩

theorem unlock_finish_costs (func_errno ret : CInt) :
    Costs 2 (.op (.pthread_rwlock .unlock) fun _ => finish func_errno ret) :=
  op_costs rfl fun _ => finish_costs _ _

theorem unlock_finish_within {n : Nat} (h : Nat.ble 2 n = true) (func_errno ret : CInt) :
    Costs n (.op (.pthread_rwlock .unlock) fun _ => finish func_errno ret) :=
  (unlock_finish_costs _ _).mono (Nat.le_of_ble_eq_true h)

theorem withErrno_costs (c : Syscall) {n : Nat} {f : CInt × CInt → Wrapper Word}
    (hf : ∀ x, Costs n (f x)) : Costs (5 + n) (withErrno c >>= f) := by
  simp only [withErrno, Prog.call_bind, Prog.op_bind]
  have hle : ∀ m, m ≤ 5 → m ≤ 5 + n := fun m hm => Nat.le_trans hm (Nat.le_add_right 5 n)
  refine ⟨hle 1 (by decide), fun _ => ⟨?_, fun _ => ⟨?_, fun r => ⟨?_, fun e => ?_⟩⟩⟩⟩
  · simp only [Op.cost]
    omega
  · simp only [Op.cost]
    omega
  · simp only [Op.cost]
    omega
  · beta_reduce
    split
    · exact (hf _).mono (by simp only [Op.cost]; omega)
    · refine ⟨by simp only [Op.cost]; omega, fun _ => (hf _).mono ?_⟩
      simp only [Op.cost]
      omega

theorem delegated_costs (d : Delegation) : Costs 10 (delegated d) := by
  simp only [delegated, Prog.call_bind]
  refine op_costs rfl fun func_errno => op_costs rfl fun _ => op_costs rfl fun tmp => ?_
  cases tmp with
  | none =>
      refine op_costs rfl fun _ => ?_
      cases d.missErrno func_errno with
      | none => exact op_costs rfl fun _ => trivial
      | some e => exact op_costs rfl fun _ => op_costs rfl fun _ => trivial
  | some tmp =>
      refine op_costs rfl fun _ => op_costs rfl fun _ => op_costs rfl fun _ => ?_
      exact op_costs rfl fun _ => trivial

theorem retire_costs (c : Syscall) (fd : CInt) (tmp : Ptr) : Costs 9 (retire c fd tmp) := by
  simp only [retire, Prog.call_bind]
  refine op_costs rfl fun _ => op_costs rfl fun _ => op_costs rfl fun _ =>
    op_costs rfl fun _ => ?_
  exact op_costs rfl fun _ => op_costs rfl fun _ => trivial

theorem close_costs (fildes : CInt) : Costs 12 (close fildes) := by
  simp only [close, Prog.call_bind]
  refine op_costs rfl fun _ => op_costs rfl fun _ => op_costs rfl fun tmp => ?_
  cases tmp with
  | none => exact op_costs rfl fun _ => op_costs rfl fun _ => op_costs rfl fun _ => trivial
  | some tmp => exact retire_costs _ _ tmp

theorem shutdown_costs (socket flags : CInt) : Costs 11 (shutdown socket flags) := by
  simp only [shutdown, Prog.call_bind]
  refine op_costs rfl fun _ => op_costs rfl fun tmp => ?_
  cases tmp with
  | none => exact op_costs rfl fun _ => op_costs rfl fun _ => trivial
  | some tmp => exact retire_costs _ _ tmp

theorem registerFile_costs (ret func_errno : CInt) : Costs 8 (registerFile ret func_errno) := by
  simp only [registerFile, Prog.call_bind]
  refine op_costs rfl fun _ => op_costs rfl fun _ => op_costs rfl fun _ =>
    op_costs rfl fun _ => ?_
  exact op_costs rfl fun _ => unlock_finish_costs _ _

theorem registerEpoll_costs (ret func_errno : CInt) : Costs 9 (registerEpoll ret func_errno) := by
  simp only [registerEpoll, Prog.call_bind]
  refine op_costs rfl fun num => ?_
  split
  · refine op_costs rfl fun _ => op_costs rfl fun _ => op_costs rfl fun _ =>
      op_costs rfl fun _ => ?_
    exact op_costs rfl fun _ => unlock_finish_costs _ _
  · exact unlock_finish_within rfl _ _

theorem socket_costs (domain type protocol : CInt) : Costs 13 (socket domain type protocol) := by
  simp only [socket, Prog.call_bind]
  refine op_costs rfl fun r => op_costs rfl fun _ => op_costs rfl fun _ =>
    op_costs rfl fun found => ?_
  split
  · exact unlock_finish_within rfl _ _
  · refine op_costs rfl fun num => ?_
    split
    · refine op_costs rfl fun _ => op_costs rfl fun _ => op_costs rfl fun _ =>
        op_costs rfl fun _ => ?_
      exact op_costs rfl fun _ => unlock_finish_costs _ _
    · exact unlock_finish_within rfl _ _

theorem open_costs (path : Word) (flags mode : CInt) : Costs 16 (open_ path flags mode) := by
  refine withErrno_costs (n := 11) _ fun x => ?_
  simp only [Prog.call_bind]
  split
  · trivial
  · refine op_costs rfl fun _ => op_costs rfl fun found => ?_
    split
    · exact unlock_finish_within rfl _ _
    · refine op_costs rfl fun num => ?_
      split
      · exact registerFile_costs _ _
      · exact unlock_finish_within rfl _ _

theorem openat_costs (dirfd : CInt) (pathname : Word) (flags mode : CInt) :
    Costs 17 (openat dirfd pathname flags mode) := by
  refine withErrno_costs (n := 12) _ fun x => ?_
  simp only [Prog.call_bind]
  refine op_costs rfl fun _ => op_costs rfl fun _ => op_costs rfl fun found => ?_
  split
  · exact unlock_finish_within rfl _ _
  · split
    · refine op_costs rfl fun num => ?_
      split
      · exact registerFile_costs _ _
      · exact unlock_finish_within rfl _ _
    · exact unlock_finish_within rfl _ _

theorem epoll_create_costs (size : CInt) : Costs 16 (epoll_create size) := by
  refine withErrno_costs (n := 11) _ fun x => ?_
  simp only [Prog.call_bind]
  refine op_costs rfl fun _ => op_costs rfl fun found => ?_
  split
  · exact op_costs rfl fun _ => (finish_costs _ _).mono (Nat.le_of_ble_eq_true rfl)
  · exact registerEpoll_costs _ _

theorem accept_costs (socket : CInt) (addr addrlen : Word) :
    Costs 16 (accept socket addr addrlen) := by
  simp only [accept, Prog.call_bind]
  refine op_costs rfl fun _ => op_costs rfl fun tmp => ?_
  cases tmp with
  | none => exact op_costs rfl fun _ => op_costs rfl fun _ => op_costs rfl fun _ => trivial
  | some tmp =>
      refine op_costs rfl fun _ => op_costs rfl fun recv_data => ?_
      split
      · refine op_costs rfl fun found => ?_
        cases found with
        | some _ => exact unlock_finish_within rfl _ _
        | none =>
            refine op_costs rfl fun _ => op_costs rfl fun _ => op_costs rfl fun _ => ?_
            refine op_costs rfl fun _ => op_costs rfl fun _ => ?_
            exact unlock_finish_costs _ _
      · exact unlock_finish_within rfl _ _

/-- **No wrapper costs more than 17 steps** before it returns. -/
theorem wrapper_costs (c : Syscall) : Costs 17 (wrapper c) := by
  cases c with
  | close => exact (close_costs _).mono (by decide)
  | shutdown => exact (shutdown_costs _ _).mono (by decide)
  | socket => exact (socket_costs _ _ _).mono (by decide)
  | «open» => exact (open_costs _ _ _).mono (by decide)
  | openat => exact openat_costs _ _ _ _
  | accept => exact (accept_costs _ _ _).mono (by decide)
  | epoll_create => exact (epoll_create_costs _).mono (by decide)
  | _ => exact (delegated_costs _).mono (by decide)

namespace Machine

variable {Tid : Type} [DecidableEq Tid] {m m' : Machine Tid} {t : Tid}

/-! ## What is still to be done -/

/-- A step other than the beginning of a call. -/
def inward : Label Tid → Bool
  | .inl (.call _ _) => false
  | _ => true

/-- The steps an entry's thread has before it: its start, and what remains of
the request in the slot and of the one it serves. -/
def Channel.work (ch : Channel Tid) : Nat :=
  (if ch.life = .created then 1 else 0) + (if ch.exchange.request then 3 else 0) +
    match ch.exchange.phase with
    | .waiting => 0
    | .serving => 2
    | .replying _ => 1

/-- `n` steps are enough for the thread to return. -/
def Pays (n : Nat) : Option (Syscall × Wrapper Word) → Prop
  | none => True
  | some (_, p) => ∃ k, Costs k p ∧ k + 1 ≤ n

/-- What all parties together have. -/
def total {α : Type} (f : α →₀ Nat) : Nat := f.sum fun _ n => n

theorem total_update {α : Type} (f : α →₀ Nat) (a : α) (n : Nat) :
    total (f.update a n) + f a = total f + n :=
  Finsupp.sum_update_add f a n (fun _ n => n) (fun _ => rfl) fun _ _ _ => rfl

/-- `v` steps are enough for all calls to return: so many for each thread, so
many for each entry's thread. -/
def Outstanding (s : State Tid) (v : Nat) : Prop :=
  ∃ (calls : Tid →₀ Nat) (threads : Ptr →₀ Nat), (∀ t, Pays (calls t) (s.thread t)) ∧
    (∀ p, Channel.work (s.shared.channel p) ≤ threads p) ∧ v = total calls + total threads

/-- Another text for one thread. -/
theorem pays_update {calls : Tid →₀ Nat} {thread : Tid → Option (Syscall × Wrapper Word)}
    (hpays : ∀ t, Pays (calls t) (thread t)) {x : Option (Syscall × Wrapper Word)} {n : Nat}
    (hx : Pays n x) (u : Tid) :
    Pays (calls.update t n u) (Function.update thread t x u) := by
  rw [Finsupp.coe_update]
  by_cases hut : u = t
  · subst hut
    simpa using hx
  · simpa [hut] using hpays u

/-- An operation gives at most what it costs to one entry's thread. -/
theorem work_of_sem {e : Env} {o : Op} {r : o.Res} (h : m.sem t e o = some (r, m')) :
    ∃ p, ∀ q, Channel.work (m'.channel q) ≤
      Channel.work (m.channel q) + if q = p then o.cost - 1 else 0 := by
  have hnew : Channel.work ({} : Channel Tid) = 0 := rfl
  cases o with
  | CPART_send_to_thread args p =>
      obtain ⟨a, ha, rfl⟩ := sem_send h
      obtain ⟨-, hrequest, rfl⟩ := Ipc.Exchange.send_to_thread_eq_some ha
      refine ⟨p, fun q => ?_⟩
      by_cases hqp : q = p
      · subst hqp
        simp [Channel.work, Op.cost, hrequest]
        omega
      · simp [hqp]
  | CPART_recv_from_thread p =>
      obtain ⟨a, ha, rfl⟩ := sem_recv h
      obtain ⟨k, -, -, heq⟩ := Ipc.Exchange.recv_from_thread_eq_some ha
      rw [(Prod.mk.inj heq).2]
      refine ⟨p, fun q => ?_⟩
      by_cases hqp : q = p
      · subst hqp
        simp [Channel.work]
      · simp [hqp]
  | fdtable_add =>
      refine ⟨0, fun q => ?_⟩
      obtain ⟨-, -, hchannel⟩ | ⟨-, -, hchannel⟩ := sem_add h
      · rw [hchannel]
        exact Nat.le_add_right _ _
      · rw [hchannel]
        by_cases hq : q = m.world.table.nextPtr
        · rw [hq, Function.update_self, hnew]
          exact Nat.zero_le _
        · rw [Function.update_of_ne hq]
          exact Nat.le_add_right _ _
  | pthread_create tmp =>
      have hchannel : m'.channel = (m.after t e (.pthread_create tmp) r).channel := by
        rw [(sem_plain rfl h).2]
      cases tmp with
      | none =>
          refine ⟨0, fun q => ?_⟩
          rw [hchannel]
          exact Nat.le_add_right _ _
      | some p =>
          refine ⟨p, fun q => ?_⟩
          rw [hchannel]
          simp only [after]
          split
          · by_cases hqp : q = p
            · subst hqp
              simp [Channel.work, Op.cost]
              omega
            · simp [hqp]
          · exact Nat.le_add_right _ _
  | _ =>
      refine ⟨0, fun q => ?_⟩
      rw [channel_of_sem h rfl]
      exact Nat.le_add_right _ _

omit [DecidableEq Tid] in
/-- Every step of an entry's thread is one of those before it. -/
theorem Serves.work {b : ThreadStep} (h : m.Serves b m') :
    ∃ p, Channel.work (m'.channel p) + 1 ≤ Channel.work (m.channel p) ∧
      ∀ q, q ≠ p → m'.channel q = m.channel q := by
  have hother : ∀ {p : Ptr} {ch : Channel Tid}, ∀ q, q ≠ p →
      (m.set p ch).channel q = m.channel q := by
    intro p ch q hqp
    rw [set_channel, Function.update_of_ne hqp]
  cases h with
  | @unfound p _ _ hl hs =>
      refine ⟨p, ?_, hother⟩
      simp [Channel.work, hl]
  | @start p _ _ hl sock hs hp =>
      refine ⟨p, ?_, hother⟩
      rw [set_channel, Function.update_self]
      simp only [Channel.work, hl]
      split <;> simp_all
  | @recv_from_app p hl x hx =>
      obtain ⟨hphase, hrequest, rfl⟩ := Ipc.Exchange.recv_from_app_eq_some hx
      refine ⟨p, ?_, hother⟩
      simp [Channel.work, hphase, hrequest]
  | @switch p o hl a ha =>
      obtain ⟨hphase, rfl⟩ := Ipc.Exchange.produce_eq_some ha
      refine ⟨p, ?_, fun q hqp => ?_⟩
      · rw [perform_channel]
        simp [Channel.work, hphase]
      · rw [perform_channel]
        exact hother q hqp
  | @send_to_app p hl a ha =>
      obtain ⟨r, hphase, -, rfl⟩ := Ipc.Exchange.send_to_app_eq_some ha
      refine ⟨p, ?_, hother⟩
      rw [set_channel, Function.update_self]
      simp only [Channel.work, hphase, hl]
      split <;> simp

/-! ## Runs -/

/-- The steps a call may cost: 17 and its return. -/
def callCost : Nat := 18

/-- **One step** uses up what is outstanding, or is a new call. -/
theorem Outstanding.step {s s' : State Tid} {l : Label Tid} {v : Nat} (h : Outstanding s v)
    (hs : Machine.step s l = some s') :
    ∃ v', Outstanding s' v' ∧ v' + (if inward l then 1 else 0) ≤
      v + if inward l then 0 else callCost := by
  obtain ⟨calls, threads, hpays, hwork, rfl⟩ := h
  obtain ⟨t, c, rfl, ht, rfl⟩ | ⟨t, e, c, a, rfl, ht, rfl⟩ |
    ⟨t, e, c, o, k, r, sh, rfl, ht, ho, rfl⟩ | ⟨b, sh, rfl, hb, rfl⟩ := Threads.openStep_cases hs
  · refine ⟨_, ⟨calls.update t callCost, threads, ?_, hwork, rfl⟩, ?_⟩
    · exact pays_update hpays ⟨17, wrapper_costs c, Nat.le_refl _⟩
    · have htotal := total_update calls t callCost
      simp only [inward, Bool.false_eq_true, if_false]
      omega
  · have hpay := hpays t
    rw [ht] at hpay
    obtain ⟨k, -, hk⟩ := hpay
    refine ⟨_, ⟨calls.update t 0, threads, pays_update hpays trivial, hwork, rfl⟩, ?_⟩
    have htotal := total_update calls t 0
    simp only [inward, if_true]
    omega
  · have hpay := hpays t
    rw [ht] at hpay
    obtain ⟨n, ⟨hcost, hrest⟩, hn⟩ := hpay
    obtain ⟨p, hp⟩ := work_of_sem ho
    refine ⟨_, ⟨calls.update t (calls t - o.cost), threads.update p (threads p + (o.cost - 1)),
      ?_, fun q => ?_, rfl⟩, ?_⟩
    · exact pays_update hpays ⟨n - o.cost, hrest r, by omega⟩
    · have hq := hp q
      have hold := hwork q
      rw [Finsupp.coe_update]
      show Channel.work (sh.channel q) ≤ _
      by_cases hqp : q = p
      · subst hqp
        rw [Function.update_self]
        rw [if_pos rfl] at hq
        omega
      · rw [Function.update_of_ne hqp]
        rw [if_neg hqp] at hq
        omega
    · have hcalls := total_update calls t (calls t - o.cost)
      have hthreads := total_update threads p (threads p + (o.cost - 1))
      have hpos := o.cost_pos
      simp only [inward, if_true]
      omega
  · obtain ⟨p, hp, hother⟩ := Serves.work (serves_of_syscall_thread hb)
    have hold := hwork p
    refine ⟨_, ⟨calls, threads.update p (threads p - 1), hpays, fun q => ?_, rfl⟩, ?_⟩
    · rw [Finsupp.coe_update]
      by_cases hqp : q = p
      · subst hqp
        rw [Function.update_self]
        show Channel.work (sh.channel q) ≤ threads q - 1
        omega
      · rw [Function.update_of_ne hqp]
        show Channel.work (sh.channel q) ≤ threads q
        rw [hother q hqp]
        exact hwork q
    · have hthreads := total_update threads p (threads p - 1)
      simp only [inward, if_true]
      omega

omit [DecidableEq Tid] in
theorem outstanding_init : Outstanding (init : State Tid) 0 :=
  ⟨0, 0, fun _ => trivial, fun _ => Nat.le_refl 0, rfl⟩

omit [DecidableEq Tid] in
/-- The steps of a run that belong to calls, and the calls. -/
theorem amount_inward (ls : List (Label Tid)) (n : Nat) :
    Run.amount (fun l => if inward l then 1 else 0) ls = ls.countP inward ∧
      Run.amount (fun l => if inward l then 0 else n) ls =
        n * ls.countP fun l => !inward l := by
  induction ls with
  | nil => exact ⟨rfl, rfl⟩
  | cons l ls ih =>
      obtain ⟨hinward, hcalls⟩ := ih
      cases hl : inward l with
      | true => simp [Run.amount, hl, hinward, hcalls, Nat.add_comm]
      | false => simp [Run.amount, hl, hinward, hcalls, Nat.mul_add, Nat.add_comm]

/-- **Bounded work.** In every run, whatever the scheduler and the outside
world do, the threads of the process together make at most 18 steps for
each call that has been made. -/
theorem work_bounded {guard : State Tid → Label Tid → Prop} {ls : List (Label Tid)} {s : State Tid}
    (h : Run.Trace step guard init ls s) :
    ls.countP inward ≤ callCost * ls.countP fun l => !inward l := by
  obtain ⟨v, -, hle⟩ := h.amortised outstanding_init fun hΦ _ hs => Outstanding.step hΦ hs
  obtain ⟨hinward, hcalls⟩ := amount_inward ls callCost
  rw [hinward, hcalls] at hle
  omega

/-- A socket is made and shut down: 18 steps for two calls. -/
theorem work_bounded_of_shutdown :
    ∃ s : State Bool, Run.Trace step Run.free init
      (oneSocket ++ calls true (.shutdown 5 0) 4 {}) s ∧
      (oneSocket ++ calls true (.shutdown 5 0) 4 {}).countP inward = 18 ∧
      18 ≤ callCost * (oneSocket ++ calls true (.shutdown 5 0) 4 {}).countP fun l => !inward l := by
  have hrun : (Run.exec step Run.free (init : State Bool)
      (oneSocket ++ calls true (.shutdown 5 0) 4 {})).isSome = true := by
    decide
  obtain ⟨s, hs⟩ := Option.isSome_iff_exists.mp hrun
  have htrace := Run.trace_of_exec hs
  exact ⟨s, htrace, rfl, work_bounded htrace⟩

/-- Nobody can make a step without a new call. -/
def Still (s : State Tid) : Prop := ∀ l, inward l = true → step s l = none

/-- What `CanMove` says of the labels. -/
theorem CanMove.not_still {s : State Tid} (h : CanMove s) : ¬ Still s := by
  intro hstill
  have hno : ∀ l, inward l = true → (step s l).isSome = true → False := by
    intro l hl hsome
    rw [hstill l hl] at hsome
    cases hsome
  obtain ⟨t, ht⟩ | ⟨p, hp | hp | hp | hp⟩ := h
  · exact hno _ rfl (ht {})
  · exact hno _ rfl (hp .zero .zero)
  · exact hno _ rfl hp
  · exact hno _ rfl (hp ⟨0, 0⟩)
  · exact hno _ rfl hp

theorem outstanding_of_reachable {guard : State Tid → Label Tid → Prop} {s : State Tid}
    (h : Run.Reachable step guard init s) : ∃ v, Outstanding s v := by
  obtain ⟨ls, htrace⟩ := h.trace
  obtain ⟨v, hv, -⟩ := htrace.amortised outstanding_init fun hΦ _ hs => Outstanding.step hΦ hs
  exact ⟨v, hv⟩

/-- Without new calls what is outstanding bounds the steps. -/
theorem Outstanding.length_le {guard : State Tid → Label Tid → Prop} {s s' : State Tid} {v : Nat}
    (hv : Outstanding s v) {ls : List (Label Tid)} (hls : Run.Trace Machine.step guard s ls s')
    (hinward : ∀ l ∈ ls, inward l = true) : ls.length ≤ v := by
  obtain ⟨v', -, hle⟩ := hls.amortised hv fun hΦ _ hs => Outstanding.step hΦ hs
  obtain ⟨hsum, hcalls⟩ := amount_inward ls callCost
  have hnone : ls.countP (fun l => !inward l) = 0 :=
    List.countP_eq_zero.mpr fun l hl => by simp [hinward l hl]
  have hall : ls.countP inward = ls.length := List.countP_eq_length.mpr hinward
  rw [hsum, hcalls, hnone, hall] at hle
  omega

/-- Where nobody can make a step no call is in progress. -/
theorem idle_of_still {s : State Tid} (h : Run.Reachable step Assumed init s) (hstill : Still s)
    (t : Tid) : s.thread t = none := by
  by_contra ht
  obtain ⟨ann, hl, hann⟩ := lively_of_reachable h
  exact (canMove_of_call hl hann ht).not_still hstill

end Machine

end CorePartitioning.Preload
