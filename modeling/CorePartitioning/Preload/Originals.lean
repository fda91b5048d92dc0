import CorePartitioning.Preload.Work

/-!
# ld_preload.c — as many original calls as calls

A wrapper performs its original call itself, or has an entry's thread
perform it. When several threads use one descriptor a request can be
overwritten before it is read, and then some other call is performed; but
the number is right: every request that is taken is a request for one
original call, unless it ends the thread, and then the wrapper performs the
call. So in every interleaving as many original calls are performed as calls
are made.
-/

namespace CorePartitioning.Preload

/-! ## What the texts perform -/

/-- The `switch` performs an original call for the request. -/
def performs (a : ArgsData) : Bool := (dispatch a).isSome

/-- It depends on the type of the request. -/
theorem performs_congr {a b : ArgsData} (h : a.request_type = b.request_type) :
    performs a = performs b := by
  unfold performs dispatch
  rw [h]
  split <;> rfl

theorem performs_terminates {c : Syscall} (hc : c.terminates = true) :
    performs (send_data c) = false := by
  rw [performs, dispatch_terminates hc]
  rfl

/-- What a reader sends asks for an original call. -/
theorem performs_send_data {c : Syscall} (hc : c.terminates = false)
    (hd : c.descriptor ≠ none) : performs (send_data c) = true := by
  cases c with
  | close | shutdown => cases hc
  | socket | «open» | openat | epoll_create => exact absurd rfl hd
  | poll ufds fds nfds timeout => rfl
  | _ =>
      rw [performs, dispatch_send_data rfl]
      rfl

/-- The original calls an operation leads to. -/
def Op.originals : Op → Nat
  | .original _ => 1
  | .CPART_send_to_thread args _ => if performs args then 1 else 0
  | _ => 0

abbrev Performs (n : Nat) (p : Wrapper Word) : Prop := p.Spends Op.originals n

theorem performs_op {n : Nat} {o : Op} {k : o.Res → Wrapper Word} (ho : o.originals = 0)
    (hk : ∀ r, Performs n (k r)) : Performs n (.op o k) :=
  ⟨n, by rw [ho, Nat.zero_add], hk⟩

theorem performs_original {c : Syscall} {k : Word → Wrapper Word}
    (hk : ∀ w, Performs 0 (k w)) : Performs 1 (.op (.original c) k) :=
  ⟨0, rfl, hk⟩

/-- The way out: the original call has been performed. -/
theorem finish_performs (func_errno ret : CInt) : Performs 0 (finish func_errno ret) :=
  performs_op rfl fun _ => rfl

theorem unlock_finish_performs (func_errno ret : CInt) :
    Performs 0 (.op (.pthread_rwlock .unlock) fun _ => finish func_errno ret) :=
  performs_op rfl fun _ => finish_performs _ _

theorem withErrno_performs (c : Syscall) {f : CInt × CInt → Wrapper Word}
    (hf : ∀ x, Performs 0 (f x)) : Performs 1 (withErrno c >>= f) := by
  simp only [withErrno, Prog.call_bind, Prog.op_bind]
  apply performs_op rfl
  intro func_errno
  apply performs_op rfl
  intro _
  apply performs_original
  intro r
  apply performs_op rfl
  intro e
  split
  · exact hf _
  · exact performs_op rfl fun _ => hf _

/-- The thread performs the call, or the caller does. -/
theorem delegated_performs {d : Delegation} (hd : performs (send_data d.call) = true) :
    Performs 1 (delegated d) := by
  simp only [delegated, Prog.call_bind]
  apply performs_op rfl
  intro func_errno
  apply performs_op rfl
  intro _
  apply performs_op rfl
  intro tmp
  cases tmp with
  | none =>
      apply performs_op rfl
      intro _
      cases d.missErrno func_errno with
      | none => exact performs_original fun _ => rfl
      | some e => exact performs_op rfl fun _ => performs_original fun _ => rfl
  | some tmp =>
      refine ⟨0, ?_, fun _ => ?_⟩
      · simp [Op.originals, hd]
      · apply performs_op rfl
        intro recv_data
        apply performs_op rfl
        intro _
        exact performs_op rfl fun _ => rfl

/-- The last request is no call; the caller performs it. -/
theorem retire_performs {c : Syscall} (hc : c.terminates = true) (fd : CInt) (tmp : Ptr) :
    Performs 1 (retire c fd tmp) := by
  have hsend : (Op.CPART_send_to_thread (send_data c) tmp).originals = 0 := by
    simp [Op.originals, performs_terminates hc]
  simp only [retire, Prog.call_bind]
  apply performs_op hsend
  intro _
  apply performs_op rfl
  intro _
  apply performs_op rfl
  intro _
  apply performs_op rfl
  intro _
  exact performs_op rfl fun _ => performs_original fun _ => rfl

theorem registerFile_performs (ret func_errno : CInt) :
    Performs 0 (registerFile ret func_errno) := by
  simp only [registerFile, Prog.call_bind]
  apply performs_op rfl
  intro tmp
  apply performs_op rfl
  intro _
  apply performs_op rfl
  intro _
  apply performs_op rfl
  intro _
  exact performs_op rfl fun _ => unlock_finish_performs _ _

theorem registerEpoll_performs (ret func_errno : CInt) :
    Performs 0 (registerEpoll ret func_errno) := by
  simp only [registerEpoll, Prog.call_bind]
  apply performs_op rfl
  intro num
  split
  · apply performs_op rfl
    intro tmp
    apply performs_op rfl
    intro _
    apply performs_op rfl
    intro _
    apply performs_op rfl
    intro _
    exact performs_op rfl fun _ => unlock_finish_performs _ _
  · exact unlock_finish_performs _ _

theorem close_performs (fildes : CInt) : Performs 1 (close fildes) := by
  simp only [close, Prog.call_bind]
  apply performs_op rfl
  intro func_errno
  apply performs_op rfl
  intro _
  apply performs_op rfl
  intro tmp
  cases tmp with
  | none => exact performs_op rfl fun _ => performs_op rfl fun _ => performs_original fun _ => rfl
  | some tmp => exact retire_performs rfl _ tmp

theorem shutdown_performs (socket flags : CInt) : Performs 1 (shutdown socket flags) := by
  simp only [shutdown, Prog.call_bind]
  apply performs_op rfl
  intro _
  apply performs_op rfl
  intro tmp
  cases tmp with
  | none => exact performs_op rfl fun _ => performs_original fun _ => rfl
  | some tmp => exact retire_performs rfl _ tmp

theorem socket_performs (domain type protocol : CInt) :
    Performs 1 (socket domain type protocol) := by
  simp only [socket, Prog.call_bind]
  apply performs_original
  intro r
  apply performs_op rfl
  intro func_errno
  apply performs_op rfl
  intro _
  apply performs_op rfl
  intro found
  split
  · exact unlock_finish_performs _ _
  · apply performs_op rfl
    intro num
    split
    · apply performs_op rfl
      intro tmp
      apply performs_op rfl
      intro _
      apply performs_op rfl
      intro _
      apply performs_op rfl
      intro _
      exact performs_op rfl fun _ => unlock_finish_performs _ _
    · exact unlock_finish_performs _ _

theorem open_performs (path : Word) (flags mode : CInt) : Performs 1 (open_ path flags mode) := by
  apply withErrno_performs
  intro x
  simp only [Prog.call_bind]
  split
  · rfl
  · apply performs_op rfl
    intro _
    apply performs_op rfl
    intro found
    split
    · exact unlock_finish_performs _ _
    · apply performs_op rfl
      intro num
      split
      · exact registerFile_performs _ _
      · exact unlock_finish_performs _ _

theorem openat_performs (dirfd : CInt) (pathname : Word) (flags mode : CInt) :
    Performs 1 (openat dirfd pathname flags mode) := by
  apply withErrno_performs
  intro x
  simp only [Prog.call_bind]
  apply performs_op rfl
  intro func_errno
  apply performs_op rfl
  intro _
  apply performs_op rfl
  intro found
  split
  · exact unlock_finish_performs _ _
  · split
    · apply performs_op rfl
      intro num
      split
      · exact registerFile_performs _ _
      · exact unlock_finish_performs _ _
    · exact unlock_finish_performs _ _

theorem epoll_create_performs (size : CInt) : Performs 1 (epoll_create size) := by
  apply withErrno_performs
  intro x
  simp only [Prog.call_bind]
  apply performs_op rfl
  intro _
  apply performs_op rfl
  intro found
  split
  · exact performs_op rfl fun _ => finish_performs _ _
  · exact registerEpoll_performs _ _

theorem accept_performs (socket : CInt) (addr addrlen : Word) :
    Performs 1 (accept socket addr addrlen) := by
  simp only [accept, Prog.call_bind]
  apply performs_op rfl
  intro _
  apply performs_op rfl
  intro tmp
  cases tmp with
  | none => exact performs_op rfl fun _ => performs_op rfl fun _ => performs_original fun _ => rfl
  | some tmp =>
      refine ⟨0, rfl, fun _ => ?_⟩
      apply performs_op rfl
      intro recv_data
      split
      · apply performs_op rfl
        intro found
        cases found with
        | some _ => exact unlock_finish_performs _ _
        | none =>
            apply performs_op rfl
            intro tmp2
            apply performs_op rfl
            intro _
            apply performs_op rfl
            intro _
            apply performs_op rfl
            intro _
            exact performs_op rfl fun _ => unlock_finish_performs _ _
      · exact unlock_finish_performs _ _

/-- **Every wrapper performs one original call**, on every path. -/
theorem wrapper_performs (c : Syscall) : Performs 1 (wrapper c) := by
  cases c with
  | close => exact close_performs _
  | shutdown => exact shutdown_performs _ _
  | socket => exact socket_performs _ _ _
  | «open» => exact open_performs _ _ _
  | openat => exact openat_performs _ _ _ _
  | accept => exact accept_performs _ _ _
  | epoll_create => exact epoll_create_performs _
  | _ => exact delegated_performs (performs_send_data rfl nofun)

/-! ## What is counted -/

/-- The request asks for an original call. -/
def Performing (request_type : BitVec 32) : Prop :=
  performs { ArgsData.zero with request_type := request_type } = true

theorem performing_iff (a : ArgsData) : Performing a.request_type ↔ performs a = true := by
  have heq : performs { ArgsData.zero with request_type := a.request_type } = performs a :=
    performs_congr rfl
  rw [Performing, heq]

def LogEntry.isIssued {Tid : Type} : LogEntry Tid → Bool
  | .issued _ _ => true
  | _ => false

def LogEntry.isPerformed {Tid : Type} : LogEntry Tid → Bool
  | .performed _ _ _ => true
  | _ => false

/-- The original calls an entry's thread has before it. -/
def Channel.owing {Tid : Type} (ch : Channel Tid) : Nat :=
  (if ch.exchange.request = true ∧ performs ch.exchange.message = true then 1 else 0) +
    if ch.exchange.phase = .serving ∧ performs ch.send_data = true then 1 else 0

namespace Machine

variable {Tid : Type} [DecidableEq Tid] {m m' : Machine Tid} {ann : Tid → Ann} {t : Tid}

/-- The calls that have been made, and the original calls performed. -/
def issuedCount (m : Machine Tid) : Nat := m.log.countP LogEntry.isIssued
def performedCount (m : Machine Tid) : Nat := m.log.countP LogEntry.isPerformed

omit [DecidableEq Tid] in
@[simp] theorem issuedCount_write (x : LogEntry Tid) :
    (m.write x).issuedCount = m.issuedCount + if x.isIssued then 1 else 0 := by
  simp [issuedCount]

omit [DecidableEq Tid] in
@[simp] theorem performedCount_write (x : LogEntry Tid) :
    (m.write x).performedCount = m.performedCount + if x.isPerformed then 1 else 0 := by
  simp [performedCount]

omit [DecidableEq Tid] in
theorem issuedCount_perform (m : Machine Tid) (send_data : ArgsData) (w : Word) :
    (m.perform send_data w).issuedCount = m.issuedCount := by
  rcases perform_log m send_data w with ⟨-, hlog⟩ | ⟨c, -, hlog⟩
  · rw [issuedCount, hlog, issuedCount]
  · simp [issuedCount, hlog, LogEntry.isIssued]

omit [DecidableEq Tid] in
theorem performedCount_perform (m : Machine Tid) (send_data : ArgsData) (w : Word) :
    (m.perform send_data w).performedCount =
      m.performedCount + if performs send_data = true then 1 else 0 := by
  rcases perform_log m send_data w with ⟨hnone, hlog⟩ | ⟨c, hsome, hlog⟩
  · simp [performedCount, hlog, performs, hnone]
  · simp [performedCount, hlog, performs, hsome, LogEntry.isPerformed]

/-! ## The invariant -/

/-- Where requests go and what they are. -/
structure Accounted (m : Machine Tid) (ann : Tid → Ann) : Prop extends Tended m ann where
  talking : Talking m ann
  performing : Carried Performing m ann

namespace Accounted

theorem sem (hm : Accounted m ann) {e : Env} {o : Op} {r : o.Res} (hp : (ann t).pre o)
    (ho : m.sem t e o = some (r, m')) :
    Accounted m' (Function.update ann t ((ann t).next o r)) where
  toTended := hm.toTended.sem hp ho
  talking := hm.talking.sem hm.kept hp ho
  performing := by
    apply hm.performing.sem hm.toTended hp ho
    intro args q c fd _ hask hterm
    rw [performing_iff, hask.args]
    apply performs_send_data hterm
    rw [hask.descriptor]
    nofun

theorem serves {b : ThreadStep} (hm : Accounted m ann) (h : m.Serves b m') : Accounted m' ann where
  toTended := hm.toTended.serves h
  talking := hm.talking.serves h
  performing := hm.performing.serves hm.toTended h

theorem update (hm : Accounted m ann) {h : Ann}
    (hheld : Held m.world.lock (Function.update ann t h)) (ht : (ann t).Quiet) (hq : h.Quiet) :
    Accounted m (Function.update ann t h) where
  toTended := hm.toTended.update hheld hq
  talking := by
    apply hm.talking.update hheld
    · rw [ht.talk]
      nofun
    · rw [hq.talk]
      nofun
  performing := hm.performing.update ht

theorem write (hm : Accounted m ann) (x : LogEntry Tid) : Accounted (m.write x) ann :=
  ⟨hm.toTended.write x, hm.talking.write x, hm.performing⟩

/-- A request that can be overwritten by a response asks for an original call
like the one the response is for: whoever ends the thread is alone. -/
theorem performs_overwrite (hm : Accounted m ann) {p : Ptr} {r : RetvalData}
    (hrequest : (m.channel p).exchange.request = true)
    (hphase : (m.channel p).exchange.phase = .replying r) :
    performs ((m.channel p).exchange.message.overwrite r) =
      performs (m.channel p).exchange.message := by
  have howes : (m.channel p).exchange.owed ≠ 0 := by
    simp [Ipc.Exchange.owed, hrequest]
  obtain ⟨t, k, hk⟩ := hm.talking.exists_pending howes
  obtain ⟨-, ⟨fd, hentry⟩, -⟩ := hm.talking.pending p t k hk
  rcases hm.performing p (hm.kept.entry t p fd hentry) with ⟨u, hends⟩ | hcarries
  · -- the writer is the only client
    have hone : Count.having Ipc.Stage.Pending (m.channel p).exchange.client ≤ 1 := by
      apply Count.having_le_one (a := u)
      intro v hv
      obtain ⟨k', hk'⟩ := hv
      obtain ⟨-, ⟨fd', hentry'⟩, -⟩ := hm.talking.pending p v k' hk'
      apply hm.held.eq_of_write hends.mode
      apply (hm.held.coherent v).mode
      rw [hentry']
      exact Option.some_ne_none _
    have hcounted : Count.having Ipc.Stage.Pending (m.channel p).exchange.client =
      (m.channel p).exchange.owed := hm.talking.counted p
    rw [hcounted] at hone
    have howed : (m.channel p).exchange.owed ≤ 1 := by exact_mod_cast hone
    have hne : (m.channel p).exchange.phase ≠ .waiting := by simp [hphase]
    rw [Ipc.Exchange.owed, hrequest, if_neg hne, Bool.toNat_true] at howed
    omega
  · have hmessage := (performing_iff _).mp (hcarries.message (.inl hrequest))
    have hreply := hcarries.reply r hphase
    rw [hmessage]
    exact (performing_iff ((m.channel p).exchange.message.overwrite r)).mp hreply

end Accounted

omit [DecidableEq Tid] in
theorem accounted_init [DecidableEq Tid] : Accounted ({} : Machine Tid) fun _ => {} where
  toTended := tended_init
  talking := talking_init
  performing := carried_init

/-- Nothing is assumed of the run: the invariant stays. -/
theorem accounted_of_start {guard : State Tid → Label Tid → Prop} {s₀ s : State Tid}
    (hidle : ∀ t, s₀.thread t = none) (hstart : Accounted s₀.shared fun _ => {})
    (h : Run.Reachable step guard s₀ s) :
    ∃ ann, Accounted s.shared ann ∧ ∀ t, Threads.Outlined Ann.next (fun _ _ _ _ => True)
      (fun c h o => h.pre o ∧ h.call = some c) (fun c h a => h.post a ∧ h.call = some c) {}
      (ann t) (s.thread t) := by
  refine Threads.outlined_of_reachable ({} : Ann) h wrapper_outline hidle hstart ?_ ?_ ?_ ?_
  · intro s ann t c hm ht _ _
    have hidle : (ann t).Quiet := by
      rw [ht]
      exact ⟨.inl rfl, rfl, rfl, rfl⟩
    exact (hm.update (hm.held.start ht c) hidle ⟨.inl rfl, rfl, rfl, rfl⟩).write _
  · intro s ann t e c a hm _ _ hpost
    have hq := hpost.1.1
    exact (hm.update (hm.held.idle hq) hq ⟨.inl rfl, rfl, rfl, rfl⟩).write _
  · intro s ann t e c o k r sh hm _ _ hpre ho
    exact ⟨trivial, hm.sem hpre.1 ho⟩
  · intro s ann b sh hm _ hb
    exact hm.serves (serves_of_syscall_thread hb)

/-! ## One step -/

omit [DecidableEq Tid] in
theorem owing_set {p q : Ptr} {ch : Channel Tid} (h : ch.owing = (m.channel p).owing) :
    ((m.set p ch).channel q).owing = (m.channel q).owing := by
  apply set_channel_of (P := fun ch => ch.owing = (m.channel q).owing)
  · rintro rfl
    exact h
  · exact fun _ => rfl

/-- The original calls an operation leads to are performed, or asked of one
entry's thread. -/
theorem owing_of_sem (hm : Accounted m ann) {e : Env} {o : Op} {r : o.Res}
    (ho : m.sem t e o = some (r, m')) :
    m'.issuedCount = m.issuedCount ∧
      ∃ p n, (∀ q, (m'.channel q).owing = (m.channel q).owing + if q = p then n else 0) ∧
        m'.performedCount + n = m.performedCount + o.originals := by
  have hquiet : o.originals = 0 → m'.log = m.log →
      (∀ q, (m'.channel q).owing = (m.channel q).owing) →
      m'.issuedCount = m.issuedCount ∧
        ∃ p n, (∀ q, (m'.channel q).owing = (m.channel q).owing + if q = p then n else 0) ∧
          m'.performedCount + n = m.performedCount + o.originals := by
    intro hzero hlog hsame
    refine ⟨by rw [issuedCount, hlog, issuedCount], 0, 0, fun q => ?_, ?_⟩
    · rw [hsame, ite_self, Nat.add_zero]
    · rw [hzero, performedCount, hlog, performedCount]
  cases o with
  | CPART_send_to_thread args p =>
      obtain ⟨a, ha, rfl⟩ := sem_send ho
      obtain ⟨-, hrequest, rfl⟩ := Ipc.Exchange.send_to_thread_eq_some ha
      refine ⟨rfl, p, if performs args then 1 else 0, fun q => ?_, rfl⟩
      by_cases hqp : q = p
      · subst hqp
        simp [Channel.owing, hrequest, Nat.add_comm]
      · simp [hqp]
  | CPART_recv_from_thread p =>
      obtain ⟨a, ha, rfl⟩ := sem_recv ho
      obtain ⟨k, -, -, heq⟩ := Ipc.Exchange.recv_from_thread_eq_some ha
      apply hquiet rfl rfl
      intro q
      apply owing_set
      rw [(Prod.mk.inj heq).2]
      rfl
  | original c =>
      obtain ⟨-, hlog, hchannel, -⟩ := sem_original ho
      refine ⟨?_, 0, 0, fun q => ?_, ?_⟩
      · simp [issuedCount, hlog, LogEntry.isIssued]
      · rw [hchannel, ite_self, Nat.add_zero]
      · simp [performedCount, hlog, LogEntry.isPerformed, Op.originals]
  | fdtable_add =>
      apply hquiet rfl (log_of_sem ho fun c hc => by cases hc)
      intro q
      obtain ⟨-, -, hchannel⟩ | ⟨-, -, hchannel⟩ := sem_add ho
      · rw [hchannel]
      · rw [hchannel]
        by_cases hq : q = m.world.table.nextPtr
        · -- nobody knows the new entry, so nothing is under way there
          have hnobody : ∀ u fd, (ann u).entry = some (q, fd) → (ann u).talk ≠ .asked := by
            intro u fd hentry
            have hlt := hm.kept.lt _ (hm.kept.entry u q fd hentry)
            rw [hq] at hlt
            exact absurd hlt (Nat.lt_irrefl _)
          obtain ⟨hrequest, hphase, -⟩ := hm.talking.owes_nothing hnobody
          rw [hq, Function.update_self, ← hq]
          simp [Channel.owing, hrequest, hphase, Ipc.Exchange.init]
        · rw [Function.update_of_ne hq]
  | pthread_create tmp =>
      apply hquiet rfl (log_of_sem ho fun c hc => by cases hc)
      intro q
      have hchannel : m'.channel = (m.after t e (.pthread_create tmp) r).channel := by
        rw [(sem_plain rfl ho).2]
      rw [hchannel]
      cases tmp with
      | none => rfl
      | some p =>
          simp only [after]
          split
          · exact owing_set rfl
          · rfl
  | _ =>
      apply hquiet rfl (log_of_sem ho fun c hc => by cases hc)
      intro q
      rw [channel_of_sem ho rfl]

/-- What an entry's thread has before it, it performs. -/
theorem owing_of_serves (hm : Accounted m ann) {b : ThreadStep} (h : m.Serves b m') :
    m'.issuedCount = m.issuedCount ∧
      ∃ p, (∀ q, q ≠ p → (m'.channel q).owing = (m.channel q).owing) ∧
        m'.performedCount + (m'.channel p).owing = m.performedCount + (m.channel p).owing := by
  have hset : ∀ {p : Ptr} {ch : Channel Tid}, ch.owing = (m.channel p).owing →
      (m.set p ch).issuedCount = m.issuedCount ∧
        ∃ p', (∀ q, q ≠ p' → ((m.set p ch).channel q).owing = (m.channel q).owing) ∧
          (m.set p ch).performedCount + ((m.set p ch).channel p').owing =
            m.performedCount + (m.channel p').owing := by
    intro p ch heq
    refine ⟨rfl, p, fun q _ => owing_set heq, ?_⟩
    rw [owing_set heq]
    rfl
  cases h with
  | unfound => exact hset rfl
  | @start p _ _ hl =>
      apply hset
      simp [Channel.owing, hm.waiting p (.inr hl)]
  | recv_from_app hl hx =>
      obtain ⟨hphase, hrequest, rfl⟩ := Ipc.Exchange.recv_from_app_eq_some hx
      apply hset
      simp [Channel.owing, hphase, hrequest]
  | @switch p o hl a ha =>
      obtain ⟨hphase, rfl⟩ := Ipc.Exchange.produce_eq_some ha
      refine ⟨issuedCount_perform _ _ _, p, fun q hqp => ?_, ?_⟩
      · rw [perform_channel, set_channel, Function.update_of_ne hqp]
      · rw [performedCount_perform, perform_channel, set_channel, Function.update_self]
        simp [Channel.owing, performedCount, hphase, Nat.add_comm, Nat.add_left_comm]
  | send_to_app hl hx =>
      obtain ⟨r, hphase, hresponse, rfl⟩ := Ipc.Exchange.send_to_app_eq_some hx
      apply hset
      cases hrequest : (m.channel _).exchange.request with
      | false => simp [Channel.owing, hrequest, hphase]
      | true => simp [Channel.owing, hrequest, hphase, hm.performs_overwrite hrequest hphase]

/-! ## Runs -/

/-- `n` original calls are left in the text. -/
def Left (n : Nat) : Option (Syscall × Wrapper Word) → Prop
  | none => n = 0
  | some (_, p) => Performs n p

/-- The calls made are those performed, those the wrappers have before them
and those the entries' threads have. -/
def Balanced (s : State Tid) : Prop :=
  ∃ (calls : Tid →₀ Nat) (threads : Ptr →₀ Nat), (∀ t, Left (calls t) (s.thread t)) ∧
    (∀ p, (s.shared.channel p).owing = threads p) ∧
    s.shared.performedCount + total calls + total threads = s.shared.issuedCount

theorem left_update {calls : Tid →₀ Nat} {thread : Tid → Option (Syscall × Wrapper Word)}
    (hleft : ∀ t, Left (calls t) (thread t)) {x : Option (Syscall × Wrapper Word)} {n : Nat}
    (hx : Left n x) (u : Tid) :
    Left (calls.update t n u) (Function.update thread t x u) := by
  rw [Finsupp.coe_update]
  by_cases hut : u = t
  · subst hut
    simpa using hx
  · simpa [hut] using hleft u

/-- **One step** keeps the balance. -/
theorem Balanced.step {s s' : State Tid} {l : Label Tid} (hb : Balanced s)
    (hm : ∃ ann, Accounted s.shared ann) (hs : Machine.step s l = some s') : Balanced s' := by
  obtain ⟨calls, threads, hleft, howing, hsum⟩ := hb
  obtain ⟨ann, hm⟩ := hm
  obtain ⟨t, c, rfl, ht, rfl⟩ | ⟨t, e, c, a, rfl, ht, rfl⟩ |
    ⟨t, e, c, o, k, r, sh, rfl, ht, ho, rfl⟩ | ⟨b, sh, rfl, hb, rfl⟩ := Threads.openStep_cases hs
  · have hzero : calls t = 0 := by
      have hidle := hleft t
      rw [ht] at hidle
      exact hidle
    have htotal := total_update calls t 1
    refine ⟨calls.update t 1, threads, left_update hleft (wrapper_performs c), howing, ?_⟩
    simp only [enter, performedCount_write, issuedCount_write, LogEntry.isPerformed,
      LogEntry.isIssued]
    simp only [Bool.false_eq_true, if_false, if_true]
    omega
  · have hzero : calls t = 0 := by
      have hret := hleft t
      rw [ht] at hret
      exact hret
    have htotal := total_update calls t 0
    refine ⟨calls.update t 0, threads, left_update hleft rfl, howing, ?_⟩
    simp only [leave, performedCount_write, issuedCount_write, LogEntry.isPerformed,
      LogEntry.isIssued]
    simp only [Bool.false_eq_true, if_false]
    omega
  · have htext := hleft t
    rw [ht] at htext
    obtain ⟨n, hn, hrest⟩ := htext
    obtain ⟨hissued, p, n', hchannel, hperformed⟩ := owing_of_sem hm ho
    have hcalls := total_update calls t n
    have hthreads := total_update threads p (threads p + n')
    refine ⟨calls.update t n, threads.update p (threads p + n'), left_update hleft (hrest r),
      fun q => ?_, ?_⟩
    · rw [Finsupp.coe_update]
      show (sh.channel q).owing = _
      rw [hchannel q, howing q]
      by_cases hqp : q = p
      · rw [if_pos hqp, hqp, Function.update_self]
      · rw [if_neg hqp, Function.update_of_ne hqp, Nat.add_zero]
    · show sh.performedCount + _ + _ = sh.issuedCount
      omega
  · obtain ⟨hissued, p, hother, hperformed⟩ := owing_of_serves hm (serves_of_syscall_thread hb)
    have hthreads := total_update threads p (sh.channel p).owing
    have hp := howing p
    refine ⟨calls, threads.update p (sh.channel p).owing, hleft, fun q => ?_, ?_⟩
    · rw [Finsupp.coe_update]
      by_cases hqp : q = p
      · rw [hqp, Function.update_self]
      · rw [Function.update_of_ne hqp]
        exact (hother q hqp).trans (howing q)
    · show sh.performedCount + _ + _ = sh.issuedCount
      omega

omit [DecidableEq Tid] in
/-- Nothing has been called, and no entry's thread has anything to do. -/
theorem balanced_start {s₀ : State Tid} (hidle : ∀ t, s₀.thread t = none)
    (hlog : s₀.shared.log = []) (howing : ∀ p, (s₀.shared.channel p).owing = 0) :
    Balanced s₀ := by
  refine ⟨0, 0, fun t => ?_, howing, ?_⟩
  · rw [hidle t]
    rfl
  · simp [performedCount, issuedCount, hlog, total]

theorem balanced_of_start {guard : State Tid → Label Tid → Prop} {s₀ s : State Tid}
    (hidle : ∀ t, s₀.thread t = none) (hstart : Accounted s₀.shared fun _ => {})
    (hb : Balanced s₀) (h : Run.Reachable step guard s₀ s) : Balanced s := by
  have hboth : Run.Reachable step guard s₀ s ∧ Balanced s := by
    induction h with
    | refl => exact ⟨Relation.ReflTransGen.refl, hb⟩
    | tail _ hs ih =>
        obtain ⟨hreach, hb⟩ := ih
        obtain ⟨l, hg, hl⟩ := hs
        obtain ⟨ann, hm, -⟩ := accounted_of_start hidle hstart hreach
        exact ⟨hreach.tail ⟨l, hg, hl⟩, hb.step ⟨ann, hm⟩ hl⟩
  exact hboth.2

/-- No more original calls have been performed than calls made, and as many
when no call is in progress. -/
structure CallsMatch (s : State Tid) : Prop where
  le : s.shared.performedCount ≤ s.shared.issuedCount
  quiet : (∀ t, s.thread t = none) → s.shared.performedCount = s.shared.issuedCount

theorem callsMatch_of_start {guard : State Tid → Label Tid → Prop} {s₀ s : State Tid}
    (hidle : ∀ t, s₀.thread t = none) (hstart : Accounted s₀.shared fun _ => {})
    (hb : Balanced s₀) (h : Run.Reachable step guard s₀ s) : CallsMatch s := by
  obtain ⟨calls, threads, hleft, howing, hsum⟩ := balanced_of_start hidle hstart hb h
  refine ⟨by omega, fun hquiet => ?_⟩
  obtain ⟨ann, hm, hann⟩ := accounted_of_start hidle hstart h
  have hcalls : calls = 0 := by
    ext t
    have hidle := hleft t
    rw [hquiet t] at hidle
    exact hidle
  have hthreads : threads = 0 := by
    ext p
    have hnobody : ∀ t fd, (ann t).entry = some (p, fd) → (ann t).talk ≠ .asked := by
      intro t fd hentry
      have hidle := hann t
      rw [hquiet t] at hidle
      rw [show ann t = {} from hidle] at hentry
      cases hentry
    obtain ⟨hrequest, hphase, -⟩ := hm.talking.owes_nothing hnobody
    rw [← howing p]
    simp [Channel.owing, hrequest, hphase]
  rw [hcalls, hthreads] at hsum
  exact hsum

/-- **As many original calls as calls**, in every run, whatever fails and
however the threads interleave: the process never performs more original
calls than the application has made calls, and just as many when no call is
in progress. Where threads race on a descriptor it need not be the same
calls: one can be performed twice in the place of another. -/
theorem originals_match_calls {guard : State Tid → Label Tid → Prop} {s : State Tid}
    (h : Run.Reachable step guard init s) :
    s.shared.performedCount ≤ s.shared.issuedCount ∧
      ((∀ t, s.thread t = none) → s.shared.performedCount = s.shared.issuedCount) := by
  have hmatch := callsMatch_of_start (fun _ => rfl) accounted_init
    (balanced_start (fun _ => rfl) rfl fun _ => rfl) h
  exact ⟨hmatch.le, hmatch.quiet⟩

/-- A request overwritten: `listen` is made while the thread serves `recv`, and
`recv` is performed again in its place, on the descriptor that is the first
one's result. -/
theorem originals_match_overwritten :
    ∃ s : State Bool, Run.Reachable step Run.free init s ∧ (∀ t, s.thread t = none) ∧
      s.shared.log.filter LogEntry.isPerformed =
        [.performed (some true) (.socket 2 1 0) 7, .performed none (.recv 7 0 0 0) 3,
          .performed none (.recv 3 0 0 0) 4] ∧
      s.shared.performedCount = s.shared.issuedCount := by
  have hrun : ((Run.exec step Run.free init
      (oneSocket ++ calls true (.recv 7 0 0 0) 4 {} ++ [.inr (.recv_from_app 1)]
        ++ calls false (.listen 7 5) 4 {} ++ [.inr (.switch 1 ⟨3, 0⟩), .inr (.send_to_app 1)]
        ++ List.replicate 4 (.inl (.step true {}))
        ++ [.inr (.recv_from_app 1), .inr (.switch 1 ⟨4, 0⟩), .inr (.send_to_app 1)]
        ++ List.replicate 4 (.inl (.step false {})))).map fun s =>
        ((s.thread true).isNone && (s.thread false).isNone,
          s.shared.log.filter LogEntry.isPerformed)) =
      some (true, [.performed (some true) (.socket 2 1 0) 7, .performed none (.recv 7 0 0 0) 3,
        .performed none (.recv 3 0 0 0) 4]) := by
    rfl
  obtain ⟨s, hs, hproj⟩ := Option.map_eq_some_iff.mp hrun
  simp only [Prod.mk.injEq, Bool.and_eq_true, Option.isNone_iff_eq_none] at hproj
  obtain ⟨⟨htrue, hfalse⟩, hlog⟩ := hproj
  have hquiet : ∀ t, s.thread t = none := fun t => by cases t <;> assumption
  have hreach := Run.reachable_of_exec hs
  exact ⟨s, hreach, hquiet, hlog, (originals_match_calls hreach).2 hquiet⟩

end Machine

end CorePartitioning.Preload
