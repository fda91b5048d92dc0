import CorePartitioning.Preload.Carried
import CorePartitioning.Preload.LockWait

/-!
# ld_preload.c — requests go to threads that serve

A `syscall_thread` is created for an entry that is in the table, finds the
entry by its own id and stays in its loop until a request tells it to
leave. Such a request is sent by `close` and `shutdown` only, and they hold
the table for writing from the lookup to the removal of the entry: nobody
sees an entry whose thread is about to leave.

The other end of its life is different. `accept` and `epoll_create` insert
under the read lock and name the entry before they create its thread; a
reader can find it in between.
-/

namespace CorePartitioning.Preload

namespace Machine

variable {Tid : Type} [DecidableEq Tid] {m m' : Machine Tid} {ann : Tid → Ann} {t : Tid}

/-! ## The assumptions -/

/-- The outside world creates every thread it is asked for and never gives
descriptor 0. -/
def Grants (e : Env) : Op → Prop
  | .pthread_create _ => e.created = 0
  | .original c => c.creates = true → e.result.setWidth 32 ≠ (0 : CInt)
  | _ => True

/-- A delegated call finds no entry without a thread. -/
def FindsThread (m : Machine Tid) : Op → Prop
  | .fdtable_get_by_fd fd k =>
      ∀ x ∈ fdtable_get_by_fd m.world.table fd k, (m.channel x.ptr).life ≠ .absent
  | _ => True

instance (e : Env) (o : Op) : Decidable (Grants e o) :=
  match o with
  | .pthread_create _ => inferInstanceAs (Decidable (_ = _))
  | .original _ => inferInstanceAs (Decidable (_ → _))
  | .errno | .set_errno _ | .pthread_rwlock _ | .fdtable_get_by_fd_all _ | .fdtable_get_by_fd _ _
  | .fdtable_getnumber | .fdtable_add | .fdtable_delete _ | .set_NetorFile _ _ | .set_pid _
  | .set_thr_fd _ _ | .pthread_join _ | .CPART_send_to_thread _ _ | .CPART_recv_from_thread _ =>
      inferInstanceAs (Decidable True)

instance (m : Machine Tid) (o : Op) : Decidable (m.FindsThread o) :=
  match o with
  | .fdtable_get_by_fd _ _ => inferInstanceAs (Decidable (∀ x ∈ _, _))
  | .errno | .set_errno _ | .pthread_rwlock _ | .fdtable_get_by_fd_all _ | .fdtable_getnumber
  | .fdtable_add | .fdtable_delete _ | .set_NetorFile _ _ | .set_pid _ | .set_thr_fd _ _
  | .pthread_create _ | .pthread_join _ | .CPART_send_to_thread _ _ | .CPART_recv_from_thread _
  | .original _ => inferInstanceAs (Decidable True)

/-! ## The invariant -/

open Ipc (Continues)

/-- The thread of each entry is missing only while the entry's creator owes
it, and on its way out only while a writer ends it. -/
structure Manned (m : Machine Tid) (ann : Tid → Ann) : Prop extends Tended m ann where
  passable : Passable m.world.table
  fresh : ∀ t, (ann t).fresh ≠ some 0
  pid : ∀ x ∈ m.world.table.entries, x.pid = m.world.pid
  thread : ∀ x ∈ m.world.table.entries, (m.channel x.ptr).life ≠ .absent →
    x.p_thread = (m.channel x.ptr).thread
  absent : ∀ p ∈ m.world.table.ptrs, (m.channel p).life = .absent → ∃ t, (ann t).Owes p
  left : ∀ p ∈ m.world.table.ptrs, (m.channel p).life = .left → ∃ t, (ann t).Ends p
  continues : Carried Continues m ann

/-- The thread of each entry is where its entry's calls need it: no call has
found an entry without a thread. -/
structure Attended (m : Machine Tid) (ann : Tid → Ann) : Prop extends Manned m ann where
  found : ∀ t p fd, (ann t).entry = some (p, fd) → (ann t).talk = .found →
    (m.channel p).life ≠ .absent

omit [DecidableEq Tid] in
/-- The thread stays in its loop. -/
theorem Carries.not_ends {ch : Channel Tid} (h : Carries Continues ch)
    (hphase : ch.exchange.phase ≠ .waiting) : ch.ends = false := by
  have hc := h.send_data hphase
  simp only [Channel.ends, Bool.or_eq_false_iff, Bool.and_eq_false_iff]
  exact ⟨hc.not_isOneOf (by simp), .inl (hc.not_isOneOf (by simp))⟩

namespace Manned

section Sem

variable {e : Env} {o : Op} {r : o.Res} (ha : Manned m ann) (hp : (ann t).pre o)
  (ho : m.sem t e o = some (r, m'))
include ha ho

theorem thread_sem (x' : ThreadInfo) (hx' : x' ∈ m'.world.table.entries)
    (hlife : (m'.channel x'.ptr).life ≠ .absent) :
    x'.p_thread = (m'.channel x'.ptr).thread := by
  obtain ⟨recv_data, hw⟩ := sem_world ho
  obtain ⟨rfl, rfl⟩ | ⟨x, hx, horigin⟩ := (sem_change hw).origin hx'
  · -- a new entry has no thread
    obtain hmem | ⟨hnew, -⟩ := ptrs_sem ann ho (FdTable.mem_ptrs.mpr ⟨_, hx', rfl⟩)
    · exact absurd (ha.kept.lt _ hmem) (Nat.lt_irrefl _)
    · rw [hnew] at hlife
      exact absurd rfl hlife
  · have hmem : x.ptr ∈ m.world.table.ptrs := FdTable.mem_ptrs.mpr ⟨x, hx, rfl⟩
    have hptr : x'.ptr = x.ptr := by
      obtain ⟨rfl, -⟩ | ⟨f, hf, rfl⟩ := horigin
      · rfl
      · cases hf <;> rfl
    rw [hptr] at hlife ⊢
    obtain ⟨hsame, hthread, -, hne⟩ | ⟨-, hnext, -⟩ | ⟨rfl, hcreated, -, hthread, -⟩ :=
      life_of_sem ho x.ptr
    · rw [hthread]
      rw [hsame] at hlife
      obtain ⟨rfl, -⟩ | ⟨f, hf, rfl⟩ := horigin
      · exact ha.thread _ hx hlife
      · cases hf with
        | p_thread tmp hcreated => exact absurd hcreated (hne rfl)
        | _ => exact ha.thread x hx hlife
    · exact absurd (ha.kept.lt _ hmem) (by rw [hnext]; exact Nat.lt_irrefl _)
    · rw [hthread]
      obtain rfl : r = e.created := result_of_create (sem_plain rfl ho).1
      obtain ⟨-, hno⟩ | ⟨f, hf, rfl⟩ := horigin
      · exact absurd (.p_thread (some x.ptr) hcreated) (hno _)
      · cases hf
        rfl

include hp

theorem absent_sem (hgrants : Grants e o) (p : Ptr) (hmem : p ∈ m'.world.table.ptrs)
    (habsent : (m'.channel p).life = .absent) :
    ∃ u, (Function.update ann t ((ann t).next o r) u).Owes p := by
  obtain hold | ⟨-, howes⟩ := ptrs_sem ann (t := t) ho hmem
  · obtain ⟨hsame, hne⟩ | hcreated := ha.toTended.life_sem ho hold
    · rw [hsame] at habsent
      obtain ⟨u, howes⟩ := ha.absent p hold habsent
      refine ⟨u, ?_⟩
      by_cases hut : u = t
      · subst hut
        rw [Function.update_self]
        obtain hnext | rfl := howes.next hp r
        · exact hnext
        · exact absurd hgrants (hne rfl)
      · rwa [Function.update_of_ne hut]
    · rw [hcreated] at habsent
      cases habsent
  · refine ⟨t, ?_⟩
    rwa [Function.update_self]

theorem left_sem (p : Ptr) (hmem : p ∈ m'.world.table.ptrs)
    (hleft : (m'.channel p).life = .left) :
    ∃ u, (Function.update ann t ((ann t).next o r) u).Ends p := by
  obtain hold | ⟨hnew, -⟩ := ptrs_sem ann (t := t) ho hmem
  · obtain ⟨hsame, -⟩ | hcreated := ha.toTended.life_sem ho hold
    · rw [hsame] at hleft
      exact ha.toTended.ends_sem hp ho hmem (ha.left p hold hleft)
    · rw [hcreated] at hleft
      cases hleft
  · rw [hnew] at hleft
    cases hleft

/-- **One operation of an application thread.** -/
theorem sem (hgrants : Grants e o) : Manned m' (Function.update ann t ((ann t).next o r)) := by
  obtain ⟨recv_data, hw⟩ := sem_world ho
  have hpid := sem_pid hw
  refine
    { toTended := ha.toTended.sem hp ho
      passable := ha.passable.change (sem_change hw) ?_
      fresh := fun u => ?_
      pid := ?_
      thread := ha.thread_sem ho
      absent := ha.absent_sem hp ho hgrants
      left := ha.left_sem hp ho
      continues := ha.continues.sem ha.toTended hp ho ?_ }
  · rintro tmp fd rfl
    refine ⟨hp.nonneg, ?_⟩
    rintro rfl
    exact ha.fresh t hp.fresh
  · by_cases hut : u = t
    · subst hut
      rw [Function.update_self]
      refine Ann.fresh_next (ha.fresh u) ?_
      rintro c w ⟨⟩ hcreates
      have hresult : e.result = w := (Prod.mk.inj (Option.some.inj hw)).1
      rw [← hresult]
      exact hgrants hcreates
    · rw [Function.update_of_ne hut]
      exact ha.fresh u
  · rw [hpid]
    refine (sem_change hw).forall ha.pid rfl ?_
    intro tmp f x hf hx hold
    cases hf with
    | pid => rfl
    | _ => exact hold
  · rintro args q c fd - hask hterm
    rw [hask.args]
    apply Ipc.continues_send_data <;> (intros; rintro rfl; cases hterm)

end Sem

/-- A new thread finds its entry. -/
theorem get_by_tid (ha : Manned m ann) {p : Ptr} (hp : p ∈ m.world.table.ptrs)
    (hl : (m.channel p).life = .created) :
    fdtable_get_by_tid m.world.table (m.channel p).thread ≠ none := by
  obtain ⟨x, hx, rfl⟩ := FdTable.mem_ptrs.mp hp
  have hthread := ha.thread x hx (by rw [hl]; nofun)
  rw [fdtable_get_by_tid, fdtable_search_eq_find? ha.passable, Ne, List.find?_eq_none]
  intro hnone
  exact hnone x hx (by simp [hthread])

theorem left_serves {b : ThreadStep} (ha : Manned m ann) (h : m.Serves b m') (q : Ptr)
    (hq : q ∈ m.world.table.ptrs) (hleft : (m'.channel q).life = .left) :
    ∃ t, (ann t).Ends q := by
  have hset : ∀ {p : Ptr} {ch : Channel Tid},
      (p ∈ m.world.table.ptrs → ch.life = .left → ∃ t, (ann t).Ends p) →
      ((m.set p ch).channel q).life = .left → ∃ t, (ann t).Ends q := by
    intro p ch hp
    apply set_channel_of (P := fun ch => ch.life = .left → ∃ t, (ann t).Ends q)
    · rintro rfl
      exact hp hq
    · exact fun _ => ha.left q hq
  cases h with
  | unfound _ _ hl hs =>
      refine hset (fun hp _ => ?_) hleft
      exact absurd hs (ha.get_by_tid hp hl)
  | start _ _ hl hs =>
      -- an entry of this process
      refine hset (fun _ hl' => ?_) hleft
      rw [if_pos (ha.pid _ (fdtable_search_mem hs).1)] at hl'
      cases hl'
  | recv_from_app hl =>
      refine hset (fun _ hl' => ?_) hleft
      rw [hl] at hl'
      cases hl'
  | switch o hl =>
      rw [perform_channel] at hleft
      refine hset (fun _ hl' => ?_) hleft
      rw [hl] at hl'
      cases hl'
  | send_to_app hl hx =>
      refine hset (fun hp hl' => ?_) hleft
      obtain he | hcarries := ha.continues _ hp
      · exact he
      · obtain ⟨r, hr, -, -⟩ := Ipc.Exchange.send_to_app_eq_some hx
        rw [hcarries.not_ends (by rw [hr]; nofun)] at hl'
        cases hl'

/-- **One step of an entry's thread.** -/
theorem serves {b : ThreadStep} (ha : Manned m ann) (h : m.Serves b m') : Manned m' ann := by
  have hworld := h.world
  refine ⟨ha.toTended.serves h, ?_, ha.fresh, ?_, ?_, ?_, ?_, ha.continues.serves ha.toTended h⟩
    <;> try rw [hworld]
  · exact ha.passable
  · exact ha.pid
  · intro x hx hlife
    rw [(h.life x.ptr).1]
    exact ha.thread x hx fun habsent => hlife ((h.life x.ptr).2.mpr habsent)
  · intro p hp habsent
    exact ha.absent p hp ((h.life p).2.mp habsent)
  · exact ha.left_serves h

/-- A thread enters or leaves a wrapper. -/
theorem update (ha : Manned m ann) {h : Ann} (hheld : Held m.world.lock (Function.update ann t h))
    (ht : (ann t).Quiet) (hq : h.Quiet) (hfresh : h.fresh = none) :
    Manned m (Function.update ann t h) := by
  have hother : ∀ (P : Ann → Prop), ¬ P (ann t) → ∀ u, P (ann u) →
      P (Function.update ann t h u) := by
    intro P hP u hu
    have hut : u ≠ t := by
      rintro rfl
      exact hP hu
    rwa [Function.update_of_ne hut]
  have hends : ∀ p, ¬ (ann t).Ends p := fun p he => ht.mode_ne he.mode
  have howes : ∀ p, ¬ (ann t).Owes p := by
    intro p ho
    have hnone := ht.tmp
    rw [ho.tmp] at hnone
    cases hnone
  refine
    { toTended := ha.toTended.update hheld hq
      passable := ha.passable
      fresh := ?_
      pid := ha.pid
      thread := ha.thread
      absent := ?_
      left := ?_
      continues := ha.continues.update ht }
  · intro u
    by_cases hut : u = t
    · rw [hut, Function.update_self, hfresh]
      nofun
    · rw [Function.update_of_ne hut]
      exact ha.fresh u
  · intro p hp habsent
    obtain ⟨u, hu⟩ := ha.absent p hp habsent
    exact ⟨u, hother (·.Owes p) (howes p) u hu⟩
  · intro p hp hleft
    obtain ⟨u, hu⟩ := ha.left p hp hleft
    exact ⟨u, hother (·.Ends p) (hends p) u hu⟩

/-- What is recorded does not matter. -/
theorem write (ha : Manned m ann) (x : LogEntry Tid) : Manned (m.write x) ann :=
  { ha with }

end Manned

namespace Attended

/-- Under a thread that ends the entry's thread nobody else knows the entry. -/
theorem alive (ha : Attended m ann) {p : Ptr} {fd : CInt} (hentry : (ann t).entry = some (p, fd))
    (htalk : (ann t).talk = .found) :
    (m.channel p).life ≠ .absent ∧ (∀ u, ¬ (ann u).Ends p) := by
  refine ⟨ha.found t p fd hentry htalk, fun u he => ?_⟩
  have hmode : (ann t).mode ≠ .none := (ha.held.coherent t).mode (by rw [hentry]; nofun)
  have htu := ha.held.eq_of_write he.mode hmode
  rw [htu] at htalk
  exact he.talk htalk

section Sem

variable {e : Env} {o : Op} {r : o.Res} (ha : Attended m ann) (hp : (ann t).pre o)
  (ho : m.sem t e o = some (r, m'))
include ha ho hp

theorem found_sem (hfinds : m.FindsThread o) (u : Tid) (p : Ptr) (fd : CInt)
    (hentry : (Function.update ann t ((ann t).next o r) u).entry = some (p, fd))
    (htalk : (Function.update ann t ((ann t).next o r) u).talk = .found) :
    (m'.channel p).life ≠ .absent := by
  obtain ⟨recv_data, hw⟩ := sem_world ho
  -- what matters is the life of the thread before
  suffices hlife : (m.channel p).life ≠ .absent by
    obtain ⟨hsame, -⟩ | hcreated := ha.toTended.life_sem ho (ha.kept.entry_sem hw hentry)
    · rwa [hsame]
    · rw [hcreated]
      nofun
  by_cases hut : u = t
  · subst hut
    rw [Function.update_self] at hentry htalk
    obtain ⟨hold, hfound⟩ | ⟨k, rfl, x, hx, rfl⟩ | ⟨rfl, hmode, x, hx, rfl⟩ :=
      entry_of_sem hw hentry
    · exact ha.found u p fd hold (hfound htalk)
    · exact hfinds x hx
    · -- under the write hold no entry lacks its thread
      intro habsent
      obtain ⟨v, howes⟩ := ha.absent x.ptr
        (FdTable.mem_ptrs.mpr ⟨x, (fdtable_search_mem hx).1, rfl⟩) habsent
      by_cases huv : v = u
      · subst huv
        have hnone := Ann.MayLookup.tmp hp
        rw [howes.tmp] at hnone
        cases hnone
      · have hnone := (ha.held.alone hmode huv).2.2
        rw [howes.tmp] at hnone
        cases hnone
  · rw [Function.update_of_ne hut] at hentry htalk
    exact ha.found u p fd hentry htalk

/-- One operation of an application thread. -/
theorem sem (hgrants : Grants e o) (hfinds : m.FindsThread o) :
    Attended m' (Function.update ann t ((ann t).next o r)) :=
  ⟨ha.toManned.sem hp ho hgrants, ha.found_sem hp ho hfinds⟩

end Sem

/-- One step of an entry's thread. -/
theorem serves {b : ThreadStep} (ha : Attended m ann) (h : m.Serves b m') : Attended m' ann :=
  ⟨ha.toManned.serves h, fun t p fd hentry htalk habsent =>
    ha.found t p fd hentry htalk ((h.life p).2.mp habsent)⟩

/-- A thread enters or leaves a wrapper. -/
theorem update (ha : Attended m ann) {h : Ann} (hheld : Held m.world.lock (Function.update ann t h))
    (ht : (ann t).Quiet) (hq : h.Quiet) (hfresh : h.fresh = none) :
    Attended m (Function.update ann t h) := by
  refine ⟨ha.toManned.update hheld ht hq hfresh, ?_⟩
  intro u p fd hentry htalk
  by_cases hut : u = t
  · rw [hut, Function.update_self, hq.entry] at hentry
    cases hentry
  · rw [Function.update_of_ne hut] at hentry htalk
    exact ha.found u p fd hentry htalk

/-- What is recorded does not matter. -/
theorem write (ha : Attended m ann) (x : LogEntry Tid) : Attended (m.write x) ann :=
  { ha with }

end Attended

omit [DecidableEq Tid] in
theorem manned_init [DecidableEq Tid] : Manned ({} : Machine Tid) fun _ => {} where
  toTended := tended_init
  passable := nofun
  fresh := nofun
  pid := nofun
  thread := nofun
  absent := nofun
  left := nofun
  continues := carried_init

omit [DecidableEq Tid] in
theorem attended_init [DecidableEq Tid] : Attended ({} : Machine Tid) fun _ => {} :=
  ⟨manned_init, nofun⟩

/-! ## Runs -/

/-- Threads are created and descriptor 0 is not given. -/
def Granted (s : State Tid) : Label Tid → Prop
  | .inl (.step t e) => ∀ o ∈ nextOp (s.thread t), Grants e o
  | _ => True

/-- No delegated call's lookup finds an entry without a thread: one that
`accept` or `epoll_create` is still inserting. -/
def NoEarlyLookup (s : State Tid) : Label Tid → Prop
  | .inl (.step t _) => ∀ o ∈ nextOp (s.thread t), s.shared.FindsThread o
  | _ => True

instance (s : State Tid) (l : Label Tid) : Decidable (Granted s l) :=
  match l with
  | .inl (.step _ _) => inferInstanceAs (Decidable (∀ o ∈ _, _))
  | .inl (.call _ _) | .inr _ => inferInstanceAs (Decidable True)

instance (s : State Tid) (l : Label Tid) : Decidable (NoEarlyLookup s l) :=
  match l with
  | .inl (.step _ _) => inferInstanceAs (Decidable (∀ o ∈ _, _))
  | .inl (.call _ _) | .inr _ => inferInstanceAs (Decidable True)

/-- The operation is to send a request to the entry at `p`. -/
def sends (p : Ptr) : Op → Bool
  | .CPART_send_to_thread _ q => q == p
  | _ => false

/-- A request whose sending comes next goes to an entry in the table, whose
thread has been created and is not out of its loop, and which has not been
sent a request to leave. -/
def RequestsToLive (s : State Tid) : Prop :=
  ∀ t p, (nextOp (s.thread t)).any (sends p) = true →
    p ∈ s.shared.world.table.ptrs ∧
      ((s.shared.channel p).life = .created ∨ (s.shared.channel p).life = .running) ∧
      ∀ a ∈ (s.shared.channel p).exchange.hist.sent,
        isOneOf a.request_type [.TYPE_CLOSE, .TYPE_SHUTDOWN] = false

theorem attended_of_reachable {s : State Tid}
    (h : Run.Reachable step (fun s l => Granted s l ∧ NoEarlyLookup s l) init s) :
    ∃ ann, Attended s.shared ann ∧ ∀ t, Threads.Outlined Ann.next (fun _ _ _ _ => True)
      (fun c h o => h.pre o ∧ h.call = some c) (fun c h a => h.post a ∧ h.call = some c) {}
      (ann t) (s.thread t) := by
  refine Threads.outlined_of_reachable ({} : Ann) h wrapper_outline (fun _ => rfl) attended_init
    ?_ ?_ ?_ ?_
  · intro s ann t c ha ht _ _
    have hidle : (ann t).Quiet := by
      rw [ht]
      exact ⟨.inl rfl, rfl, rfl, rfl⟩
    exact (ha.update (ha.held.start ht c) hidle ⟨.inl rfl, rfl, rfl, rfl⟩ rfl).write _
  · intro s ann t e c a ha _ _ hpost
    have hq := hpost.1.1
    exact (ha.update (ha.held.idle hq) hq ⟨.inl rfl, rfl, rfl, rfl⟩ rfl).write _
  · intro s ann t e c o k r sh ha ht hg hpre ho
    have hop : nextOp (s.thread t) = some o := by rw [ht]; rfl
    exact ⟨trivial, ha.sem hpre.1 ho (hg.1 o hop) (hg.2 o hop)⟩
  · intro s ann b sh ha _ hb
    exact ha.serves (serves_of_syscall_thread hb)

/-- **Requests go to live threads**, in every run in which no delegated call
finds an entry before its thread has been created, for any number of
threads. -/
theorem requests_to_live_of_no_early_lookup {s : State Tid}
    (h : Run.Reachable step (fun s l => Granted s l ∧ NoEarlyLookup s l) init s) :
    RequestsToLive s := by
  obtain ⟨ann, ha, hann⟩ := attended_of_reachable h
  intro t p hop
  -- the annotation of the thread says what it found
  have hask : ∃ args c fd, (ann t).MayAsk args p c fd := by
    have htext := hann t
    obtain ⟨o, ho, hsends⟩ := (Option.any_eq_true _ _).mp hop
    cases hthread : s.thread t with
    | none =>
        rw [hthread] at ho
        cases ho
    | some x =>
        obtain ⟨c, q⟩ := x
        rw [hthread] at ho htext
        cases q with
        | ret a => cases ho
        | op o' k =>
            cases ho
            cases o with
            | CPART_send_to_thread args q =>
                obtain rfl : q = p := by simpa [sends] using hsends
                exact ⟨args, htext.1.1⟩
            | _ => cases hsends
  obtain ⟨args, c, fd, hask⟩ := hask
  have hmem := ha.kept.entry t p fd hask.entry
  obtain ⟨habsent, hends⟩ := ha.alive hask.entry hask.talk
  refine ⟨hmem, ?_, fun a hsent => ?_⟩
  · have hleft : (s.shared.channel p).life ≠ .left := by
      intro hleft
      obtain ⟨u, he⟩ := ha.left p hmem hleft
      exact hends u he
    cases hlife : (s.shared.channel p).life with
    | absent => exact absurd hlife habsent
    | created => exact .inl rfl
    | running => exact .inr rfl
    | left => exact absurd hlife hleft
  · obtain ⟨u, he⟩ | hcarries := ha.continues p hmem
    · exact absurd he (hends u)
    · exact (hcarries.sent a hsent).not_isOneOf (by simp)

/-- `recv` on a socket, about to send its request. -/
theorem requests_to_live_of_recv :
    ∃ s : State Bool, Run.Reachable step (fun s l => Granted s l ∧ NoEarlyLookup s l) init s ∧
      (nextOp (s.thread true)).any (sends 1) = true ∧ RequestsToLive s := by
  have hrun : ((Run.exec step (fun s l => Granted s l ∧ NoEarlyLookup s l) init
      (oneSocket ++ calls true (.recv 7 0 0 0) 3 {})).map fun s =>
        (nextOp (s.thread true)).any (sends 1)) = some true := by
    decide
  obtain ⟨s, hs, hsends⟩ := Option.map_eq_some_iff.mp hrun
  have hreach := Run.reachable_of_exec hs
  exact ⟨s, hreach, hsends, requests_to_live_of_no_early_lookup hreach⟩

/-- `accept` has got descriptor 9 and named its entry; another thread's
`recv(9)` finds the entry and is about to send to a thread that does not
exist. -/
theorem request_to_unborn :
    ¬ ∀ s : State Bool, Run.Reachable step Granted init s → RequestsToLive s := by
  intro h
  have hrun : ((Run.exec step Granted init
      (oneSocket ++ calls true (.accept 7 0 0) 3 {}
        ++ [.inr (.recv_from_app 1), .inr (.switch 1 ⟨9, 0⟩), .inr (.send_to_app 1)]
        ++ List.replicate 6 (.inl (.step true {})) ++ calls false (.recv 9 0 0 0) 3 {})).map
      fun s => ((nextOp (s.thread false)).any (sends 2), (s.shared.channel 2).life)) =
      some (true, .absent) := by
    decide
  obtain ⟨s, hs, hproj⟩ := Option.map_eq_some_iff.mp hrun
  simp only [Prod.mk.injEq] at hproj
  obtain ⟨hsends, habsent⟩ := hproj
  obtain ⟨-, hlife, -⟩ := h s (Run.reachable_of_exec hs) false 2 hsends
  rw [habsent] at hlife
  rcases hlife with hlife | hlife <;> cases hlife

end Machine

end CorePartitioning.Preload
