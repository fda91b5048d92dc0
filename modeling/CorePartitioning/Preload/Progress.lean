import CorePartitioning.Preload.PointerSafety

/-!
# ld_preload.c — nobody waits for ever

A wrapper waits for the lock, for a free slot, for a response or for the end
of a thread. As long as some thread is inside a wrapper somebody can make a
step: whoever holds the lock is inside a wrapper and waits for an entry's
thread, never for the lock; an entry whose thread does not exist yet has a
creator that does not wait at all; a slot that is not free has somebody to
empty it.

The assumptions are about the outside world: allocations and threads are
granted, a new thread's id is not in use. One is about the code: no call
takes the lock for reading a second time, as `epoll_create` does when it
should unlock. A call that did so could return and keep the lock.
-/

namespace CorePartitioning.Preload

open RwLock (Hold)

namespace Machine

variable {Tid : Type} [DecidableEq Tid] {m m' : Machine Tid} {t : Tid}

/-! ## The assumptions -/

/-- Memory is there, and the new thread's id is not that of another one. -/
def Supplies (m : Machine Tid) (e : Env) : Op → Prop
  | .fdtable_add => e.calloc = true
  | .pthread_create _ =>
      e.thread ≠ 0 ∧ ∀ x ∈ m.world.table.entries, x.p_thread ≠ e.thread
  | _ => True

/-- A thread that locks for reading holds nothing for reading. -/
def LocksOnce (m : Machine Tid) (t : Tid) : Op → Prop
  | .pthread_rwlock .rdlock => (holds m.world t).reads = 0
  | _ => True

/-- The steps of all assumptions. -/
def Assumed (s : State Tid) : Label Tid → Prop
  | .inl (.step t e) => ∀ o ∈ nextOp (s.thread t),
      Grants e o ∧ s.shared.Supplies e o ∧ s.shared.LocksOnce t o
  | _ => True

instance (m : Machine Tid) (e : Env) (o : Op) : Decidable (m.Supplies e o) :=
  match o with
  | .fdtable_add => inferInstanceAs (Decidable (_ = _))
  | .pthread_create _ => inferInstanceAs (Decidable (_ ∧ _))
  | .errno | .set_errno _ | .pthread_rwlock _ | .fdtable_get_by_fd_all _ | .fdtable_get_by_fd _ _
  | .fdtable_getnumber | .fdtable_delete _ | .set_NetorFile _ _ | .set_pid _ | .set_thr_fd _ _
  | .pthread_join _ | .CPART_send_to_thread _ _ | .CPART_recv_from_thread _ | .original _ =>
      inferInstanceAs (Decidable True)

instance (m : Machine Tid) (t : Tid) (o : Op) : Decidable (m.LocksOnce t o) :=
  match o with
  | .pthread_rwlock .rdlock => inferInstanceAs (Decidable (_ = _))
  | .pthread_rwlock .wrlock | .pthread_rwlock .unlock | .errno | .set_errno _
  | .fdtable_get_by_fd_all _ | .fdtable_get_by_fd _ _ | .fdtable_getnumber | .fdtable_add
  | .fdtable_delete _ | .set_NetorFile _ _ | .set_pid _ | .set_thr_fd _ _ | .pthread_create _
  | .pthread_join _ | .CPART_send_to_thread _ _ | .CPART_recv_from_thread _ | .original _ =>
      inferInstanceAs (Decidable True)

instance (s : State Tid) (l : Label Tid) : Decidable (Assumed s l) :=
  match l with
  | .inl (.step _ _) => inferInstanceAs (Decidable (∀ o ∈ _, _))
  | .inl (.call _ _) | .inr _ => inferInstanceAs (Decidable True)

/-! ## Read holds -/

/-- A thread has at most one read hold, and knows of it. -/
def ReadsOnce (l : RwLock Tid) (ann : Tid → Ann) : Prop :=
  ∀ t, (l.hold t).reads = if (ann t).mode = .read then 1 else 0

theorem ReadsOnce.sem {ann : Tid → Ann} (hr : ReadsOnce m.world.lock ann)
    (hl : Locked m.world.lock ann) {w' : World Tid} {e : Env} {o : Op} {r : o.Res}
    (hp : (ann t).pre o) (hlocks : m.LocksOnce t o)
    (ho : Preload.sem t e m.world o = some (r, w')) :
    ReadsOnce w'.lock (Function.update ann t ((ann t).next o r)) := by
  intro u
  obtain ⟨x, rfl, hx⟩ | ⟨hno, hlock⟩ := sem_lock ho
  · by_cases hut : u = t
    · subst hut
      rw [Function.update_self, RwLock.hold_step hx]
      have hu := hr u
      cases x with
      | rdlock =>
          have hzero : (m.world.lock.hold u).reads = 0 := hlocks
          simp [Ann.next, Hold.step, hzero]
      | wrlock =>
          have hnone : (ann u).mode = .none := hp
          simpa [Ann.next, Hold.step, hnone] using hu
      | unlock =>
          simp only [Ann.next, Hold.step]
          by_cases hw : (m.world.lock.hold u).write = true
          · rw [if_pos hw]
            simpa [(hl.write u).mp hw] using hu
          · rw [if_neg hw]
            split at hu <;> simp [hu]
    · rw [Function.update_of_ne hut, RwLock.hold_step_other hut hx]
      exact hr u
  · rw [hlock]
    have hmode : ((ann t).next o r).mode = (ann t).mode := by
      refine Ann.next_mode ?_ r
      rintro x rfl
      have hx := hno ⟨1, false⟩
      cases x <;> cases hx
    by_cases hut : u = t
    · subst hut
      rw [Function.update_self, hmode]
      exact hr u
    · rw [Function.update_of_ne hut]
      exact hr u

/-- Another annotation with the same mode. -/
theorem ReadsOnce.update {l : RwLock Tid} {ann : Tid → Ann} (hr : ReadsOnce l ann) {h : Ann}
    (hm : h.mode = (ann t).mode) : ReadsOnce l (Function.update ann t h) := by
  intro u
  by_cases hut : u = t
  · subst hut
    rw [Function.update_self, hm]
    exact hr u
  · rw [Function.update_of_ne hut]
    exact hr u

/-! ## Thread ids -/

/-- The threads of different entries have different ids. -/
structure Identified (m : Machine Tid) : Prop where
  nonzero : ∀ p ∈ m.world.table.ptrs, (m.channel p).life ≠ .absent → (m.channel p).thread ≠ 0
  inj : ∀ x ∈ m.world.table.entries, ∀ y ∈ m.world.table.entries, x.p_thread = y.p_thread →
    x.p_thread ≠ 0 → x.ptr = y.ptr

/-- The thread id of an entry after an operation. -/
theorem p_thread_of_sem {e : Env} {o : Op} {r : o.Res} (ho : m.sem t e o = some (r, m'))
    {x' : ThreadInfo} (hx' : x' ∈ m'.world.table.entries) :
    x'.p_thread = 0 ∨
      (∃ x ∈ m.world.table.entries, x'.ptr = x.ptr ∧ x'.p_thread = x.p_thread) ∨
      o = .pthread_create (some x'.ptr) ∧ x'.p_thread = e.thread := by
  obtain ⟨recv_data, hw⟩ := sem_world ho
  obtain ⟨-, rfl⟩ | ⟨x, hx, ⟨rfl, -⟩ | ⟨f, hf, rfl⟩⟩ := (sem_change hw).origin hx'
  · exact .inl rfl
  · exact .inr (.inl ⟨_, hx, rfl, rfl⟩)
  · cases hf with
    | p_thread tmp hcreated => exact .inr (.inr ⟨rfl, rfl⟩)
    | _ => exact .inr (.inl ⟨x, hx, rfl, rfl⟩)

theorem Identified.sem (hi : Identified m) {e : Env} {o : Op} {r : o.Res}
    (hsupplies : m.Supplies e o) (ho : m.sem t e o = some (r, m')) : Identified m' where
  nonzero p hmem hlife := by
    obtain ⟨hsame, hthread, -⟩ | ⟨-, -, hnew⟩ | ⟨rfl, -, -, hthread, -⟩ := life_of_sem ho p
    · obtain hold | ⟨hnew, -⟩ := ptrs_sem (fun _ => {}) (t := t) ho hmem
      · rw [hthread]
        rw [hsame] at hlife
        exact hi.nonzero p hold hlife
      · rw [hnew] at hlife
        exact absurd rfl hlife
    · rw [hnew] at hlife
      exact absurd rfl hlife
    · rw [hthread]
      exact hsupplies.1
  inj x' hx' y' hy' heq hne := by
    obtain hzero | ⟨x, hx, hxp, hxt⟩ | ⟨rfl, hxt⟩ := p_thread_of_sem ho hx'
    · exact absurd hzero hne
    · obtain hzero | ⟨y, hy, hyp, hyt⟩ | ⟨rfl, hyt⟩ := p_thread_of_sem ho hy'
      · exact absurd (heq.trans hzero) hne
      · rw [hxp, hyp]
        rw [hxt] at hne heq
        exact hi.inj x hx y hy (heq.trans hyt) hne
      · exact absurd (hxt.symm.trans (heq.trans hyt)) (hsupplies.2 x hx)
    · obtain hzero | ⟨y, hy, hyp, hyt⟩ | ⟨hcreate, -⟩ := p_thread_of_sem ho hy'
      · exact absurd (heq.trans hzero) hne
      · exact absurd (hyt.symm.trans (heq.symm.trans hxt)) (hsupplies.2 y hy)
      · exact Option.some.inj (Op.pthread_create.inj hcreate)

omit [DecidableEq Tid] in
theorem Identified.serves (hi : Identified m) {b : ThreadStep} (h : m.Serves b m') :
    Identified m' := by
  refine ⟨fun p hmem hlife => ?_, ?_⟩
  · rw [h.world] at hmem
    rw [(h.life p).1]
    exact hi.nonzero p hmem fun habsent => hlife ((h.life p).2.mpr habsent)
  · rw [h.world]
    exact hi.inj

/-! ## The invariant -/

/-- All that keeps somebody moving. -/
structure Lively (m : Machine Tid) (ann : Tid → Ann × Seen) : Prop where
  manned : Manned m fun t => (ann t).1
  talking : Talking m fun t => (ann t).1
  closed : Closed m fun t => (ann t).1
  reads : ReadsOnce m.world.lock fun t => (ann t).1
  identified : Identified m
  seen : SeenValid m.world.table ann
  once : ∀ t, (ann t).2.relocked = false

/-- Who locks for reading does not hold the lock. -/
theorem not_held_of_rdlock {ann : Tid → Ann × Seen}
    (hreads : ReadsOnce m.world.lock fun t => (ann t).1) (hs : SeenValid m.world.table ann)
    (hp : (ann t).1.pre (.pthread_rwlock .rdlock))
    (hlocks : m.LocksOnce t (.pthread_rwlock .rdlock)) :
    (ann t).2.held = false := by
  have hzero : (m.world.lock.hold t).reads = 0 := hlocks
  have hmode : (ann t).1.mode = .none := by
    obtain hnone | ⟨-, hread, -⟩ := hp
    · exact hnone
    · have hone := hreads t
      rw [if_pos hread, hzero] at hone
      cases hone
  cases hheld : (ann t).2.held with
  | false => rfl
  | true => exact absurd hmode ((hs.held t).mp hheld)

/-- Nobody has locked again. -/
theorem not_relocked {ann : Tid → Ann × Seen}
    (hreads : ReadsOnce m.world.lock fun t => (ann t).1) (hs : SeenValid m.world.table ann)
    {o : Op} (hp : (ann t).1.pre o) (hlocks : m.LocksOnce t o) (r : o.Res)
    (honce : (ann t).2.relocked = false) : ((ann t).2.next o r).relocked = false := by
  cases o with
  | pthread_rwlock x =>
      cases x with
      | rdlock => exact not_held_of_rdlock hreads hs hp hlocks
      | wrlock =>
          have hmode : (ann t).1.mode = .none := hp
          show (ann t).2.held = false
          cases hheld : (ann t).2.held with
          | false => rfl
          | true => exact absurd hmode ((hs.held t).mp hheld)
      | unlock => rfl
  | _ => exact honce

namespace Lively

variable {ann : Tid → Ann × Seen}

/-- **One operation of an application thread.** -/
theorem sem (hl : Lively m ann) {e : Env} {o : Op} {r : o.Res} (hp : (ann t).1.pre o)
    (hgrants : Grants e o) (hsupplies : m.Supplies e o) (hlocks : m.LocksOnce t o)
    (ho : m.sem t e o = some (r, m')) :
    Lively m' (Function.update ann t ((ann t).1.next o r, (ann t).2.next o r)) := by
  obtain ⟨recv_data, hw⟩ := sem_world ho
  constructor
  · rw [fst_update]
    exact hl.manned.sem hp ho hgrants
  · rw [fst_update]
    exact hl.talking.sem hl.manned.kept hp ho
  · rw [fst_update]
    exact hl.closed.sem hl.manned hl.talking hp ho
  · rw [fst_update]
    exact hl.reads.sem hl.manned.held.locked hp hlocks hw
  · exact hl.identified.sem hsupplies ho
  · exact hl.seen.sem hl.manned.held hp hw
  · intro u
    by_cases hut : u = t
    · subst hut
      rw [Function.update_self]
      exact not_relocked hl.reads hl.seen hp hlocks r (hl.once u)
    · rw [Function.update_of_ne hut]
      exact hl.once u

/-- **One step of an entry's thread.** -/
theorem serves (hl : Lively m ann) {b : ThreadStep} (h : m.Serves b m') : Lively m' ann := by
  refine ⟨hl.manned.serves h, hl.talking.serves h, hl.closed.serves hl.manned h, ?_,
    hl.identified.serves h, ?_, hl.once⟩
  · rw [h.world]
    exact hl.reads
  · rw [h.world]
    exact hl.seen

/-- A thread enters or leaves a wrapper. -/
theorem update (hl : Lively m ann) {h : Ann}
    (hheld : Held m.world.lock (Function.update (fun u => (ann u).1) t h)) (ht : (ann t).1.Quiet)
    (hq : h.Quiet) (hfresh : h.fresh = none) (hmode : h.mode = .none)
    (hidle : (ann t).1.mode = .none) : Lively m (Function.update ann t (h, {})) := by
  have hsilent : ∀ h : Ann, h.Quiet → h.talk ≠ .asked := fun h hq => by rw [hq.talk]; nofun
  constructor
  · rw [fst_update]
    exact hl.manned.update hheld ht hq hfresh
  · rw [fst_update]
    exact hl.talking.update hheld (hsilent _ ht) (hsilent _ hq)
  · rw [fst_update]
    exact hl.closed.update hq
  · rw [fst_update]
    exact hl.reads.update (hmode.trans hidle.symm)
  · exact hl.identified
  · exact hl.seen.update hmode
  · intro u
    by_cases hut : u = t
    · rw [hut, Function.update_self]
    · rw [Function.update_of_ne hut]
      exact hl.once u

theorem write (hl : Lively m ann) (x : LogEntry Tid) : Lively (m.write x) ann :=
  ⟨hl.manned.write x, hl.talking.write x, hl.closed, hl.reads, ⟨hl.identified.1, hl.identified.2⟩,
    hl.seen, hl.once⟩

end Lively

theorem lively_init : Lively ({} : Machine Tid) fun _ => ({}, {}) where
  manned := manned_init
  talking := talking_init
  closed := closed_init
  reads _ := rfl
  identified := ⟨nofun, nofun⟩
  seen := anchored_init.seen
  once _ := rfl

/-- **The invariant holds in every run that meets the assumptions**, from
every start at which it holds and no call is in progress. -/
theorem lively_of_start {s₀ s : State Tid} (hidle : ∀ t, s₀.thread t = none)
    (hstart : Lively s₀.shared fun _ => ({}, {})) (h : Run.Reachable step Assumed s₀ s) :
    ∃ ann, Lively s.shared ann ∧ ∀ t, Annotated (ann t) (s.thread t) := by
  refine Threads.outlined_of_reachable ({}, {}) h
    (fun c => (wrapper_outline c).prod (wrapper_valid c)) hidle hstart ?_ ?_ ?_ ?_
  · intro s ann t c hl ht _ _
    have hquiet : (ann t).1.Quiet := by
      rw [ht]
      exact ⟨.inl rfl, rfl, rfl, rfl⟩
    have hnone : (ann t).1.mode = .none := by rw [ht]
    have hstart := hl.manned.held.start (t := t) (by rw [ht]) c
    exact (hl.update hstart hquiet ⟨.inl rfl, rfl, rfl, rfl⟩ rfl rfl hnone).write _
  · intro s ann t e c a hl _ _ hpost
    have hquiet := hpost.1.1.1
    have hnone : (ann t).1.mode = .none := by
      by_contra hne
      have hheld := (hl.seen.held t).mpr hne
      rw [hpost.2, hl.once t] at hheld
      cases hheld
    exact (hl.update (hl.manned.held.idle hquiet) hquiet ⟨.inl rfl, rfl, rfl, rfl⟩ rfl rfl
      hnone).write _
  · intro s ann t e c o k r sh hl ht hg hpre ho
    obtain ⟨hgrants, hsupplies, hlocks⟩ := hg o (by rw [ht]; rfl)
    have hcalloc : o = .fdtable_add → e.calloc = true := by
      rintro rfl
      exact hsupplies
    exact ⟨⟨trivial, allocated_of_sem hcalloc ho⟩,
      hl.sem hpre.1.1 hgrants hsupplies hlocks ho⟩
  · intro s ann b sh hl _ hb
    exact hl.serves (serves_of_syscall_thread hb)

theorem lively_of_reachable {s : State Tid} (h : Run.Reachable step Assumed init s) :
    ∃ ann, Lively s.shared ann ∧ ∀ t, Annotated (ann t) (s.thread t) :=
  lively_of_start (fun _ => rfl) lively_init h

/-! ## Who can move -/

/-- Some thread can make its next step, whatever the outside world answers. -/
def CanMove (s : State Tid) : Prop :=
  (∃ t, ∀ e, (step s (.inl (.step t e))).isSome = true) ∨
    ∃ p, (∀ send_data recv_data, (step s (.inr (.start p send_data recv_data))).isSome = true) ∨
      (step s (.inr (.recv_from_app p))).isSome = true ∨
      (∀ o, (step s (.inr (.switch p o))).isSome = true) ∨
      (step s (.inr (.send_to_app p))).isSome = true

/-- The operation can be held up by another thread. -/
def waits : Op → Bool
  | .pthread_rwlock .rdlock | .pthread_rwlock .wrlock | .CPART_send_to_thread _ _
  | .CPART_recv_from_thread _ | .pthread_join _ => true
  | _ => false

section Moves

variable {s : State Tid} {ann : Tid → Ann × Seen} (hl : Lively s.shared ann)
  (hann : ∀ t, Annotated (ann t) (s.thread t))

theorem canMove_of_op {c : Syscall} {o : Op} {k : o.Res → Wrapper Word}
    (ht : s.thread t = some (c, .op o k)) (ho : ∀ e, (s.shared.sem t e o).isSome = true) :
    CanMove s := by
  refine .inl ⟨t, fun e => ?_⟩
  simpa [step, Threads.openStep, ht] using ho e

theorem canMove_of_ret {c : Syscall} {a : Word} (ht : s.thread t = some (c, .ret a)) :
    CanMove s := by
  refine .inl ⟨t, fun e => ?_⟩
  simp [step, Threads.openStep, ht]

theorem canMove_of_bg {b : ThreadStep} (hb : (s.shared.syscall_thread b).isSome = true) :
    (step s (.inr b)).isSome = true := by
  simpa [step, Threads.openStep] using hb

omit [DecidableEq Tid] in
theorem modify_isSome {tbl : FdTable} {tmp : Option Ptr} {p : Ptr} (htmp : tmp = some p)
    (hp : p ∈ tbl.ptrs) (f : ThreadInfo → ThreadInfo) : (tbl.modify tmp f).isSome = true := by
  obtain ⟨x, hx, hptr⟩ := FdTable.mem_ptrs.mp hp
  have hany : tbl.entries.any (fun x => x.ptr == p) = true :=
    List.any_eq_true.mpr ⟨x, hx, by simpa using hptr⟩
  simp [htmp, FdTable.modify, hany]

include hl in
/-- An operation that waits for nobody can be executed. -/
theorem sem_isSome {o : Op} (hp : (ann t).1.pre o) (hw : (ann t).2.Writes o)
    (ho : waits o = false) (e : Env) : (s.shared.sem t e o).isSome = true := by
  have hwrite : ∀ {tmp : Option Ptr} (f : ThreadInfo → ThreadInfo), o.target = some tmp →
      (s.shared.world.table.modify tmp f).isSome = true := by
    intro tmp f htarget
    obtain ⟨p, hseen, htmp⟩ := hw tmp htarget
    exact modify_isSome htmp (hl.seen.ptrs t p hseen).1 f
  cases o with
  | CPART_send_to_thread | CPART_recv_from_thread | pthread_join => cases ho
  | pthread_rwlock x =>
      cases x with
      | rdlock | wrlock => cases ho
      | unlock =>
          have hmode := Ann.MayUnlock.mode hp
          have hlocked := hl.manned.held.locked
          have hstep : (s.shared.world.lock.step t .unlock).isSome = true := by
            unfold RwLock.step
            by_cases hwriter : s.shared.world.lock.writer = some t
            · simp [hwriter]
            · have hread : (ann t).1.mode = .read := by
                cases hm : (ann t).1.mode with
                | none => exact absurd hm hmode
                | read => rfl
                | write =>
                    have hwr := (hlocked.write t).mpr hm
                    exact absurd (by simpa [RwLock.hold] using hwr) hwriter
              have hpos := hlocked.read t hread
              have hmem : t ∈ s.shared.world.lock.readers := List.count_pos_iff.mp hpos
              simp [hwriter, hmem]
          simpa [sem, Preload.sem] using hstep
  | fdtable_add =>
      cases hcalloc : e.calloc <;> simp [sem, Preload.sem, hcalloc]
  | set_NetorFile tmp k | set_pid tmp | set_thr_fd tmp fd =>
      simpa [sem, Preload.sem] using hwrite _ rfl
  | pthread_create tmp =>
      simp only [sem, Preload.sem]
      split
      · simpa using hwrite _ rfl
      · rfl
  | _ => rfl

include hl hann in
/-- A thread inside a wrapper can move, unless it waits. -/
theorem canMove_or_waits {x : Syscall × Wrapper Word} (ht : s.thread t = some x) :
    CanMove s ∨ ∃ c o k, s.thread t = some (c, .op o k) ∧ waits o = true ∧ (ann t).1.pre o := by
  obtain ⟨c, q⟩ := x
  have htext := hann t
  rw [ht] at htext
  cases q with
  | ret a => exact .inl (canMove_of_ret ht)
  | op o k =>
      cases hw : waits o with
      | false => exact .inl (canMove_of_op ht (sem_isSome hl htext.1.1.1 htext.1.2 hw))
      | true => exact .inr ⟨c, o, k, ht, hw, htext.1.1.1⟩

omit [DecidableEq Tid] in
include hann in
/-- A thread that holds the lock is inside a wrapper. -/
theorem inside_of_mode (hm : (ann t).1.mode ≠ .none) : ∃ x, s.thread t = some x := by
  cases ht : s.thread t with
  | some x => exact ⟨x, rfl⟩
  | none =>
      have hidle := hann t
      rw [ht] at hidle
      have hnone : ann t = ({}, {}) := hidle
      rw [hnone] at hm
      exact absurd rfl hm

include hl hann in
/-- Who has added an entry and not created its thread does not wait. -/
theorem canMove_of_owes {p : Ptr} (howes : (ann t).1.Owes p) : CanMove s := by
  have hcoherent := hl.manned.held.coherent t
  have htmp := hcoherent.tmp (by rw [howes.tmp]; nofun)
  obtain ⟨x, hx⟩ := inside_of_mode hann htmp.1
  obtain hmove | ⟨c, o, k, -, hw, hp⟩ := canMove_or_waits hl hann hx
  · exact hmove
  exfalso
  have hentry : (ann t).1.entry = none := htmp.2.1
  cases o with
  | pthread_rwlock y =>
      cases y with
      | rdlock =>
          obtain hnone | ⟨-, -, hno⟩ := hp
          · exact htmp.1 hnone
          · rw [howes.tmp] at hno
            cases hno
      | wrlock => exact htmp.1 hp
      | unlock => cases hw
  | CPART_send_to_thread args q =>
      obtain ⟨c', fd, hask⟩ := hp
      rw [hask.entry] at hentry
      cases hentry
  | CPART_recv_from_thread q | pthread_join q =>
      obtain ⟨fd, hsome, -⟩ := hp
      rw [hsome] at hentry
      cases hentry
  | _ => cases hw

include hl in
/-- A reader can lock for reading again. -/
theorem canMove_of_relock {c : Syscall} {k : Unit → Wrapper Word}
    (ht : s.thread t = some (c, .op (.pthread_rwlock .rdlock) k))
    (hread : (ann t).1.mode = .read) : CanMove s := by
  have hpos := hl.manned.held.locked.read t hread
  have hwriter : s.shared.world.lock.writer = none := by
    by_contra hne
    have hreaders := hl.manned.held.locked.exclusive hne
    simp [RwLock.hold, hreaders] at hpos
  refine canMove_of_op ht fun e => ?_
  simp [sem, Preload.sem, RwLock.step, hwriter]

include hl hann in
/-- A response that is there can be read. -/
theorem canMove_of_response {p : Ptr} (hresponse : (s.shared.channel p).exchange.response = true) :
    CanMove s := by
  obtain ⟨u, k, hk⟩ := hl.talking.response_awaited hresponse
  obtain ⟨hasked, ⟨fd, hentry⟩, -⟩ := hl.talking.pending p u k hk
  have hmode : (ann u).1.mode ≠ .none :=
    (hl.manned.held.coherent u).mode (by rw [hentry]; nofun)
  obtain ⟨x, hx⟩ := inside_of_mode hann hmode
  obtain hmove | ⟨c, o, k', ht, hw, hp⟩ := canMove_or_waits hl hann hx
  · exact hmove
  cases o with
  | pthread_rwlock y =>
      cases y with
      | rdlock =>
          obtain hnone | ⟨-, hread, -⟩ := hp
          · exact absurd hnone hmode
          · exact canMove_of_relock hl ht hread
      | wrlock => exact absurd hp hmode
      | unlock => cases hw
  | CPART_send_to_thread args q =>
      obtain ⟨c', fd', hask⟩ := hp
      rw [hask.talk] at hasked
      cases hasked
  | CPART_recv_from_thread q =>
      obtain ⟨fd', hsome, -⟩ := hp
      obtain ⟨rfl, -⟩ := Prod.mk.inj (Option.some.inj (hentry.symm.trans hsome))
      refine canMove_of_op ht fun e => ?_
      simp [sem, Ipc.Exchange.recv_from_thread, hk, hresponse]
  | pthread_join q =>
      obtain ⟨fd', -, hanswered, -⟩ := hp
      rw [hanswered] at hasked
      cases hasked
  | _ => cases hw

include hl hann in
/-- A call that is being served is served on. -/
theorem canMove_of_phase {p : Ptr} (hmem : p ∈ s.shared.world.table.ptrs)
    (hphase : (s.shared.channel p).exchange.phase ≠ .waiting) : CanMove s := by
  have hrunning : (s.shared.channel p).life = .running := by
    cases hlife : (s.shared.channel p).life with
    | running => rfl
    | absent => exact absurd (hl.manned.waiting p (.inl hlife)) hphase
    | created => exact absurd (hl.manned.waiting p (.inr hlife)) hphase
    | left =>
        obtain ⟨u, he⟩ := hl.manned.left p hmem hlife
        have hrun := ((hl.closed u p he).serving hphase).2
        rw [hlife] at hrun
        cases hrun
  cases hph : (s.shared.channel p).exchange.phase with
  | waiting => exact absurd hph hphase
  | serving =>
      refine .inr ⟨p, .inr (.inr (.inl fun o => canMove_of_bg ?_))⟩
      simp [syscall_thread, Ipc.Exchange.produce, hrunning, hph]
  | replying r =>
      cases hresponse : (s.shared.channel p).exchange.response with
      | true => exact canMove_of_response hl hann hresponse
      | false =>
          refine .inr ⟨p, .inr (.inr (.inr (canMove_of_bg ?_)))⟩
          simp [syscall_thread, Ipc.Exchange.send_to_app, hrunning, hph, hresponse]

include hl hann in
/-- A request is taken, once there is a thread to take it. -/
theorem canMove_of_request {p : Ptr} (hmem : p ∈ s.shared.world.table.ptrs)
    (hrequest : (s.shared.channel p).exchange.request = true) : CanMove s := by
  by_cases hphase : (s.shared.channel p).exchange.phase = .waiting
  · cases hlife : (s.shared.channel p).life with
    | absent =>
        obtain ⟨u, howes⟩ := hl.manned.absent p hmem hlife
        exact canMove_of_owes hl hann howes
    | created =>
        -- the thread finds its own entry
        have hfinds : ∀ x ∈ fdtable_get_by_tid s.shared.world.table (s.shared.channel p).thread,
            x.ptr = p := by
          intro x hx
          obtain ⟨hxmem, hxt⟩ := fdtable_search_mem hx
          obtain ⟨y, hy, rfl⟩ := FdTable.mem_ptrs.mp hmem
          have hne : (s.shared.channel y.ptr).life ≠ .absent := by rw [hlife]; nofun
          have hyt := hl.manned.thread y hy hne
          have hxt' : x.p_thread = (s.shared.channel y.ptr).thread := by simpa using hxt
          refine hl.identified.inj x hxmem y hy (hxt'.trans hyt.symm) ?_
          rw [hxt']
          exact hl.identified.nonzero _ hmem hne
        refine .inr ⟨p, .inl fun send_data recv_data => canMove_of_bg ?_⟩
        simp only [syscall_thread, if_pos hlife, Machine.start]
        split
        · rfl
        · rename_i x hx
          rw [if_pos (hfinds x hx)]
          rfl
    | running =>
        refine .inr ⟨p, .inr (.inl (canMove_of_bg ?_))⟩
        simp [syscall_thread, Ipc.Exchange.recv_from_app, hlife, hphase, hrequest]
    | left =>
        obtain ⟨u, he⟩ := hl.manned.left p hmem hlife
        obtain ⟨-, -, hcreated | hrunning⟩ := (hl.closed u p he).request hrequest
        · rw [hlife] at hcreated
          cases hcreated
        · rw [hlife] at hrunning
          cases hrunning
  · exact canMove_of_phase hl hann hmem hphase

include hl hann in
/-- **Who holds the lock does not wait for ever.** -/
theorem canMove_of_mode (hmode : (ann t).1.mode ≠ .none) : CanMove s := by
  obtain ⟨x, hx⟩ := inside_of_mode hann hmode
  obtain hmove | ⟨c, o, k, ht, hw, hp⟩ := canMove_or_waits hl hann hx
  · exact hmove
  cases o with
  | pthread_rwlock y =>
      cases y with
      | rdlock =>
          obtain hnone | ⟨-, hread, -⟩ := hp
          · exact absurd hnone hmode
          · exact canMove_of_relock hl ht hread
      | wrlock => exact absurd hp hmode
      | unlock => cases hw
  | CPART_send_to_thread args p =>
      obtain ⟨c', fd, hask⟩ := hp
      have hmem := hl.manned.kept.entry t p fd hask.entry
      cases hrequest : (s.shared.channel p).exchange.request with
      | true => exact canMove_of_request hl hann hmem hrequest
      | false =>
          have hidle : (s.shared.channel p).exchange.client t = .idle := by
            obtain hidle | ⟨k', hk⟩ := hl.talking.stage p t
            · exact hidle
            · have hasked := (hl.talking.pending p t k' hk).1
              rw [hask.talk] at hasked
              cases hasked
          refine canMove_of_op ht fun e => ?_
          simp [sem, Ipc.Exchange.send_to_thread, hidle, hrequest]
  | CPART_recv_from_thread p =>
      obtain ⟨fd, hentry, hasked⟩ := hp
      have hmem := hl.manned.kept.entry t p fd hentry
      obtain ⟨k', hk⟩ := hl.talking.asked t p fd hentry hasked
      obtain hrequest | hphase | hresponse := hl.talking.owes hk
      · exact canMove_of_request hl hann hmem hrequest
      · exact canMove_of_phase hl hann hmem hphase
      · exact canMove_of_response hl hann hresponse
  | pthread_join p =>
      obtain ⟨fd, hentry, hanswered, hwrite⟩ := hp
      -- nobody else knows the entry, so its thread has answered everything
      have hends : (ann t).1.Ends p := ⟨hwrite, ⟨fd, hentry⟩, by simp [hanswered]⟩
      obtain ⟨hrequest, hphase, -⟩ := hl.talking.owes_nothing (p := p) fun u fd' hu hasked => by
        obtain rfl := hl.manned.held.eq_of_write hwrite
          ((hl.manned.held.coherent u).mode (by simp [hu]))
        rw [hanswered] at hasked
        cases hasked
      have hleft := (hl.closed t p hends).done hrequest hphase
      refine canMove_of_op ht fun e => ?_
      simp [sem, hleft]
  | _ => cases hw

include hl hann in
/-- **A call that has not returned** moves on, or waits for one that does. -/
theorem canMove_of_call (ht : s.thread t ≠ none) : CanMove s := by
  obtain ⟨x, hx⟩ := Option.ne_none_iff_exists'.mp ht
  by_cases hmode : (ann t).1.mode = .none
  · obtain hmove | ⟨c, o, k, ht, hw, hp⟩ := canMove_or_waits hl hann hx
    · exact hmove
    -- it can only wait for the lock, and then for somebody who holds it
    have hentry := ((hl.manned.held.coherent t).entry_none hmode).1
    have hwriter : ∀ u, s.shared.world.lock.writer = some u → CanMove s := by
      intro u hu
      have hmode := (hl.manned.held.locked.write u).mp (by simp [RwLock.hold, hu])
      exact canMove_of_mode (t := u) hl hann (by simp [hmode])
    cases o with
    | pthread_rwlock y =>
        cases y with
        | rdlock =>
            cases hw : s.shared.world.lock.writer with
            | some u => exact hwriter u hw
            | none =>
                refine canMove_of_op ht fun e => ?_
                simp [sem, Preload.sem, RwLock.step, hw]
        | wrlock =>
            cases hw : s.shared.world.lock.writer with
            | some u => exact hwriter u hw
            | none =>
                cases hr : s.shared.world.lock.readers with
                | nil =>
                    refine canMove_of_op ht fun e => ?_
                    simp [sem, Preload.sem, RwLock.step, hw, hr]
                | cons u rest =>
                    refine canMove_of_mode (t := u) hl hann fun hnone => ?_
                    have hreads := hl.reads u
                    rw [hnone] at hreads
                    simp [RwLock.hold, hr] at hreads
        | unlock => cases hw
    | CPART_send_to_thread args p =>
        obtain ⟨c', fd, hask⟩ := hp
        rw [hask.entry] at hentry
        cases hentry
    | CPART_recv_from_thread p | pthread_join p =>
        obtain ⟨fd, hsome, -⟩ := hp
        rw [hsome] at hentry
        cases hentry
    | _ => cases hw
  · exact canMove_of_mode hl hann hmode

end Moves

end Machine

end CorePartitioning.Preload
