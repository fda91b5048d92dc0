import CorePartitioning.Preload.Discipline

/-!
# ld_preload.c — does every wrapper give `table_rwlock` back?

All but one do, on every path. `epoll_create` takes a second read hold
where it should unlock, when the original call failed or the table already
has an entry for the descriptor; it then returns with two, and no later
`socket`, `open` or `close` gets the lock. Without that, the lock is free
whenever no wrapper is in progress.
-/

namespace CorePartitioning.Preload

open RwLock (Hold)

variable {Tid : Type} [DecidableEq Tid]

/-- The call takes the way out of `epoll_create` that locks again. -/
def RelocksOnReturn (c : Syscall) (e : Env) (tbl : FdTable) : Prop :=
  match c with
  | .epoll_create _ =>
      let ret : CInt := e.result.setWidth 32
      ret.toInt < 0 ∨ (fdtable_get_by_fd_all tbl ret).isSome
  | _ => False

/-- A thread that is about to look up a descriptor in `epoll_create` will
find it non-negative and without an entry. -/
def lookupMisses (tbl : FdTable) : Option (Syscall × Wrapper Word) → Bool
  | some (.epoll_create _, .op (.fdtable_get_by_fd_all fd) _) =>
      0 ≤ fd.toInt && (fdtable_get_by_fd_all tbl fd).isNone
  | _ => true

/-- No step of an `epoll_create` looks up a negative descriptor or one with
an entry. -/
def EpollLookupMisses (s : Process Tid) : Event Tid → Prop
  | .call _ _ => True
  | .step t _ => lookupMisses s.shared.table (s.thread t) = true

instance (s : Process Tid) (l : Event Tid) : Decidable (EpollLookupMisses s l) :=
  match l with
  | .call _ _ => inferInstanceAs (Decidable True)
  | .step _ _ => inferInstanceAs (Decidable (_ = true))

/-! ## One call -/

theorem lockAnswers_rules : Rules LockAnswers fun _ _ => True where
  lock hr hx := hr _ rfl hx
  quiet _ := trivial
  write _ := trivial

/-- What `Prog.Safe.exec` needs of the operations. -/
theorem sem_observed {t : Tid} {e : Env} {w w' : World Tid} {o : Op} {r : o.Res}
    (h : sem t e w o = some (r, w')) :
    LockAnswers (holds w t) o r ∧ holds w' t = nextHold (holds w t) o :=
  ⟨lockAnswers h, observes.own h⟩

theorem exec_withErrno (t : Tid) (e : Env) (w : World Tid) (c : Syscall) {α : Type}
    (f : CInt × CInt → Wrapper α) :
    ∃ errno func_errno, (withErrno c >>= f).exec (sem t) e w =
      (f (e.result.setWidth 32, func_errno)).exec (sem t) e { w with errno := errno } := by
  simp only [withErrno, Prog.call_bind, Prog.op_bind, Prog.exec, sem, Option.bind_some]
  split
  · exact ⟨_, _, rfl⟩
  · exact ⟨_, _, rfl⟩

/-- `epoll_create`, run alone. -/
theorem epoll_create_holds {t : Tid} {e : Env} {w w' : World Tid} {size : CInt} {v : Word}
    (h : (epoll_create size).exec (sem t) e w = some (v, w')) :
    (RelocksOnReturn (.epoll_create size) e w.table →
      holds w' t = ((holds w t).step .rdlock).step .rdlock) ∧
    (¬ RelocksOnReturn (.epoll_create size) e w.table → holds w' t = holds w t) := by
  unfold epoll_create at h
  obtain ⟨errno, func_errno, hexec⟩ := exec_withErrno t e w (.epoll_create size) _
  rw [hexec] at h
  simp only [Prog.call_bind] at h
  obtain ⟨⟨_, w₁⟩, hlock, h⟩ := Option.bind_eq_some_iff.mp h
  obtain ⟨⟨found, w₂⟩, hfound, h⟩ := Option.bind_eq_some_iff.mp h
  obtain ⟨l, -, hl⟩ := Option.map_eq_some_iff.mp hlock
  cases hl
  cases hfound
  have hhold : _ = (holds w t).step .rdlock := observes.own hlock
  simp only [Option.isSome_map] at h
  split at h
  · rename_i hbad
    -- the way out that locks again
    have hsafe : Prog.Safe nextHold LockAnswers (fun _ _ => True)
        (· = ((holds w t).step .rdlock).step .rdlock) ((holds w t).step .rdlock)
        (.op (.pthread_rwlock .rdlock) fun _ => finish func_errno (e.result.setWidth 32)) :=
      lockAnswers_rules.op rfl fun _ _ => lockAnswers_rules.op rfl fun _ _ => rfl
    rw [← hhold] at hsafe
    have hends := hsafe.exec sem_observed h
    rw [hhold] at hends
    exact ⟨fun _ => hends, fun hno => absurd hbad.symm hno⟩
  · rename_i hgood
    have hwrite := lockAnswers hlock .rdlock rfl nofun
    have hback : ((holds w t).step .rdlock).step .unlock = holds w t :=
      Hold.step_unlock hwrite nofun
    have hsafe : Prog.Safe nextHold LockAnswers (fun _ _ => True) (· = holds w t)
        ((holds w t).step .rdlock) (registerEpoll (e.result.setWidth 32) func_errno) :=
      registerEpoll_safe lockAnswers_rules hback _ _ (fun _ _ _ _ _ _ => trivial)
    rw [← hhold] at hsafe
    exact ⟨fun hyes => absurd hyes.symm hgood, fun _ => hsafe.exec sem_observed h⟩

theorem exec_holds {t : Tid} {c : Syscall} {e : Env} {w w' : World Tid} {v : Word}
    (h : (wrapper c).exec (sem t) e w = some (v, w')) :
    holds w' t = holds w t ↔ ¬ RelocksOnReturn c e w.table := by
  by_cases hc : ∃ size, c = .epoll_create size
  · obtain ⟨size, rfl⟩ := hc
    obtain ⟨hleak, hkeep⟩ := epoll_create_holds h
    constructor
    · intro heq hr
      have hreads := congrArg Hold.reads (heq.symm.trans (hleak hr))
      simp only [Hold.step] at hreads
      omega
    · exact hkeep
  · have hno : ¬ RelocksOnReturn c e w.table := by
      cases c <;> simp_all [RelocksOnReturn]
    refine iff_of_true ?_ hno
    have hsafe : Prog.Safe nextHold LockAnswers (fun _ _ => True) (· = holds w t)
        (holds w t) (wrapper c) :=
      wrapper_safe lockAnswers_rules c rfl (fun _ _ _ _ _ _ _ _ _ => trivial)
        (fun size hsize => absurd ⟨size, hsize⟩ hc) (fun _ _ _ _ _ _ _ _ => trivial)
    exact hsafe.exec sem_observed h

/-! ## All interleavings -/

/-- The answers the guard lets through to a call. -/
def EpollAnswers (c : Syscall) (h : Hold) (o : Op) (r : o.Res) : Prop :=
  LockAnswers h o r ∧
    match c, o, r with
    | .epoll_create _, .fdtable_get_by_fd_all fd, r => 0 ≤ fd.toInt ∧ r = none
    | _, _, _ => True

theorem epollAnswers_rules (c : Syscall) : Rules (EpollAnswers c) fun _ _ => True where
  lock hr hx := hr.1 _ rfl hx
  quiet _ := trivial
  write _ := trivial

theorem epollAnswers_of_guard {s : Process Tid} {t : Tid} {e : Env} {c : Syscall} {o : Op}
    {k : o.Res → Wrapper Word} {r : o.Res} {w' : World Tid}
    (ht : s.thread t = some (c, .op o k)) (hg : EpollLookupMisses s (.step t e))
    (ho : sem t e s.shared o = some (r, w')) : EpollAnswers c (holds s.shared t) o r := by
  refine ⟨lockAnswers ho, ?_⟩
  split
  · rename_i size fd r
    simp only [EpollLookupMisses, ht, lookupMisses, Bool.and_eq_true, decide_eq_true_eq,
      Option.isNone_iff_eq_none] at hg
    cases ho
    exact ⟨hg.1, by rw [hg.2]; rfl⟩
  · trivial

theorem holds_none_of_reachable {s : Process Tid}
    (h : Run.Reachable step EpollLookupMisses fdtable_init s) :
    ∀ t, Threads.Fine nextHold EpollAnswers (fun _ _ _ => True) (· = Hold.none)
      (holds s.shared t) (s.thread t) := by
  refine Threads.fine_of_reachable h observes ?_ epollAnswers_of_guard (fun _ => rfl)
  intro c h hbase
  refine wrapper_safe (epollAnswers_rules c) c hbase (fun _ _ _ _ _ _ _ _ _ => trivial) ?_
    (fun _ _ _ _ _ _ _ _ => trivial)
  rintro size rfl h' fd r hr hbad
  exfalso
  obtain ⟨hfd, rfl⟩ := hr.2
  rcases hbad with hsome | hneg
  · cases hsome
  · omega

/-- **Lock balance.** A call, run alone from any state and with any results
from outside, returns with the holds it was entered with exactly when it is
not an `epoll_create` that failed or got a descriptor with an entry. And in
every run in which no `epoll_create` does so, a thread outside the wrappers
holds nothing, so the lock is free whenever no wrapper is in progress. -/
theorem wrappers_balance_lock :
    (∀ (t : Tid) (c : Syscall) (e : Env) (w w' : World Tid) (v : Word),
      (wrapper c).exec (sem t) e w = some (v, w') →
      (holds w' t = holds w t ↔ ¬ RelocksOnReturn c e w.table)) ∧
    (∀ s : Process Tid, Run.Reachable step EpollLookupMisses fdtable_init s →
      (∀ t, s.thread t = none → holds s.shared t = Hold.none) ∧
      ((∀ t, s.thread t = none) →
        s.shared.lock.readers = [] ∧ s.shared.lock.writer = none)) := by
  constructor
  · intro t c e w w' v h
    exact exec_holds h
  · intro s h
    have hidle : ∀ t, s.thread t = none → holds s.shared t = Hold.none := by
      intro t ht
      have hfine := holds_none_of_reachable h t
      rw [ht] at hfine
      exact hfine
    exact ⟨hidle, fun hall => RwLock.free_of_hold fun t => hidle t (hall t)⟩

/-- The original `epoll_create` fails with `EMFILE`, or returns descriptor 5. -/
def epollFails : Env := { result := -1, errno := some 24 }
def epollReturns : Env := { result := 5 }

/-- A call of `epoll_create` that registers descriptor 5, alone and as a run. -/
theorem epoll_create_balances_lock :
    (∃ (v : Word) (w' : World Bool),
      (wrapper (.epoll_create 1)).exec (sem false) epollReturns {} = some (v, w') ∧
      holds w' false = holds {} false) ∧
    (∃ s : Process Bool, Run.Reachable step EpollLookupMisses fdtable_init s ∧
      s.shared.table.entries.length = 1 ∧ holds s.shared false = Hold.none) := by
  constructor
  · have hrun : ((wrapper (.epoll_create 1)).exec (sem false) epollReturns {}).isSome = true := by
      decide
    obtain ⟨⟨v, w'⟩, hexec⟩ := Option.isSome_iff_exists.mp hrun
    have hbal := wrappers_balance_lock.1 false _ _ _ _ _ hexec
    exact ⟨v, w', hexec, hbal.mpr (by unfold RelocksOnReturn; decide)⟩
  · have hrun : (Run.exec step EpollLookupMisses (fdtable_init : Process Bool)
        (.call false (.epoll_create 1) :: List.replicate 16 (.step false epollReturns))).map
        (fun s => ((s.thread false).isNone, s.shared.table.entries.length)) =
        some (true, 1) := by
      decide
    obtain ⟨s, hs, hproj⟩ := Option.map_eq_some_iff.mp hrun
    simp only [Prod.mk.injEq, Option.isNone_iff_eq_none] at hproj
    have hreach := Run.reachable_of_exec hs
    exact ⟨s, hreach, hproj.2, (wrappers_balance_lock.2 s hreach).1 false hproj.1⟩

/-- After a failed `epoll_create` the caller holds the lock twice, and the
lock is not free although no wrapper is in progress. -/
theorem epoll_create_keeps_lock :
    (¬ ∀ (t : Bool) (c : Syscall) (e : Env) (w w' : World Bool) (v : Word),
      (wrapper c).exec (sem t) e w = some (v, w') → holds w' t = holds w t) ∧
    (¬ ∀ s : Process Bool, Run.Reachable step Run.free fdtable_init s →
      (∀ t, s.thread t = none) →
        s.shared.lock.readers = [] ∧ s.shared.lock.writer = none) := by
  constructor
  · intro h
    have hrun : ((wrapper (.epoll_create 1)).exec (sem false) epollFails {}).map
        (fun x => holds x.2 false) = some ⟨2, false⟩ := by
      decide
    obtain ⟨⟨v, w'⟩, hexec, hholds⟩ := Option.map_eq_some_iff.mp hrun
    have heq := h false _ _ _ _ _ hexec
    rw [hholds] at heq
    revert heq
    decide
  · intro h
    have hrun : (Run.exec step Run.free (fdtable_init : Process Bool)
        (.call false (.epoll_create 1) :: List.replicate 9 (.step false epollFails))).map
        (fun s => (s.shared.lock.readers, (s.thread false).isNone, (s.thread true).isNone)) =
        some ([false, false], true, true) := by
      decide
    obtain ⟨s, hs, hproj⟩ := Option.map_eq_some_iff.mp hrun
    simp only [Prod.mk.injEq, Option.isNone_iff_eq_none] at hproj
    obtain ⟨hreaders, hfalse, htrue⟩ := hproj
    have hfree := h s (Run.reachable_of_exec hs) (by
      intro t
      cases t
      · exact hfalse
      · exact htrue)
    rw [hreaders] at hfree
    cases hfree.1

end CorePartitioning.Preload
