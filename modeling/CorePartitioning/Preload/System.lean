import CorePartitioning.Lib.Threads
import CorePartitioning.Preload.Wrappers

/-!
# ld_preload.c — the process

What the operations of the wrappers do to the shared state, and the system
of any number of application threads that call wrappers. Everything outside
the library is in `Env`: the original function's result and `errno`, the
allocation, the new thread, the response of an entry's thread. An exchange
with an entry's thread touches neither the lock nor the table; it may take
arbitrarily many steps of the other threads.

Every operation on the table is one step: the operations of fdtable.c are
taken not to overlap. The lock sees to that but for the insertions of `accept`
and `epoll_create`, which hold it for reading, and the new thread's search,
which holds nothing: where one of those does overlap another operation,
nothing is said of the code.
-/

namespace CorePartitioning.Preload

open RwLock (Hold)

/-- The library's state in one process. -/
structure World (Tid : Type) where
  lock : RwLock Tid := {}
  table : FdTable := {}
  errno : Tid → CInt := fun _ => 0
  pid : Nat := 1

/-- What happens outside the library during one operation. -/
structure Env where
  result : Word := 0
  errno : Option CInt := none
  calloc : Bool := true
  created : CInt := 0
  thread : Nat := 1
  recv_data : RetvalData := .zero

variable {Tid : Type} [DecidableEq Tid]

/-- Thread `t` executes an operation. Blocking on the lock and writing
through NULL have no successor. -/
def sem (t : Tid) (e : Env) (w : World Tid) : (o : Op) → Option (o.Res × World Tid)
  | .errno => some (w.errno t, w)
  | .set_errno v => some ((), { w with errno := Function.update w.errno t v })
  | .pthread_rwlock x => (w.lock.step t x).map fun l => ((), { w with lock := l })
  | .fdtable_get_by_fd_all fd => some ((fdtable_get_by_fd_all w.table fd).map (·.ptr), w)
  | .fdtable_get_by_fd fd NetorFile =>
      some ((fdtable_get_by_fd w.table fd NetorFile).map (·.ptr), w)
  | .fdtable_getnumber => some (fdtable_getnumber w.table, w)
  | .fdtable_add =>
      if e.calloc then
        let (p, tbl) := fdtable_add w.table w.pid
        some (some p, { w with table := tbl })
      else some (none, w)
  | .fdtable_delete fd =>
      let (r, tbl) := fdtable_delete w.table fd
      some (r, { w with table := tbl })
  | .set_NetorFile tmp NetorFile =>
      (w.table.modify tmp fun x => { x with NetorFile }).map fun tbl =>
        ((), { w with table := tbl })
  | .set_pid tmp =>
      (w.table.modify tmp fun x => { x with pid := w.pid }).map fun tbl =>
        ((), { w with table := tbl })
  | .set_thr_fd tmp fd =>
      (w.table.modify tmp fun x => { x with thr_fd := fd }).map fun tbl =>
        ((), { w with table := tbl })
  | .pthread_create tmp =>
      if e.created = 0 then
        (w.table.modify tmp fun x => { x with p_thread := e.thread }).map fun tbl =>
          (e.created, { w with table := tbl })
      else some (e.created, w)
  | .pthread_join _ => some ((), w)
  | .CPART_send_to_thread _ _ => some ((), w)
  | .CPART_recv_from_thread _ => some (e.recv_data, w)
  | .original _ =>
      some (e.result, { w with errno := e.errno.elim w.errno (Function.update w.errno t) })

/-- The process: its threads, each idle or inside a wrapper. -/
abbrev Process (Tid : Type) := Threads.State Tid Syscall Op Op.Res (World Tid) Word

abbrev Event (Tid : Type) := Threads.Label Tid Syscall Env

def step : Process Tid → Event Tid → Option (Process Tid) := Threads.step wrapper sem

/-- After `fdtable_init`, before any call. -/
def fdtable_init : Process Tid := { shared := {}, thread := fun _ => none }

/-- What a thread holds of `table_rwlock`, and how its operations change it. -/
def holds (w : World Tid) (t : Tid) : Hold := w.lock.hold t

def nextHold (h : Hold) : Op → Hold
  | .pthread_rwlock x => h.step x
  | _ => h

/-- Only the lock operations touch the lock. -/
theorem sem_lock {t : Tid} {e : Env} {w w' : World Tid} {o : Op} {r : o.Res}
    (h : sem t e w o = some (r, w')) :
    (∃ x, o = .pthread_rwlock x ∧ w.lock.step t x = some w'.lock) ∨
      ((∀ h, nextHold h o = h) ∧ w'.lock = w.lock) := by
  cases o with
  | pthread_rwlock x =>
      simp only [sem, Option.map_eq_some_iff, Prod.mk.injEq] at h
      obtain ⟨l, hl, -, rfl⟩ := h
      exact .inl ⟨x, rfl, hl⟩
  | fdtable_add =>
      refine .inr ⟨fun _ => rfl, ?_⟩
      simp only [sem] at h
      split at h <;> (cases h; rfl)
  | pthread_create tmp =>
      refine .inr ⟨fun _ => rfl, ?_⟩
      simp only [sem] at h
      split at h
      · obtain ⟨tbl, -, htbl⟩ := Option.map_eq_some_iff.mp h
        cases htbl
        rfl
      · cases h
        rfl
  | set_NetorFile | set_pid | set_thr_fd =>
      refine .inr ⟨fun _ => rfl, ?_⟩
      unfold sem at h
      obtain ⟨tbl, -, htbl⟩ := Option.map_eq_some_iff.mp h
      cases htbl
      rfl
  | _ =>
      refine .inr ⟨fun _ => rfl, ?_⟩
      cases h
      rfl

theorem observes : Threads.Observes (@sem Tid _) holds nextHold where
  own h := by
    obtain ⟨x, rfl, hl⟩ | ⟨hn, hl⟩ := sem_lock h
    · exact RwLock.hold_step hl
    · rw [hn, holds, holds, hl]
  other h hu := by
    obtain ⟨x, rfl, hl⟩ | ⟨hn, hl⟩ := sem_lock h
    · exact RwLock.hold_step_other hu hl
    · rw [holds, holds, hl]

/-- What the lock tells its caller: who gets past a lock call did not have
the write hold. -/
def LockAnswers (h : Hold) (o : Op) (_ : o.Res) : Prop :=
  ∀ x, o = .pthread_rwlock x → x ≠ .unlock → h.write = false

theorem lockAnswers {t : Tid} {e : Env} {w w' : World Tid} {o : Op} {r : o.Res}
    (h : sem t e w o = some (r, w')) : LockAnswers (holds w t) o r := by
  intro x hx hne
  subst hx
  obtain ⟨l, hl, -⟩ := Option.map_eq_some_iff.mp h
  exact RwLock.write_of_step hl hne

/-- In every state of every run a write hold excludes all others. -/
theorem exclusive_of_reachable {guard : Process Tid → Event Tid → Prop} {s : Process Tid}
    (h : Run.Reachable step guard fdtable_init s) : s.shared.lock.Exclusive := by
  apply Threads.shared_of_reachable (I := fun w : World Tid => w.lock.Exclusive) h
  · intro hne
    rfl
  · intro t e w o r w' hw ho
    obtain ⟨x, rfl, hl⟩ | ⟨-, hl⟩ := sem_lock ho
    · exact hw.step hl
    · rwa [hl]

end CorePartitioning.Preload
