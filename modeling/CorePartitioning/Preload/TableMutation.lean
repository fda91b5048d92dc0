import CorePartitioning.Preload.Discipline
import CorePartitioning.Preload.Outlines

/-!
# ld_preload.c — who else may look while the table changes?

`socket`, `open`, `openat`, `close` and `shutdown` change the table under
the write hold, so nobody else holds the lock meanwhile. `epoll_create` and
`accept` take the lock for reading and insert all the same: `accept` when
the descriptor it got has no entry, `epoll_create` when the table has room.
If neither insertion happens, every change of the table is exclusive; and
in a state where one happens it is exclusive when no other thread holds the
lock.
-/

namespace CorePartitioning.Preload

open RwLock (Hold)

variable {Tid : Type} [DecidableEq Tid]

/-- `t` is executing a change of the table: its next operation is one. -/
def mutating (s : Process Tid) (t : Tid) : Bool :=
  match s.thread t with
  | some (_, .op o _) => mutates o
  | _ => false

/-- **Exclusive mutation.** Nobody else holds the lock in any mode. -/
def MutationExclusive (s : Process Tid) : Prop :=
  ∀ t, mutating s t = true → ∀ u, u ≠ t → holds s.shared u = Hold.none

/-- A thread inside `accept` or `epoll_create` is not about to turn to its
insertion: the accepted descriptor has an entry, the table has no room. -/
def avoidsInsertion (tbl : FdTable) : Option (Syscall × Wrapper Word) → Bool
  | some (.accept _ _ _, .op (.fdtable_get_by_fd_all fd) _) =>
      (fdtable_get_by_fd_all tbl fd).isSome
  | some (.epoll_create _, .op .fdtable_getnumber _) => MAXTHREAD ≤ fdtable_getnumber tbl
  | _ => true

/-- No step makes `accept` or `epoll_create` insert an entry. -/
def NoReadInsertion (s : Process Tid) : Event Tid → Prop
  | .call _ _ => True
  | .step t _ => avoidsInsertion s.shared.table (s.thread t) = true

instance (s : Process Tid) (l : Event Tid) : Decidable (NoReadInsertion s l) :=
  match l with
  | .call _ _ => inferInstanceAs (Decidable True)
  | .step _ _ => inferInstanceAs (Decidable (_ = true))

/-- The answers the guard lets through to a call. -/
def InsertAnswers (c : Syscall) (h : Hold) (o : Op) (r : o.Res) : Prop :=
  LockAnswers h o r ∧
    match c, o, r with
    | .accept _ _ _, .fdtable_get_by_fd_all _, r => r.isSome = true
    | .epoll_create _, .fdtable_getnumber, num => MAXTHREAD ≤ num
    | _, _, _ => True

theorem insertAnswers_rules (c : Syscall) : Rules (InsertAnswers c) MutatesExclusively where
  lock hr hx := hr.1 _ rfl hx
  quiet hm := by simp [MutatesExclusively, hm]
  write hw := fun _ => hw

theorem insertAnswers_of_guard {s : Process Tid} {t : Tid} {e : Env} {c : Syscall} {o : Op}
    {k : o.Res → Wrapper Word} {r : o.Res} {w' : World Tid}
    (ht : s.thread t = some (c, .op o k)) (hg : NoReadInsertion s (.step t e))
    (ho : sem t e s.shared o = some (r, w')) : InsertAnswers c (holds s.shared t) o r := by
  refine ⟨lockAnswers ho, ?_⟩
  split
  · simp only [NoReadInsertion, ht, avoidsInsertion] at hg
    cases ho
    simpa using hg
  · simp only [NoReadInsertion, ht, avoidsInsertion, decide_eq_true_eq] at hg
    cases ho
    exact hg
  · trivial

theorem wrapper_mutates_exclusively (c : Syscall) (h : Hold) :
    Prog.Safe nextHold (InsertAnswers c) MutatesExclusively (fun _ => True) h (wrapper c) := by
  refine wrapper_safe (insertAnswers_rules c) c trivial ?_ (fun _ _ _ _ _ _ _ => trivial) ?_
  · rintro socket addr addrlen rfl h fd hr
    cases hr.2
  · rintro size rfl h num hr hroom
    exact absurd hr.2 (Int.not_le.mpr hroom)

theorem exclusive_of_no_read_insertion {s : Process Tid}
    (h : Run.Reachable step NoReadInsertion fdtable_init s) : MutationExclusive s := by
  have hfine : ∀ t, Threads.Fine nextHold InsertAnswers (fun _ => MutatesExclusively)
      (fun _ => True) (holds s.shared t) (s.thread t) :=
    Threads.fine_of_reachable h observes (fun c h _ => wrapper_mutates_exclusively c h)
      insertAnswers_of_guard fun _ => trivial
  intro t ht u hu
  have hft := hfine t
  unfold mutating at ht
  split at ht
  · rename_i c o k hthread
    rw [hthread] at hft
    exact (exclusive_of_reachable h).hold_of_write (hft.1 ht) hu
  · cases ht

/-- `t` is executing the insertion of `accept` or `epoll_create`. -/
def readInserting (s : Process Tid) (t : Tid) : Bool :=
  match s.thread t with
  | some (c, .op o _) => c.insertsUnderRead && mutates o
  | _ => false

/-- Nobody else holds the lock during an insertion under the read lock. -/
def InsertsAlone (s : Process Tid) : Prop :=
  ∀ t, readInserting s t = true → ∀ u, u ≠ t → holds s.shared u = Hold.none

/-- The other wrappers change the table under the write hold. -/
def OthersExclusive (c : Syscall) (h : Hold) (o : Op) : Prop :=
  c.insertsUnderRead = false → MutatesExclusively h o

theorem wrapper_others_exclusive (c : Syscall) (h : Hold) :
    Prog.Safe nextHold LockAnswers (OthersExclusive c) (fun _ => True) h (wrapper c) := by
  have hrules : Rules LockAnswers (OthersExclusive c) :=
    { lock := fun hr hx => hr _ rfl hx
      quiet := fun hm _ => by simp [MutatesExclusively, hm]
      write := fun hw _ _ => hw }
  refine wrapper_safe hrules c trivial ?_ (fun _ _ _ _ _ _ _ => trivial) ?_
  · rintro socket addr addrlen rfl _ _ _ _ _ hno
    cases hno
  · rintro size rfl _ _ _ _ _ _ hno
    cases hno

theorem mutationExclusive_iff {s : Process Tid}
    (h : Run.Reachable step Run.free fdtable_init s) :
    MutationExclusive s ↔ InsertsAlone s := by
  have hfine : ∀ t, Threads.Fine nextHold (fun _ => LockAnswers) OthersExclusive
      (fun _ => True) (holds s.shared t) (s.thread t) :=
    Threads.fine_of_reachable h observes (fun c h _ => wrapper_others_exclusive c h)
      (fun _ _ ho => lockAnswers ho) fun _ => trivial
  constructor
  · intro hexclusive t ht
    refine hexclusive t ?_
    unfold readInserting at ht
    unfold mutating
    split at ht
    · exact (Bool.and_eq_true_iff.mp ht).2
    · cases ht
  · intro halone t ht u hu
    have hft := hfine t
    by_cases hread : readInserting s t = true
    · exact halone t hread u hu
    · unfold mutating at ht
      unfold readInserting at hread
      split at ht
      · rename_i c o k hthread
        rw [hthread] at hft hread
        have hno : c.insertsUnderRead = false := by simpa [ht] using hread
        exact (exclusive_of_reachable h).hold_of_write (hft.1 hno ht) hu
      · cases ht

/-- **In every run without an insertion by `accept` or `epoll_create`, every
change of the table is exclusive**, in every state and for any number of
threads. **In a run with insertions** it is so in exactly the states in which
no other thread holds the lock during one. -/
theorem mutation_exclusive_of_no_read_insertion :
    (∀ s : Process Tid, Run.Reachable step NoReadInsertion fdtable_init s →
      MutationExclusive s) ∧
    ∀ s : Process Tid, Run.Reachable step Run.free fdtable_init s →
      (MutationExclusive s ↔ InsertsAlone s) :=
  ⟨fun _ => exclusive_of_no_read_insertion, fun _ => mutationExclusive_iff⟩

/-- `socket` about to add its entry. -/
theorem socket_mutates_exclusively :
    ∃ s : Process Bool, Run.Reachable step NoReadInsertion fdtable_init s ∧
      mutating s false = true ∧ holds s.shared true = Hold.none := by
  have hrun : (Run.exec step NoReadInsertion (fdtable_init : Process Bool)
      (.call false (.socket 2 1 0) :: List.replicate 5 (.step false { result := 5 }))).map
      (fun s => mutating s false) = some true := by
    decide
  obtain ⟨s, hs, hmut⟩ := Option.map_eq_some_iff.mp hrun
  have hreach := Run.reachable_of_exec hs
  exact ⟨s, hreach, hmut,
    mutation_exclusive_of_no_read_insertion.1 s hreach false hmut true (by decide)⟩

/-- One thread inside `read` holds the lock for reading while another inserts
descriptor 5 in `epoll_create`. -/
theorem epoll_create_mutates_shared :
    ¬ ∀ s : Process Bool, Run.Reachable step Run.free fdtable_init s → MutationExclusive s := by
  intro h
  have hrun : (Run.exec step Run.free (fdtable_init : Process Bool)
      (.call true (.read 7 0 0) :: List.replicate 2 (.step true {})
        ++ .call false (.epoll_create 1) :: List.replicate 8 (.step false { result := 5 }))).map
      (fun s => (mutating s false, holds s.shared true)) = some (true, ⟨1, false⟩) := by
    decide
  obtain ⟨s, hs, hproj⟩ := Option.map_eq_some_iff.mp hrun
  simp only [Prod.mk.injEq] at hproj
  have hnone := h s (Run.reachable_of_exec hs) false hproj.1 true (by decide)
  rw [hproj.2] at hnone
  revert hnone
  decide

end CorePartitioning.Preload
