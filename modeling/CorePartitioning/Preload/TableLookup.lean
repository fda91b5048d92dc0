import Mathlib.Data.List.TakeWhile
import CorePartitioning.Preload.Outlines
import CorePartitioning.Preload.TableChange

/-!
# fdtable.c — do the lookups find what is there?

The search loops stop at the first `thr_fd` that is -11 or `NULL`, that is
0. The descriptor -11 is the tail's, no wrapper stores it; 0 is a
descriptor that `socket` and `epoll_create` do store when the original
function returns it. From then on that entry and all behind it are out of
reach. As long as no wrapper stores 0 the lookups are complete.
-/

namespace CorePartitioning.Preload

variable {Tid : Type} [DecidableEq Tid]

/-- Both lookups find the first entry there is. -/
def LookupComplete (tbl : FdTable) : Prop :=
  ∀ fd : CInt, 0 ≤ fd.toInt →
    ((fdtable_get_by_fd_all tbl fd).isSome ↔ ∃ x ∈ tbl.entries, x.thr_fd = fd) ∧
    fdtable_get_by_fd_all tbl fd = (tbl.entries.find? fun x => x.thr_fd == fd) ∧
    ∀ k : Bool,
      ((fdtable_get_by_fd tbl fd k).isSome ↔
        ∃ x ∈ tbl.entries, x.thr_fd = fd ∧ x.NetorFile = k) ∧
      fdtable_get_by_fd tbl fd k =
        tbl.entries.find? fun x => x.thr_fd == fd && x.NetorFile == k

/-- The thread is about to store descriptor 0. -/
def storesZero : Option (Syscall × Wrapper Word) → Bool
  | some (_, .op (.set_thr_fd _ fd) _) => fd == 0
  | _ => false

/-- No step stores descriptor 0 in the table. -/
def NoZeroStored (s : Process Tid) : Event Tid → Prop
  | .call _ _ => True
  | .step t _ => storesZero (s.thread t) = false

instance (s : Process Tid) (l : Event Tid) : Decidable (NoZeroStored s l) :=
  match l with
  | .call _ _ => inferInstanceAs (Decidable True)
  | .step _ _ => inferInstanceAs (Decidable (_ = false))

/-- The loops pass every entry. -/
def Passable (tbl : FdTable) : Prop := ∀ x ∈ tbl.entries, x.thr_fd ≠ -11 ∧ x.thr_fd ≠ 0

/-- The search is one among the entries in front of the first stop. -/
theorem fdtable_search_eq (found : ThreadInfo → Bool) (entries : List ThreadInfo) :
    fdtable_search found entries =
      (entries.takeWhile fun x => !(x.thr_fd == -11 || x.thr_fd == 0)).find? found := by
  induction entries with
  | nil => rfl
  | cons x rest ih =>
      rw [fdtable_search]
      by_cases hstop : x.thr_fd = -11 ∨ x.thr_fd = 0
      · rw [if_pos hstop, List.takeWhile_cons_of_neg (by simpa [or_iff_not_imp_left] using hstop)]
        rfl
      · rw [if_neg hstop, List.takeWhile_cons_of_pos (by simpa using hstop), List.find?_cons, ih]
        cases found x
        · rfl
        · rfl

theorem fdtable_search_eq_find? {found : ThreadInfo → Bool} {entries : List ThreadInfo}
    (h : ∀ x ∈ entries, x.thr_fd ≠ -11 ∧ x.thr_fd ≠ 0) :
    fdtable_search found entries = entries.find? found := by
  rw [fdtable_search_eq, List.takeWhile_eq_self_iff.mpr]
  intro x hx
  simpa using h x hx

theorem fdtable_search_mem {found : ThreadInfo → Bool} {entries : List ThreadInfo}
    {x : ThreadInfo} (h : fdtable_search found entries = some x) :
    x ∈ entries ∧ found x = true := by
  rw [fdtable_search_eq] at h
  have hmem := List.mem_of_find?_eq_some h
  exact ⟨(List.takeWhile_subset _) hmem, List.find?_some h⟩

theorem Passable.get_by_fd_all {tbl : FdTable} (h : Passable tbl) (fd : CInt) :
    fdtable_get_by_fd_all tbl fd = tbl.entries.find? fun x => x.thr_fd == fd :=
  fdtable_search_eq_find? h

theorem Passable.get_by_fd {tbl : FdTable} (h : Passable tbl) (fd : CInt) (k : Bool) :
    fdtable_get_by_fd tbl fd k =
      tbl.entries.find? fun x => x.thr_fd == fd && x.NetorFile == k :=
  fdtable_search_eq_find? h

theorem Passable.lookupComplete {tbl : FdTable} (h : Passable tbl) : LookupComplete tbl := by
  intro fd _
  refine ⟨?_, h.get_by_fd_all fd, ?_⟩
  · rw [h.get_by_fd_all]
    simp [List.find?_isSome]
  · intro k
    rw [h.get_by_fd]
    simp [List.find?_isSome]

/-- One operation: only a store of 0 ends it. -/
theorem Passable.change {tbl tbl' : FdTable} {e : Env} {pid : Nat} {o : Op} {r : o.Res}
    (hp : Passable tbl) (h : tbl.Change e pid o r tbl')
    (hstore : ∀ tmp fd, o = .set_thr_fd tmp fd → 0 ≤ fd.toInt ∧ fd ≠ 0) : Passable tbl' := by
  apply h.forall hp
  · exact ⟨by simp, by simp⟩
  · intro tmp f x hw hx hpx
    cases hw with
    | NetorFile | pid | p_thread => exact hpx
    | thr_fd tmp fd =>
        obtain ⟨hnonneg, hzero⟩ := hstore tmp fd rfl
        refine ⟨?_, hzero⟩
        rintro rfl
        revert hnonneg
        decide

/-- **The lookups are complete in every run in which no wrapper stores
descriptor 0**, after every step and for any number of threads. -/
theorem lookupComplete_of_no_zero_stored {s : Process Tid}
    (h : Run.Reachable step NoZeroStored fdtable_init s) : LookupComplete s.shared.table := by
  have hop : ∀ {s : Process Tid} {ann : Tid → Ann} {t e c o k r w'}, Passable s.shared.table →
      s.thread t = some (c, .op o k) → NoZeroStored s (.step t e) → (ann t).pre o →
      sem t e s.shared o = some (r, w') → True ∧ Passable w'.table := by
    intro s ann t e c o k r w' hp ht hg hpre ho
    refine ⟨trivial, hp.change (sem_change ho) ?_⟩
    rintro tmp fd rfl
    simp only [NoZeroStored, ht, storesZero, beq_eq_false_iff_ne] at hg
    exact ⟨hpre.nonneg, hg⟩
  obtain ⟨ann, hp, -⟩ := Threads.outlined_of_reachable_step ({} : Ann)
    (G := fun w _ => Passable w.table) h wrapper_follows (fun _ => rfl) (fun x hx => nomatch hx)
    (fun hp _ => hp) (fun hp _ => hp) hop
  exact hp.lookupComplete

/-- `socket` with the result 5. -/
theorem lookupComplete_of_socket :
    ∃ s : Process Bool, Run.Reachable step NoZeroStored fdtable_init s ∧
      s.shared.table.entries.map (·.thr_fd) = [5] ∧ LookupComplete s.shared.table := by
  have hrun : ((Run.exec step NoZeroStored (fdtable_init : Process Bool)
      (.call false (.socket 2 1 0) :: List.replicate 13 (.step false { result := 5 }))).map
      fun s => s.shared.table.entries.map (·.thr_fd)) = some [5] := by
    decide
  obtain ⟨s, hs, hentries⟩ := Option.map_eq_some_iff.mp hrun
  have hreach := Run.reachable_of_exec hs
  exact ⟨s, hreach, hentries, lookupComplete_of_no_zero_stored hreach⟩

/-- `close(0)`, then `socket`, whose original function returns 0: the entry
is there and not found. -/
theorem lookup_incomplete :
    ¬ ∀ s : Process Bool, Run.Reachable step Run.free fdtable_init s →
      LookupComplete s.shared.table := by
  intro h
  have hrun : ((Run.exec step Run.free (fdtable_init : Process Bool)
      (.call false (.close 0) :: List.replicate 7 (.step false {})
        ++ .call false (.socket 2 1 0) :: List.replicate 13 (.step false {}))).map
      fun s => ((fdtable_get_by_fd_all s.shared.table 0).isSome,
        s.shared.table.entries.any fun x => x.thr_fd == 0)) = some (false, true) := by
    decide
  obtain ⟨s, hs, hproj⟩ := Option.map_eq_some_iff.mp hrun
  simp only [Prod.mk.injEq] at hproj
  obtain ⟨hmissed, hthere⟩ := hproj
  have hcomplete := (h s (Run.reachable_of_exec hs) 0 (by decide)).1
  rw [hmissed] at hcomplete
  simp only [Bool.false_eq_true, false_iff] at hcomplete
  exact hcomplete (by simpa using hthere)

end CorePartitioning.Preload
