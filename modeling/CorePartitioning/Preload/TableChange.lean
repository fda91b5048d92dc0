import CorePartitioning.Preload.Discipline

/-!
# fdtable.c — what one operation does to the table

An operation of a wrapper leaves the table as it is, puts a new entry in
front, takes one out, or writes a field of one. `FdTable.Change` lists
these with the answers they give; an invariant of the table is checked
against it and not against `sem`.
-/

namespace CorePartitioning.Preload

variable {Tid : Type} [DecidableEq Tid]

/-- The field an operation writes through `tmp`. -/
inductive Writes (e : Env) (pid : Nat) :
    (o : Op) → o.Res → Option Ptr → (ThreadInfo → ThreadInfo) → Prop
  | NetorFile (tmp : Option Ptr) (NetorFile : Bool) :
      Writes e pid (.set_NetorFile tmp NetorFile) () tmp fun x => { x with NetorFile }
  | pid (tmp : Option Ptr) : Writes e pid (.set_pid tmp) () tmp fun x => { x with pid }
  | thr_fd (tmp : Option Ptr) (fd : CInt) :
      Writes e pid (.set_thr_fd tmp fd) () tmp fun x => { x with thr_fd := fd }
  | p_thread (tmp : Option Ptr) (h : e.created = 0) :
      Writes e pid (.pthread_create tmp) e.created tmp fun x => { x with p_thread := e.thread }

/-- What an operation with the answer `r` does to the table. -/
inductive FdTable.Change (e : Env) (pid : Nat) (tbl : FdTable) :
    (o : Op) → o.Res → FdTable → Prop
  | keep {o : Op} {r : o.Res} (h : mutates o = false) : Change e pid tbl o r tbl
  | add_fails (h : e.calloc = false) : Change e pid tbl .fdtable_add none tbl
  | create_fails (tmp : Option Ptr) (h : e.created ≠ 0) :
      Change e pid tbl (.pthread_create tmp) e.created tbl
  | add (h : e.calloc = true) :
      Change e pid tbl .fdtable_add (some tbl.nextPtr) (fdtable_add tbl pid).2
  | delete (fd : CInt) :
      Change e pid tbl (.fdtable_delete fd) (fdtable_delete tbl fd).1 (fdtable_delete tbl fd).2
  | write {o : Op} {r : o.Res} {tmp : Option Ptr} {f : ThreadInfo → ThreadInfo} {tbl' : FdTable}
      (hw : Writes e pid o r tmp f) (h : tbl.modify tmp f = some tbl') : Change e pid tbl o r tbl'

theorem sem_change {t : Tid} {e : Env} {w w' : World Tid} {o : Op} {r : o.Res}
    (h : sem t e w o = some (r, w')) : w.table.Change e w.pid o r w'.table := by
  cases o with
  | pthread_rwlock x =>
      obtain ⟨l, -, hl⟩ := Option.map_eq_some_iff.mp h
      cases hl
      exact .keep rfl
  | fdtable_add =>
      simp only [sem] at h
      split at h
      · cases h
        exact .add ‹_›
      · rename_i hcalloc
        cases h
        exact .add_fails (by simpa using hcalloc)
  | fdtable_delete fd =>
      cases h
      exact .delete fd
  | pthread_create tmp =>
      simp only [sem] at h
      split at h
      · obtain ⟨tbl, htbl, heq⟩ := Option.map_eq_some_iff.mp h
        cases heq
        exact .write (.p_thread tmp ‹_›) htbl
      · cases h
        exact .create_fails tmp ‹_›
  | set_NetorFile tmp b =>
      obtain ⟨tbl, htbl, heq⟩ := Option.map_eq_some_iff.mp h
      cases heq
      exact .write (.NetorFile tmp b) htbl
  | set_pid tmp =>
      obtain ⟨tbl, htbl, heq⟩ := Option.map_eq_some_iff.mp h
      cases heq
      exact .write (.pid tmp) htbl
  | set_thr_fd tmp fd =>
      obtain ⟨tbl, htbl, heq⟩ := Option.map_eq_some_iff.mp h
      cases heq
      exact .write (.thr_fd tmp fd) htbl
  | _ =>
      cases h
      exact .keep rfl

/-- The other operations leave the table alone. -/
theorem sem_table {t : Tid} {e : Env} {w w' : World Tid} {o : Op} {r : o.Res}
    (hm : mutates o = false) (h : sem t e w o = some (r, w')) : w'.table = w.table := by
  cases o with
  | pthread_rwlock x =>
      obtain ⟨l, -, hl⟩ := Option.map_eq_some_iff.mp h
      cases hl
      rfl
  | fdtable_add | fdtable_delete | set_NetorFile | set_pid | set_thr_fd | pthread_create =>
      cases hm
  | _ =>
      cases h
      rfl

/-- No operation forks. -/
theorem sem_pid {t : Tid} {e : Env} {w w' : World Tid} {o : Op} {r : o.Res}
    (h : sem t e w o = some (r, w')) : w'.pid = w.pid := by
  cases o with
  | pthread_rwlock x =>
      obtain ⟨l, -, hl⟩ := Option.map_eq_some_iff.mp h
      cases hl
      rfl
  | fdtable_add =>
      simp only [sem] at h
      split at h <;> (cases h; rfl)
  | pthread_create tmp =>
      simp only [sem] at h
      split at h
      · obtain ⟨tbl, -, heq⟩ := Option.map_eq_some_iff.mp h
        cases heq
        rfl
      · cases h
        rfl
  | set_NetorFile | set_pid | set_thr_fd =>
      obtain ⟨tbl, -, heq⟩ := Option.map_eq_some_iff.mp h
      cases heq
      rfl
  | _ =>
      cases h
      rfl

theorem FdTable.modify_eq_some {tbl tbl' : FdTable} {tmp : Option Ptr}
    {f : ThreadInfo → ThreadInfo} (h : tbl.modify tmp f = some tbl') :
    ∃ p, tmp = some p ∧ (∃ x ∈ tbl.entries, x.ptr = p) ∧
      tbl' = { tbl with entries := tbl.entries.map fun x => if x.ptr = p then f x else x } := by
  unfold FdTable.modify at h
  cases tmp with
  | none => cases h
  | some p =>
      simp only [Option.ite_none_right_eq_some, Option.some.injEq] at h
      obtain ⟨hany, heq⟩ := h
      exact ⟨p, rfl, by simpa using hany, heq.symm⟩

namespace FdTable

theorem fdtable_delete_entries (tbl : FdTable) (fd : CInt) :
    (fdtable_delete tbl fd).2.entries.Sublist tbl.entries := by
  unfold fdtable_delete
  split
  · exact List.erase_sublist
  · exact List.Sublist.refl _

/-- An invariant of the entries: the new entry has it, and a write keeps it. -/
theorem Change.forall {e : Env} {pid : Nat} {tbl tbl' : FdTable} {o : Op} {r : o.Res}
    {P : ThreadInfo → Prop} (h : tbl.Change e pid o r tbl') (hP : ∀ x ∈ tbl.entries, P x)
    (hadd : P ⟨tbl.nextPtr, 0, -12, pid, false⟩)
    (hwrite : ∀ {tmp f x}, Writes e pid o r tmp f → x ∈ tbl.entries → P x → P (f x)) :
    ∀ x ∈ tbl'.entries, P x := by
  cases h with
  | keep | add_fails | create_fails => exact hP
  | add => exact List.forall_mem_cons.mpr ⟨hadd, hP⟩
  | delete fd => exact fun x hx => hP x ((fdtable_delete_entries tbl fd).mem hx)
  | write hw h =>
      obtain ⟨p, rfl, -, rfl⟩ := modify_eq_some h
      intro x hx
      obtain ⟨y, hy, rfl⟩ := List.mem_map.mp hx
      split
      · exact hwrite hw hy (hP y hy)
      · exact hP y hy

end FdTable

end CorePartitioning.Preload
