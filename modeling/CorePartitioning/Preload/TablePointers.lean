import Mathlib.Data.List.Nodup
import CorePartitioning.Preload.LockModes
import CorePartitioning.Preload.TableLookup

/-!
# ld_preload.c — the pointers into the table

A wrapper keeps pointers to entries from one operation to the next: the
entry it found and the entry it added. They stay valid, because entries are
taken out under the write hold only.
-/

namespace CorePartitioning.Preload

variable {Tid : Type} [DecidableEq Tid]

/-! ## The entries by address -/

def FdTable.ptrs (tbl : FdTable) : List Ptr := tbl.entries.map (·.ptr)

namespace FdTable

variable {tbl tbl' : FdTable} {e : Env} {pid : Nat} {o : Op} {r : o.Res}

theorem mem_ptrs {p : Ptr} : p ∈ tbl.ptrs ↔ ∃ x ∈ tbl.entries, x.ptr = p := List.mem_map

theorem modify_ptrs {tmp : Option Ptr} {f : ThreadInfo → ThreadInfo}
    (hf : ∀ x, (f x).ptr = x.ptr) (h : tbl.modify tmp f = some tbl') :
    tbl'.ptrs = tbl.ptrs ∧ tbl'.nextPtr = tbl.nextPtr := by
  obtain ⟨p, rfl, -, rfl⟩ := modify_eq_some h
  refine ⟨?_, rfl⟩
  unfold ptrs
  rw [List.map_map]
  apply List.map_congr_left
  intro x hx
  rw [Function.comp_apply]
  split
  · exact hf x
  · rfl

/-- Only an insertion and a deletion change the set of the entries. -/
theorem Change.ptrs_cases (h : tbl.Change e pid o r tbl') :
    (o = .fdtable_add ∧ tbl' = (fdtable_add tbl pid).2) ∨
      (∃ fd, o = .fdtable_delete fd ∧ tbl' = (fdtable_delete tbl fd).2) ∨
      tbl'.ptrs = tbl.ptrs ∧ tbl'.nextPtr = tbl.nextPtr := by
  cases h with
  | keep | add_fails | create_fails => exact .inr (.inr ⟨rfl, rfl⟩)
  | add => exact .inl ⟨rfl, rfl⟩
  | delete fd => exact .inr (.inl ⟨fd, rfl, rfl⟩)
  | write hw hm => exact .inr (.inr (modify_ptrs (fun x => by cases hw <;> rfl) hm))

/-- Where an entry comes from: it is new, or one from before with the field
that the operation writes. -/
theorem Change.origin (h : tbl.Change e pid o r tbl') {x' : ThreadInfo} (hx' : x' ∈ tbl'.entries) :
    (o = .fdtable_add ∧ x' = ⟨tbl.nextPtr, 0, -12, pid, false⟩) ∨
      ∃ x ∈ tbl.entries, (x' = x ∧ ∀ f, ¬ Writes e pid o r (some x.ptr) f) ∨
        ∃ f, Writes e pid o r (some x.ptr) f ∧ x' = f x := by
  cases h with
  | keep hm =>
      refine .inr ⟨x', hx', .inl ⟨rfl, fun f hw => ?_⟩⟩
      cases hw <;> cases hm
  | add_fails => exact .inr ⟨x', hx', .inl ⟨rfl, nofun⟩⟩
  | create_fails tmp hne =>
      refine .inr ⟨x', hx', .inl ⟨rfl, fun f hw => ?_⟩⟩
      cases hw
      exact hne ‹_›
  | add =>
      rcases List.mem_cons.mp hx' with rfl | hx'
      · exact .inl ⟨rfl, rfl⟩
      · exact .inr ⟨x', hx', .inl ⟨rfl, nofun⟩⟩
  | delete fd =>
      exact .inr ⟨x', (fdtable_delete_entries tbl fd).mem hx', .inl ⟨rfl, nofun⟩⟩
  | write hw hm =>
      obtain ⟨p, rfl, -, rfl⟩ := modify_eq_some hm
      obtain ⟨x, hx, rfl⟩ := List.mem_map.mp hx'
      refine .inr ⟨x, hx, ?_⟩
      by_cases hp : x.ptr = p
      · subst hp
        rw [if_pos rfl]
        exact .inr ⟨_, hw, rfl⟩
      · rw [if_neg hp]
        refine .inl ⟨rfl, fun f hw' => hp ?_⟩
        cases hw <;> (cases hw'; rfl)

theorem fdtable_delete_ptrs (tbl : FdTable) (fd : CInt) :
    (fdtable_delete tbl fd).2.ptrs.Sublist tbl.ptrs :=
  (fdtable_delete_entries tbl fd).map _

theorem fdtable_delete_nextPtr (tbl : FdTable) (fd : CInt) :
    (fdtable_delete tbl fd).2.nextPtr = tbl.nextPtr := by
  unfold fdtable_delete
  split <;> rfl

/-- Each entry has an address of its own. -/
structure Addressed (tbl : FdTable) : Prop where
  nodup : tbl.ptrs.Nodup
  lt : ∀ p ∈ tbl.ptrs, p < tbl.nextPtr

theorem Addressed.change (ha : tbl.Addressed) (h : tbl.Change e pid o r tbl') :
    tbl'.Addressed := by
  obtain ⟨-, rfl⟩ | ⟨fd, -, rfl⟩ | ⟨hptrs, hnext⟩ := h.ptrs_cases
  · refine ⟨List.nodup_cons.mpr ⟨fun hmem => ?_, ha.nodup⟩, ?_⟩
    · exact absurd (ha.lt _ hmem) (Nat.lt_irrefl _)
    · intro p hp
      rcases List.mem_cons.mp hp with rfl | hp
      · exact Nat.lt_succ_self _
      · exact Nat.lt_succ_of_lt (ha.lt p hp)
  · have hsub := fdtable_delete_ptrs tbl fd
    refine ⟨ha.nodup.sublist hsub, fun p hp => ?_⟩
    rw [fdtable_delete_nextPtr]
    exact ha.lt p (hsub.mem hp)
  · constructor
    · rw [hptrs]
      exact ha.nodup
    · rw [hptrs, hnext]
      exact ha.lt

/-- The entry at an address. -/
theorem Addressed.eq (ha : tbl.Addressed) {x y : ThreadInfo} (hx : x ∈ tbl.entries)
    (hy : y ∈ tbl.entries) (h : x.ptr = y.ptr) : x = y :=
  List.inj_on_of_nodup_map ha.nodup hx hy h

/-- What a deletion leaves: not the entry that the descriptor finds. -/
theorem Addressed.delete (ha : tbl.Addressed) {fd : CInt} {x : ThreadInfo}
    (hx : fdtable_get_by_fd_all tbl fd = some x) {p : Ptr} :
    p ∈ (fdtable_delete tbl fd).2.ptrs ↔ p ∈ tbl.ptrs ∧ p ≠ x.ptr := by
  have hnodup : tbl.entries.Nodup := ha.nodup.of_map _
  have hentries : (fdtable_delete tbl fd).2.entries = tbl.entries.erase x := by
    unfold fdtable_delete
    rw [hx]
  rw [mem_ptrs, mem_ptrs, hentries]
  constructor
  · rintro ⟨y, hy, rfl⟩
    obtain ⟨hne, hmem⟩ := (hnodup.mem_erase_iff).mp hy
    exact ⟨⟨y, hmem, rfl⟩, fun heq => hne (ha.eq hmem (fdtable_search_mem hx).1 heq)⟩
  · rintro ⟨⟨y, hy, rfl⟩, hne⟩
    refine ⟨y, (hnodup.mem_erase_iff).mpr ⟨?_, hy⟩, rfl⟩
    rintro rfl
    exact hne rfl

end FdTable

/-! ## The pointers of the calls -/

/-- A thread knows the entry at `p` by descriptor `fd` since before its
operation, or has just found it. -/
theorem entry_of_sem {t : Tid} {e : Env} {w w' : World Tid} {h : Ann} {o : Op} {r : o.Res}
    (ho : sem t e w o = some (r, w')) {p : Ptr} {fd : CInt}
    (hentry : (h.next o r).entry = some (p, fd)) :
    (h.entry = some (p, fd) ∧ ((h.next o r).talk = .found → h.talk = .found)) ∨
      (∃ k, o = .fdtable_get_by_fd fd k ∧
        ∃ x, fdtable_get_by_fd w.table fd k = some x ∧ x.ptr = p) ∨
      (o = .fdtable_get_by_fd_all fd ∧ h.mode = .write ∧
        ∃ x, fdtable_get_by_fd_all w.table fd = some x ∧ x.ptr = p) := by
  cases o with
  | fdtable_get_by_fd fd' k =>
      cases ho
      cases hfound : fdtable_get_by_fd w.table fd' k with
      | none =>
          simp only [hfound] at hentry
          cases hentry
      | some x =>
          simp only [hfound] at hentry
          cases hentry
          exact .inr (.inl ⟨k, rfl, x, hfound, rfl⟩)
  | fdtable_get_by_fd_all fd' =>
      cases ho
      obtain ⟨q, hq, hw, heq⟩ | ⟨q, -, -, heq⟩ | ⟨-, heq⟩ :=
        h.lookupAll_cases fd' ((fdtable_get_by_fd_all w.table fd').map (·.ptr))
      · have hnext : (h.lookupAll fd' ((fdtable_get_by_fd_all w.table fd').map (·.ptr))).entry =
            some (p, fd) := hentry
        rw [heq] at hnext
        cases hnext
        obtain ⟨x, hx, hptr⟩ := Option.map_eq_some_iff.mp hq
        exact .inr (.inr ⟨rfl, hw, x, hx, hptr⟩)
      all_goals
        have hnext : (h.lookupAll fd' ((fdtable_get_by_fd_all w.table fd').map (·.ptr))).entry =
            some (p, fd) := hentry
        rw [heq] at hnext
        cases hnext
  | pthread_rwlock x =>
      cases x with
      | unlock => cases hentry
      | rdlock | wrlock => exact .inl ⟨hentry, id⟩
  | fdtable_delete => cases hentry
  | pthread_join | CPART_send_to_thread | CPART_recv_from_thread => exact .inl ⟨hentry, nofun⟩
  | _ => exact .inl ⟨hentry, id⟩

/-- The entry a thread adds is new. -/
theorem tmp_of_sem {t : Tid} {e : Env} {w w' : World Tid} {h : Ann} {o : Op} {r : o.Res}
    (ho : sem t e w o = some (r, w')) {p : Ptr} (htmp : (h.next o r).tmp = some p) :
    h.tmp = some p ∨
      o = .fdtable_add ∧ p = w.table.nextPtr ∧ w'.table = (fdtable_add w.table w.pid).2 := by
  cases o with
  | fdtable_add =>
      simp only [sem] at ho
      split at ho
      · cases ho
        cases htmp
        exact .inr ⟨rfl, rfl, rfl⟩
      · cases ho
        cases htmp
  | fdtable_get_by_fd fd k => cases r <;> exact .inl htmp
  | fdtable_get_by_fd_all fd =>
      obtain ⟨entry, talk, missed, heq⟩ := h.lookupAll_eq fd r
      have hnext : (h.lookupAll fd r).tmp = some p := htmp
      rw [heq] at hnext
      exact .inl hnext
  | pthread_rwlock x =>
      cases x with
      | unlock => cases htmp
      | rdlock | wrlock => exact .inl htmp
  | _ => exact .inl htmp

/-- The pointers of all calls are good: an added entry is one thread's, and
the entry that a writer found is the one its descriptor finds. -/
structure Kept (tbl : FdTable) (ann : Tid → Ann) : Prop extends tbl.Addressed where
  entry : ∀ t p fd, (ann t).entry = some (p, fd) → p ∈ tbl.ptrs
  tmp : ∀ t p, (ann t).tmp = some p → p ∈ tbl.ptrs
  inj : ∀ t u p, (ann t).tmp = some p → (ann u).tmp = some p → t = u
  writer : ∀ t p fd, (ann t).mode = .write → (ann t).entry = some (p, fd) →
    ∃ x, fdtable_get_by_fd_all tbl fd = some x ∧ x.ptr = p

omit [DecidableEq Tid] in
theorem kept_init : Kept ({} : FdTable) fun _ : Tid => {} where
  nodup := List.nodup_nil
  lt := nofun
  entry := nofun
  tmp := nofun
  inj := nofun
  writer := nofun

/-- An annotation without pointers. -/
theorem Kept.update {tbl : FdTable} {ann : Tid → Ann} (hk : Kept tbl ann) {t : Tid} {h : Ann}
    (hentry : h.entry = none) (htmp : h.tmp = none) : Kept tbl (Function.update ann t h) := by
  have hsame : ∀ u, (Function.update ann t h u).entry = none ∧
      (Function.update ann t h u).tmp = none ∨ Function.update ann t h u = ann u := by
    intro u
    by_cases hut : u = t
    · subst hut
      rw [Function.update_self]
      exact .inl ⟨hentry, htmp⟩
    · rw [Function.update_of_ne hut]
      exact .inr rfl
  refine ⟨hk.toAddressed, fun u p fd hu => ?_, fun u p hu => ?_, fun u v p hu hv => ?_,
    fun u p fd hm hu => ?_⟩
  · rcases hsame u with ⟨hnone, -⟩ | heq
    · simp [hnone] at hu
    · rw [heq] at hu
      exact hk.entry u p fd hu
  · rcases hsame u with ⟨-, hnone⟩ | heq
    · simp [hnone] at hu
    · rw [heq] at hu
      exact hk.tmp u p hu
  · rcases hsame u with ⟨-, hnone⟩ | heq
    · simp [hnone] at hu
    · rcases hsame v with ⟨-, hnone⟩ | heq'
      · simp [hnone] at hv
      · rw [heq] at hu
        rw [heq'] at hv
        exact hk.inj u v p hu hv
  · rcases hsame u with ⟨hnone, -⟩ | heq
    · simp [hnone] at hu
    · rw [heq] at hm hu
      exact hk.writer u p fd hm hu

/-- Who changes the table holds the lock and has turned away from its entry. -/
theorem Ann.pre_of_mutates {h : Ann} {o : Op} (hp : h.pre o) (ho : mutates o = true) :
    h.mode ≠ .none ∧ (h.entry = none ∨ ∃ p fd, o = .fdtable_delete fd ∧
      h.entry = some (p, fd) ∧ h.talk = .joined ∧ h.mode = .write) := by
  cases o with
  | fdtable_add => exact ⟨Ann.MayWrite.mode hp.toMayWrite, .inl (Ann.MayWrite.entry hp.toMayWrite)⟩
  | set_NetorFile | set_pid => exact ⟨Ann.MayWrite.mode hp, .inl (Ann.MayWrite.entry hp)⟩
  | set_thr_fd | pthread_create =>
      exact ⟨Ann.MayWrite.mode hp.toMayWrite, .inl (Ann.MayWrite.entry hp.toMayWrite)⟩
  | fdtable_delete fd =>
      obtain ⟨p, hentry, htalk, hmode⟩ := hp
      refine ⟨by rw [hmode]; nofun, .inr ⟨p, fd, rfl, hentry, htalk, hmode⟩⟩
  | _ => cases ho

namespace Kept

variable {w w' : World Tid} {ann : Tid → Ann} {t : Tid} {e : Env} {o : Op} {r : o.Res}

/-- What a thread points to after `t`'s operation was in the table before. -/
theorem entry_sem (hk : Kept w.table ann) (ho : Preload.sem t e w o = some (r, w')) {u : Tid}
    {p : Ptr} {fd : CInt}
    (hu : (Function.update ann t ((ann t).next o r) u).entry = some (p, fd)) :
    p ∈ w.table.ptrs := by
  by_cases hut : u = t
  · subst hut
    rw [Function.update_self] at hu
    obtain ⟨hold, -⟩ | ⟨k, -, x, hx, hptr⟩ | ⟨-, -, x, hx, hptr⟩ := entry_of_sem ho hu
    · exact hk.entry u p fd hold
    · exact FdTable.mem_ptrs.mpr ⟨x, (fdtable_search_mem hx).1, hptr⟩
    · exact FdTable.mem_ptrs.mpr ⟨x, (fdtable_search_mem hx).1, hptr⟩
  · rw [Function.update_of_ne hut] at hu
    exact hk.entry u p fd hu

/-- The same for the entry it adds. -/
theorem tmp_sem (hk : Kept w.table ann) (ho : Preload.sem t e w o = some (r, w')) {u : Tid}
    {p : Ptr} (hu : (Function.update ann t ((ann t).next o r) u).tmp = some p) :
    (ann u).tmp = some p ∧ p ∈ w.table.ptrs ∨
      u = t ∧ o = .fdtable_add ∧ p = w.table.nextPtr ∧
        w'.table = (fdtable_add w.table w.pid).2 := by
  by_cases hut : u = t
  · subst hut
    rw [Function.update_self] at hu
    obtain hold | ⟨hadd, hptr, htable⟩ := tmp_of_sem ho hu
    · exact .inl ⟨hold, hk.tmp u p hold⟩
    · exact .inr ⟨rfl, hadd, hptr, htable⟩
  · rw [Function.update_of_ne hut] at hu
    exact .inl ⟨hu, hk.tmp u p hu⟩

/-- A deletion ends the only pointer there is. -/
theorem deleted (hh : Held w.lock ann) {fd : CInt} (hp : (ann t).pre (.fdtable_delete fd))
    (r : CInt) (u : Tid) :
    (Function.update ann t ((ann t).next (.fdtable_delete fd) r) u).entry = none ∧
      (Function.update ann t ((ann t).next (.fdtable_delete fd) r) u).tmp = none := by
  obtain ⟨p, hown, -, hmode⟩ := hp
  by_cases hut : u = t
  · subst hut
    rw [Function.update_self]
    refine ⟨rfl, ?_⟩
    by_contra ht
    have hno := ((hh.coherent u).tmp ht).2.1
    rw [hown] at hno
    cases hno
  · rw [Function.update_of_ne hut]
    exact (hh.alone hmode hut).2

/-- One operation. -/
theorem sem (hk : Kept w.table ann) (hh : Held w.lock ann) (hp : (ann t).pre o)
    (ho : Preload.sem t e w o = some (r, w')) :
    Kept w'.table (Function.update ann t ((ann t).next o r)) := by
  have hchange := sem_change ho
  have haddr := hk.toAddressed.change hchange
  -- a pointer stays good unless its entry is deleted
  have hstays : (∀ fd, o ≠ .fdtable_delete fd) → ∀ p ∈ w.table.ptrs, p ∈ w'.table.ptrs := by
    intro hdelete p hmem
    obtain ⟨-, htable⟩ | ⟨fd, rfl, -⟩ | ⟨hptrs, -⟩ := hchange.ptrs_cases
    · rw [htable]
      exact List.mem_cons_of_mem _ hmem
    · exact absurd rfl (hdelete fd)
    · rwa [hptrs]
  refine ⟨haddr, fun u p fd hu => ?_, fun u p hu => ?_, fun u v p hu hv => ?_,
    fun u p fd hm hu => ?_⟩
  · refine hstays ?_ p (hk.entry_sem ho hu)
    rintro fd' rfl
    rw [(deleted hh hp r u).1] at hu
    cases hu
  · obtain ⟨-, hmem⟩ | ⟨rfl, -, rfl, htable⟩ := hk.tmp_sem ho hu
    · refine hstays ?_ p hmem
      rintro fd' rfl
      rw [(deleted hh hp r u).2] at hu
      cases hu
    · rw [htable]
      exact List.mem_cons_self
  · obtain ⟨hu', hmemu⟩ | ⟨rfl, -, hptru, -⟩ := hk.tmp_sem ho hu
    · obtain ⟨hv', -⟩ | ⟨-, -, hptrv, -⟩ := hk.tmp_sem ho hv
      · exact hk.inj u v p hu' hv'
      · exact absurd (hk.lt p hmemu) (by rw [hptrv]; exact Nat.lt_irrefl _)
    · obtain ⟨-, hmemv⟩ | ⟨rfl, -, -, -⟩ := hk.tmp_sem ho hv
      · exact absurd (hk.lt p hmemv) (by rw [hptru]; exact Nat.lt_irrefl _)
      · rfl
  · by_cases hmut : mutates o = true
    · obtain ⟨hlocked, hturned⟩ := Ann.pre_of_mutates hp hmut
      by_cases hut : u = t
      · subst hut
        rw [Function.update_self] at hu
        obtain ⟨hold, -⟩ | ⟨k, rfl, -⟩ | ⟨rfl, -⟩ := entry_of_sem ho hu
        · obtain hnone | ⟨q, fd', rfl, -⟩ := hturned
          · rw [hnone] at hold
            cases hold
          · cases hu
        · cases hmut
        · cases hmut
      · rw [Function.update_of_ne hut] at hm
        exact absurd (hh.eq_of_write hm hlocked).symm hut
    · rw [sem_table (by simpa using hmut) ho]
      by_cases hut : u = t
      · subst hut
        rw [Function.update_self] at hm hu
        obtain ⟨hold, -⟩ | ⟨k, rfl, -⟩ | ⟨rfl, -, x, hx, hptr⟩ := entry_of_sem ho hu
        · refine hk.writer u p fd ?_ hold
          by_cases hlock : ∃ x, o = .pthread_rwlock x
          · obtain ⟨x, rfl⟩ := hlock
            cases x with
            | rdlock => cases hm
            | wrlock =>
                rw [((hh.coherent u).entry_none hp).1] at hold
                cases hold
            | unlock => cases hm
          · rwa [Ann.next_mode (fun x hx => hlock ⟨x, hx⟩)] at hm
        · have hmode : ((ann u).next (.fdtable_get_by_fd fd k) r).mode = (ann u).mode :=
            Ann.next_mode (o := .fdtable_get_by_fd fd k) nofun r
          rw [hmode, hp.2.1] at hm
          cases hm
        · exact ⟨x, hx, hptr⟩
      · rw [Function.update_of_ne hut] at hm hu
        exact hk.writer u p fd hm hu

end Kept

end CorePartitioning.Preload
