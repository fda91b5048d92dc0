import CorePartitioning.Preload.Outlines
import CorePartitioning.Preload.System

/-!
# ld_preload.c — the mode a wrapper believes it holds `table_rwlock` in

The annotation of a call says in which mode the call took the lock. It is
right: a thread in mode `write` is the writer, one in mode `read` is among
the readers. The other direction holds for the writer only, since
`epoll_create` can return and keep read holds.
-/

namespace CorePartitioning.Preload

variable {Tid : Type} [DecidableEq Tid]

/-- The annotations are right about the lock. -/
structure Locked (l : RwLock Tid) (ann : Tid → Ann) : Prop where
  exclusive : l.Exclusive
  write : ∀ t, (l.hold t).write = true ↔ (ann t).mode = .write
  read : ∀ t, (ann t).mode = .read → 0 < (l.hold t).reads

theorem locked_init : Locked ({} : RwLock Tid) fun _ => {} where
  exclusive := fun h => absurd rfl h
  write _ := by simp [RwLock.hold]
  read _ := nofun

/-- Only the lock operations change the mode. -/
theorem Ann.next_mode {h : Ann} {o : Op} (ho : ∀ x, o ≠ .pthread_rwlock x) (r : o.Res) :
    (h.next o r).mode = h.mode := by
  cases o with
  | pthread_rwlock x => exact absurd rfl (ho x)
  | fdtable_get_by_fd fd k => cases r <;> rfl
  | fdtable_get_by_fd_all fd =>
      obtain ⟨entry, talk, missed, heq⟩ := h.lookupAll_eq fd r
      show (h.lookupAll fd r).mode = h.mode
      rw [heq]
  | _ => rfl

namespace Locked

variable {l l' : RwLock Tid} {ann : Tid → Ann} {t u : Tid}

/-- Nobody else is in a mode when `t` is in mode `write`. -/
theorem alone (hl : Locked l ann) (ht : (ann t).mode = .write) (hu : u ≠ t) :
    (ann u).mode = .none := by
  have hnone := hl.exclusive.hold_of_write ((hl.write t).mpr ht) hu
  cases hm : (ann u).mode with
  | none => rfl
  | read =>
      have hpos := hl.read u hm
      rw [hnone] at hpos
      cases hpos
  | write =>
      have hw := (hl.write u).mpr hm
      rw [hnone] at hw
      cases hw

/-- An annotation with the same mode. -/
theorem update (hl : Locked l ann) {h : Ann} (hm : h.mode = (ann t).mode) :
    Locked l (Function.update ann t h) where
  exclusive := hl.exclusive
  write := by
    rw [Function.forall_update_iff ann fun u h => (l.hold u).write = true ↔ h.mode = .write, hm]
    exact ⟨hl.write t, fun u _ => hl.write u⟩
  read := by
    rw [Function.forall_update_iff ann fun u h => h.mode = .read → 0 < (l.hold u).reads, hm]
    exact ⟨hl.read t, fun u _ => hl.read u⟩

/-- A call ends: what it still holds it holds for reading. -/
theorem idle (hl : Locked l ann) (hm : (ann t).mode ≠ .write) :
    Locked l (Function.update ann t {}) where
  exclusive := hl.exclusive
  write := by
    rw [Function.forall_update_iff ann fun u h => (l.hold u).write = true ↔ h.mode = .write]
    exact ⟨⟨fun hw => absurd ((hl.write t).mp hw) hm, nofun⟩, fun u _ => hl.write u⟩
  read := by
    rw [Function.forall_update_iff ann fun u h => h.mode = .read → 0 < (l.hold u).reads]
    exact ⟨nofun, fun u _ => hl.read u⟩

/-- The thread's own lock operation. -/
theorem step (hl : Locked l ann) {x : RwLock.Op} (h : l.step t x = some l') :
    Locked l' (Function.update ann t ((ann t).next (.pthread_rwlock x) ())) where
  exclusive := hl.exclusive.step h
  write u := by
    by_cases hut : u = t
    · subst hut
      rw [Function.update_self, RwLock.hold_step h]
      cases x with
      | rdlock =>
          have hw := RwLock.write_of_step h (by simp)
          simp [Ann.next, RwLock.Hold.step, hw]
      | wrlock => simp [Ann.next, RwLock.Hold.step]
      | unlock =>
          simp only [Ann.next, RwLock.Hold.step]
          split
          · simp
          · simpa using ‹¬ (l.hold u).write = true›
    · rw [Function.update_of_ne hut, RwLock.hold_step_other hut h]
      exact hl.write u
  read u := by
    by_cases hut : u = t
    · subst hut
      rw [Function.update_self, RwLock.hold_step h]
      cases x with
      | rdlock => exact fun _ => Nat.succ_pos _
      | wrlock => simp [Ann.next]
      | unlock => simp [Ann.next]
    · rw [Function.update_of_ne hut, RwLock.hold_step_other hut h]
      exact hl.read u

end Locked

/-- Every operation keeps the annotations right. -/
theorem Locked.sem {w w' : World Tid} {ann : Tid → Ann} {t : Tid} {e : Env} {o : Op} {r : o.Res}
    (hl : Locked w.lock ann) (h : sem t e w o = some (r, w')) :
    Locked w'.lock (Function.update ann t ((ann t).next o r)) := by
  obtain ⟨x, rfl, hx⟩ | ⟨hn, hlock⟩ := sem_lock h
  · exact hl.step hx
  · rw [hlock]
    refine hl.update (Ann.next_mode ?_ r)
    rintro x rfl
    have hx := hn ⟨1, false⟩
    cases x <;> cases hx

/-- All annotations fit together and are right about the lock. -/
structure Held (l : RwLock Tid) (ann : Tid → Ann) : Prop where
  coherent : ∀ t, (ann t).Coherent
  locked : Locked l ann

namespace Held

variable {l : RwLock Tid} {ann : Tid → Ann} {t u : Tid}

/-- Under `t`'s write hold nobody else has a pointer. -/
theorem alone (h : Held l ann) (ht : (ann t).mode = .write) (hu : u ≠ t) :
    (ann u).mode = .none ∧ (ann u).entry = none ∧ (ann u).tmp = none :=
  have hm := h.locked.alone ht hu
  ⟨hm, (h.coherent u).entry_none hm⟩

/-- Whoever holds the lock while `t` holds it for writing is `t`. -/
theorem eq_of_write (h : Held l ann) (ht : (ann t).mode = .write) (hu : (ann u).mode ≠ .none) :
    u = t := by
  by_contra hne
  exact hu (h.alone ht hne).1

/-- Another annotation for `t`. -/
theorem update (h : Held l ann) {l' : RwLock Tid} {h' : Ann} (hc : h'.Coherent)
    (hl : Locked l' (Function.update ann t h')) : Held l' (Function.update ann t h') where
  coherent := by
    rw [Function.forall_update_iff ann fun _ h => h.Coherent]
    exact ⟨hc, fun u _ => h.coherent u⟩
  locked := hl

/-- One operation. -/
theorem sem {w w' : World Tid} {e : Env} {o : Op} {r : o.Res} (h : Held w.lock ann)
    (hp : (ann t).pre o) (ho : Preload.sem t e w o = some (r, w')) :
    Held w'.lock (Function.update ann t ((ann t).next o r)) :=
  h.update ((h.coherent t).next hp r) (h.locked.sem ho)

/-- A call begins. -/
theorem start (h : Held l ann) (ht : ann t = {}) (c : Syscall) :
    Held l (Function.update ann t (.start c)) :=
  h.update (Ann.coherent_start c) (h.locked.update (by rw [ht]; rfl))

/-- A call ends. -/
theorem idle (h : Held l ann) (hq : (ann t).Quiet) : Held l (Function.update ann t {}) :=
  h.update Ann.coherent_idle (h.locked.idle hq.mode_ne)

end Held

theorem held_init : Held ({} : RwLock Tid) fun _ => {} :=
  ⟨fun _ => Ann.coherent_idle, locked_init⟩

end CorePartitioning.Preload
