import CorePartitioning.Preload.Progress

/-!
# ld_preload.c — the process between calls

When no wrapper is in progress the library is at rest: the lock is free, no
exchange holds a request or a response, and the system call threads are
those of the entries of the table, each known to its entry by its own id.
Nothing of a call stays behind, whatever the other calls were doing while it
ran.
-/

namespace CorePartitioning.Preload

namespace Machine

variable {Tid : Type} [DecidableEq Tid] {m : Machine Tid}

/-- A thread that serves, or will. -/
def Alive (ch : Channel Tid) : Prop := ch.life = .created ∨ ch.life = .running

/-- An exchange in which nothing is under way. -/
structure Silent (a : Ipc.Exchange Tid) : Prop where
  request : a.request = false
  phase : a.phase = .waiting
  response : a.response = false
  client : ∀ t, a.client t = .idle

/-- Nothing is under way in the process. -/
structure AtRest (m : Machine Tid) : Prop where
  free : m.world.lock.readers = [] ∧ m.world.lock.writer = none
  alive : ∀ p, Alive (m.channel p) ↔ p ∈ m.world.table.ptrs
  silent : ∀ p, Silent (m.channel p).exchange
  thread : ∀ x ∈ m.world.table.entries, x.p_thread = (m.channel x.ptr).thread
  inj : ∀ x ∈ m.world.table.entries, ∀ y ∈ m.world.table.entries, x.p_thread = y.p_thread →
    x.ptr = y.ptr

section Unlocked

variable {ann : Tid → Ann × Seen}

/-- The lock is free when nobody counts on it. -/
theorem free_of_modes (hl : Lively m ann) (hmode : ∀ t, (ann t).1.mode = .none) :
    m.world.lock.readers = [] ∧ m.world.lock.writer = none := by
  apply RwLock.free_of_hold
  intro t
  have hreads := hl.reads t
  have hwrite := (hl.manned.held.locked.write t).mp
  rw [hmode t] at hreads hwrite
  ext
  · exact hreads
  · cases hw : (m.world.lock.hold t).write with
    | false => rfl
    | true => cases hwrite hw

variable (hl : Lively m ann) (hmode : ∀ t, (ann t).1.mode = .none)
include hl hmode

/-- Without the lock nobody has an entry. -/
theorem entry_none_of_modes (t : Tid) : (ann t).1.entry = none ∧ (ann t).1.tmp = none :=
  (hl.manned.held.coherent t).entry_none (hmode t)

/-- The thread of every entry is there. -/
theorem alive_of_modes {p : Ptr} (hmem : p ∈ m.world.table.ptrs) : Alive (m.channel p) := by
  cases hlife : (m.channel p).life with
  | created => exact .inl hlife
  | running => exact .inr hlife
  | absent =>
      obtain ⟨t, howes⟩ := hl.manned.absent p hmem hlife
      have htmp := howes.tmp
      rw [(entry_none_of_modes hl hmode t).2] at htmp
      cases htmp
  | left =>
      obtain ⟨t, hends⟩ := hl.manned.left p hmem hlife
      have hwrite := hends.mode
      rw [hmode t] at hwrite
      cases hwrite

theorem silent_of_modes (p : Ptr) : Silent (m.channel p).exchange := by
  have hnobody : ∀ t fd, (ann t).1.entry = some (p, fd) → (ann t).1.talk ≠ .asked := by
    intro t fd hentry
    rw [(entry_none_of_modes hl hmode t).1] at hentry
    cases hentry
  obtain ⟨hrequest, hphase, hresponse⟩ := hl.talking.owes_nothing hnobody
  refine ⟨hrequest, hphase, hresponse, fun t => ?_⟩
  rcases hl.talking.stage p t with hstage | ⟨k, hk⟩
  · exact hstage
  · obtain ⟨htalk, ⟨fd, hentry⟩, -⟩ := hl.talking.pending p t k hk
    exact absurd htalk (hnobody t fd hentry)

/-- **At rest** is the process whenever nobody has the lock. -/
theorem atRest_of_modes {ann' : Tid → Ann × Seen} (ha : Anchored m ann') : AtRest m := by
  have hthread : ∀ x ∈ m.world.table.entries,
      x.p_thread = (m.channel x.ptr).thread ∧ x.p_thread ≠ 0 := by
    intro x hx
    have hmem : x.ptr ∈ m.world.table.ptrs := FdTable.mem_ptrs.mpr ⟨x, hx, rfl⟩
    have hne : (m.channel x.ptr).life ≠ .absent := by
      rcases alive_of_modes hl hmode hmem with hlife | hlife <;> rw [hlife] <;> nofun
    have heq := hl.manned.thread x hx hne
    rw [heq]
    exact ⟨rfl, hl.identified.nonzero _ hmem hne⟩
  refine
    { free := free_of_modes hl hmode
      alive := fun p => ⟨ha.live p, alive_of_modes hl hmode⟩
      silent := silent_of_modes hl hmode
      thread := fun x hx => (hthread x hx).1
      inj := fun x hx y hy heq => ?_ }
  exact hl.identified.inj x hx y hy heq (hthread x hx).2

end Unlocked

theorem allocates_of_assumed (s : State Tid) (l : Label Tid) (h : Assumed s l) :
    Allocates s l := by
  cases l with
  | inr b => trivial
  | inl l =>
      cases l with
      | call t c => trivial
      | step t e =>
          intro o ho hadd
          have hsupplies := (h o ho).2.1
          rw [hadd] at hsupplies
          exact hsupplies

/-- **The process is at rest between calls.** In every run that meets the
assumptions, for any number of threads and descriptors, a state in which no
thread is inside a wrapper is at rest. -/
theorem at_rest_between_calls {s : State Tid} (h : Run.Reachable step Assumed init s)
    (hquiet : ∀ t, s.thread t = none) : AtRest s.shared := by
  obtain ⟨ann, hl, hann⟩ := lively_of_reachable h
  obtain ⟨ann', ha, -⟩ := anchored_of_reachable (h.mono allocates_of_assumed)
  apply atRest_of_modes hl _ ha
  intro t
  have htext := hann t
  rw [hquiet t] at htext
  rw [show ann t = ({}, {}) from htext]

/-- A socket has been made. -/
theorem at_rest_after_calls :
    ∃ s : State Bool, Run.Reachable step Assumed init s ∧ (∀ t, s.thread t = none) ∧
      s.shared.world.table.ptrs = [1] ∧ AtRest s.shared := by
  have hrun : ((Run.exec step Assumed init oneSocket).map fun s =>
      ((s.thread true).isNone && (s.thread false).isNone, s.shared.world.table.ptrs)) =
        some (true, [1]) := by
    decide
  obtain ⟨s, hs, hproj⟩ := Option.map_eq_some_iff.mp hrun
  simp only [Prod.mk.injEq, Bool.and_eq_true, Option.isNone_iff_eq_none] at hproj
  obtain ⟨⟨htrue, hfalse⟩, hptrs⟩ := hproj
  have hquiet : ∀ t, s.thread t = none := fun t => by cases t <;> assumption
  have hreach := Run.reachable_of_exec hs
  exact ⟨s, hreach, hquiet, hptrs, at_rest_between_calls hreach hquiet⟩

end Machine

end CorePartitioning.Preload
