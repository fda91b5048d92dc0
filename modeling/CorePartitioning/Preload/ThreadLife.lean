import CorePartitioning.Preload.MachineRefines
import CorePartitioning.Preload.TablePointers

/-!
# ld_preload.c — the life of an entry's thread

What one step does to the life of an entry's thread. An application thread
that has added an entry owes it a thread until it has created it; one that
has sent the last request is ending the thread until the entry is out of
the table.
-/

namespace CorePartitioning.Preload

/-! ## What a call is doing to an entry's thread -/

/-- The call is ending the thread of the entry at `p`. -/
structure Ann.Ends (h : Ann) (p : Ptr) : Prop where
  mode : h.mode = .write
  entry : ∃ fd, h.entry = some (p, fd)
  talk : h.talk ≠ .found

/-- The call has added the entry at `p` and not created its thread. -/
structure Ann.Owes (h : Ann) (p : Ptr) : Prop where
  tmp : h.tmp = some p
  started : h.started = false

theorem Ann.idle_of_ends {h : Ann} (hc : h.Coherent) {p : Ptr} (he : h.Ends p) :
    h.talk ≠ .idle := by
  obtain ⟨fd, hentry⟩ := he.entry
  rw [Ne, hc.talk, hentry]
  nofun

/-- Before it looks something up or unlocks, a writer is ending no thread. -/
theorem Ann.not_ends {h : Ann} (hc : h.Coherent)
    (ht : h.talk = .idle ∨ h.talk = .found ∨ h.mode = .read ∧ h.talk = .answered) (p : Ptr) :
    ¬ h.Ends p := by
  intro he
  obtain htalk | htalk | ⟨hmode, -⟩ := ht
  · exact Ann.idle_of_ends hc he htalk
  · exact he.talk htalk
  · rw [he.mode] at hmode
    cases hmode

/-- A call that ends a thread goes on until the entry is out of the table. -/
theorem Ann.Ends.next {h : Ann} (hc : h.Coherent) {o : Op} (hp : h.pre o) (r : o.Res) {p : Ptr}
    (he : h.Ends p) :
    (h.next o r).Ends p ∨ ∃ fd, o = .fdtable_delete fd ∧ h.entry = some (p, fd) := by
  cases o with
  | errno | set_errno | set_NetorFile | set_pid | fdtable_getnumber | fdtable_add | set_thr_fd
  | pthread_create | original => exact .inl ⟨he.mode, he.entry, he.talk⟩
  | pthread_rwlock x =>
      cases x with
      | rdlock =>
          obtain hm | ⟨-, hm, -⟩ := hp
          · rw [he.mode] at hm
            cases hm
          · rw [he.mode] at hm
            cases hm
      | wrlock =>
          have hm : h.mode = .none := hp
          rw [he.mode] at hm
          cases hm
      | unlock => exact absurd he (Ann.not_ends hc (Ann.MayUnlock.talk hp) p)
  | fdtable_get_by_fd_all fd =>
      exact absurd he (Ann.not_ends hc ((Ann.MayLookup.talk hp).imp_right .inr) p)
  | fdtable_get_by_fd fd k => exact absurd he (Ann.not_ends hc (hp.1.talk.imp_right .inr) p)
  | fdtable_delete fd =>
      obtain ⟨q, hq, -, -⟩ := hp
      obtain ⟨fd', hentry⟩ := he.entry
      obtain ⟨rfl, rfl⟩ := Prod.mk.inj (Option.some.inj (hq.symm.trans hentry))
      exact .inr ⟨fd, rfl, hq⟩
  | pthread_join | CPART_send_to_thread | CPART_recv_from_thread =>
      exact .inl ⟨he.mode, he.entry, nofun⟩

/-- A call that has added an entry creates its thread. -/
theorem Ann.Owes.next {h : Ann} {o : Op} (hp : h.pre o) (r : o.Res) {p : Ptr} (ho : h.Owes p) :
    (h.next o r).Owes p ∨ o = .pthread_create (some p) := by
  have htmp : h.tmp ≠ none := by
    rw [ho.tmp]
    nofun
  cases o with
  | errno | set_errno | set_NetorFile | set_pid | fdtable_getnumber | fdtable_delete | set_thr_fd
  | pthread_join | CPART_send_to_thread | CPART_recv_from_thread | original =>
      exact .inl ⟨ho.tmp, ho.started⟩
  | fdtable_add => exact absurd (Ann.MayAdd.tmp hp) htmp
  | pthread_create tmp =>
      rw [Ann.MayStart.tmp hp, ho.tmp]
      exact .inr rfl
  | pthread_rwlock x =>
      cases x with
      | rdlock | wrlock => exact .inl ⟨ho.tmp, ho.started⟩
      | unlock =>
          have hstarted := ((Ann.MayUnlock.complete hp) htmp).2
          rw [ho.started] at hstarted
          cases hstarted
  | fdtable_get_by_fd_all fd => exact absurd (Ann.MayLookup.tmp hp) htmp
  | fdtable_get_by_fd fd k => exact absurd hp.1.tmp htmp

/-- Who owes a thread after an operation owed it before, or has just added
the entry. -/
theorem Ann.Owes.prev {h : Ann} {o : Op} (hp : h.pre o) {r : o.Res} {p : Ptr}
    (ho : (h.next o r).Owes p) (htmp : h.tmp = some p) :
    h.Owes p ∧ o ≠ .pthread_create (some p) := by
  obtain ⟨htmp', hstarted⟩ := ho
  have hne : h.tmp ≠ none := by
    rw [htmp]
    nofun
  cases o with
  | errno | set_errno | set_NetorFile | set_pid | fdtable_getnumber | fdtable_delete | set_thr_fd
  | pthread_join | CPART_send_to_thread | CPART_recv_from_thread | original =>
      exact ⟨⟨htmp, hstarted⟩, nofun⟩
  | fdtable_add => exact absurd (Ann.MayAdd.tmp hp) hne
  | pthread_create tmp => cases hstarted
  | pthread_rwlock x =>
      cases x with
      | rdlock | wrlock => exact ⟨⟨htmp, hstarted⟩, nofun⟩
      | unlock => cases htmp'
  | fdtable_get_by_fd_all fd => exact absurd (Ann.MayLookup.tmp hp) hne
  | fdtable_get_by_fd fd k => exact absurd hp.1.tmp hne

/-- Descriptor 0 comes from an original call: what an entry's thread answers
is checked to be positive. -/
theorem Ann.fresh_next {h : Ann} (h0 : h.fresh ≠ some 0) {o : Op} {r : o.Res}
    (horiginal : ∀ c w, (⟨o, r⟩ : (o : Op) × o.Res) = ⟨.original c, w⟩ → c.creates = true →
      w.setWidth 32 ≠ (0 : CInt)) : (h.next o r).fresh ≠ some 0 := by
  cases o with
  | pthread_rwlock x => cases x <;> exact h0
  | fdtable_get_by_fd fd k => cases r <;> exact h0
  | fdtable_get_by_fd_all fd =>
      obtain ⟨entry, talk, missed, heq⟩ := h.lookupAll_eq fd r
      show (h.lookupAll fd r).fresh ≠ some 0
      rw [heq]
      exact h0
  | CPART_recv_from_thread p =>
      intro hzero
      simp only [Ann.next] at hzero
      split at hzero
      · rename_i hpos
        rw [Option.some.inj hzero] at hpos
        simp at hpos
      · exact h0 hzero
  | original c =>
      intro hzero
      simp only [Ann.next] at hzero
      split at hzero
      · exact horiginal c r rfl ‹_› (newDescriptor_eq hzero).1.symm
      · exact h0 hzero
  | _ => exact h0

namespace Machine

variable {Tid : Type} [DecidableEq Tid] {m m' : Machine Tid} {ann : Tid → Ann} {t : Tid}

/-! ## What an operation does to a thread -/

/-- A new entry has a new address and no thread. -/
theorem sem_add {e : Env} {r : Option Ptr} (h : m.sem t e .fdtable_add = some (r, m')) :
    (r = none ∧ m'.world.table = m.world.table ∧ m'.channel = m.channel) ∨
      (r = some m.world.table.nextPtr ∧
        m'.world.table = (fdtable_add m.world.table m.world.pid).2 ∧
        m'.channel = Function.update m.channel m.world.table.nextPtr {}) := by
  obtain ⟨hw, heq⟩ := sem_plain rfl h
  have hchannel : m'.channel = (m.after t e .fdtable_add r).channel := by
    rw [heq]
  have hchange := sem_change hw
  generalize htable : m'.world.table = tbl at hchange
  rw [hchannel]
  cases hchange with
  | keep hm => cases hm
  | write hw => cases hw
  | add_fails => exact .inl ⟨rfl, rfl, rfl⟩
  | add => exact .inr ⟨rfl, rfl, rfl⟩

theorem result_of_create {w w' : World Tid} {e : Env} {tmp : Option Ptr} {r : CInt}
    (h : Preload.sem t e w (.pthread_create tmp) = some (r, w')) : r = e.created := by
  simp only [Preload.sem] at h
  split at h
  · obtain ⟨tbl, -, htbl⟩ := Option.map_eq_some_iff.mp h
    exact (Prod.mk.inj htbl).1.symm
  · exact (Prod.mk.inj (Option.some.inj h)).1.symm

/-- An application thread creates an entry's thread; the rest of its life it
lives on its own. -/
theorem life_of_sem {e : Env} {o : Op} {r : o.Res} (h : m.sem t e o = some (r, m')) (p : Ptr) :
    ((m'.channel p).life = (m.channel p).life ∧ (m'.channel p).thread = (m.channel p).thread ∧
        (m'.channel p).send_data = (m.channel p).send_data ∧
        (o = .pthread_create (some p) → e.created ≠ 0)) ∨
      (o = .fdtable_add ∧ p = m.world.table.nextPtr ∧ m'.channel p = {}) ∨
      (o = .pthread_create (some p) ∧ e.created = 0 ∧ (m'.channel p).life = .created ∧
        (m'.channel p).thread = e.thread ∧ (m'.channel p).send_data = (m.channel p).send_data) := by
  have hset : ∀ (q : Ptr) (ch : Channel Tid), ch.life = (m.channel q).life →
      ch.thread = (m.channel q).thread → ch.send_data = (m.channel q).send_data →
      ((m.set q ch).channel p).life = (m.channel p).life ∧
        ((m.set q ch).channel p).thread = (m.channel p).thread ∧
        ((m.set q ch).channel p).send_data = (m.channel p).send_data := by
    intro q ch hl ht hs
    apply set_channel_of (P := fun ch => ch.life = (m.channel p).life ∧
      ch.thread = (m.channel p).thread ∧ ch.send_data = (m.channel p).send_data)
    · rintro rfl
      exact ⟨hl, ht, hs⟩
    · exact fun _ => ⟨rfl, rfl, rfl⟩
  cases o with
  | CPART_send_to_thread args q =>
      obtain ⟨a, -, rfl⟩ := sem_send h
      obtain ⟨hlife, hthread, hdata⟩ := hset q { m.channel q with exchange := a } rfl rfl rfl
      exact .inl ⟨hlife, hthread, hdata, nofun⟩
  | CPART_recv_from_thread q =>
      obtain ⟨a, -, rfl⟩ := sem_recv h
      obtain ⟨hlife, hthread, hdata⟩ := hset q { m.channel q with exchange := a } rfl rfl rfl
      exact .inl ⟨hlife, hthread, hdata, nofun⟩
  | pthread_join q =>
      obtain ⟨-, rfl⟩ := sem_join h
      exact .inl ⟨rfl, rfl, rfl, nofun⟩
  | fdtable_add =>
      obtain ⟨-, -, hchannel⟩ | ⟨-, -, hchannel⟩ := sem_add h
      · rw [hchannel]
        exact .inl ⟨rfl, rfl, rfl, nofun⟩
      · rw [hchannel]
        by_cases hpq : p = m.world.table.nextPtr
        · rw [hpq, Function.update_self]
          exact .inr (.inl ⟨rfl, rfl, rfl⟩)
        · rw [Function.update_of_ne hpq]
          exact .inl ⟨rfl, rfl, rfl, nofun⟩
  | pthread_create tmp =>
      obtain ⟨hw, heq⟩ := sem_plain rfl h
      have hchannel : m'.channel = (m.after t e (.pthread_create tmp) r).channel := by
        rw [heq]
      rw [hchannel]
      cases tmp with
      | none => exact .inl ⟨rfl, rfl, rfl, nofun⟩
      | some q =>
          have hr := result_of_create hw
          by_cases hcreated : r = 0
          · rw [show m.after t e (.pthread_create (some q)) r = m.set q _ from if_pos hcreated]
            by_cases hpq : p = q
            · subst hpq
              rw [set_channel, Function.update_self]
              exact .inr (.inr ⟨rfl, hr.symm.trans hcreated, rfl, rfl, rfl⟩)
            · rw [set_channel, Function.update_of_ne hpq]
              refine .inl ⟨rfl, rfl, rfl, ?_⟩
              rintro ⟨⟩
              exact absurd rfl hpq
          · rw [show m.after t e (.pthread_create (some q)) r = m from if_neg hcreated]
            exact .inl ⟨rfl, rfl, rfl, fun _ => hr ▸ hcreated⟩
  | _ =>
      rw [(sem_plain rfl h).2]
      exact .inl ⟨rfl, rfl, rfl, nofun⟩

omit [DecidableEq Tid] in
/-- A step of a thread is one of a thread that has been created. -/
theorem Serves.life {b : ThreadStep} (h : m.Serves b m') (q : Ptr) :
    (m'.channel q).thread = (m.channel q).thread ∧
      ((m'.channel q).life = .absent ↔ (m.channel q).life = .absent) := by
  have hset : ∀ {p : Ptr} {ch : Channel Tid}, (m.channel p).life ≠ .absent →
      ch.thread = (m.channel p).thread → ch.life ≠ .absent →
      ((m.set p ch).channel q).thread = (m.channel q).thread ∧
        (((m.set p ch).channel q).life = .absent ↔ (m.channel q).life = .absent) := by
    intro p ch hl ht hl'
    apply set_channel_of (P := fun ch => ch.thread = (m.channel q).thread ∧
      (ch.life = .absent ↔ (m.channel q).life = .absent))
    · rintro rfl
      exact ⟨ht, fun h => absurd h hl', fun h => absurd h hl⟩
    · exact fun _ => ⟨rfl, Iff.rfl⟩
  cases h with
  | unfound _ _ hl => exact hset (by rw [hl]; nofun) rfl nofun
  | start _ _ hl =>
      refine hset (by rw [hl]; nofun) rfl ?_
      dsimp only
      split <;> nofun
  | recv_from_app hl => exact hset (by rw [hl]; nofun) rfl (by rw [hl]; nofun)
  | switch o hl =>
      rw [perform_channel]
      exact hset (by rw [hl]; nofun) rfl (by rw [hl]; nofun)
  | send_to_app hl =>
      refine hset (by rw [hl]; nofun) rfl ?_
      dsimp only
      split <;> nofun

/-! ## The invariant -/

/-- The pointers are good, and a thread that has not reached its loop has
received nothing. -/
structure Tended (m : Machine Tid) (ann : Tid → Ann) : Prop where
  held : Held m.world.lock ann
  kept : Kept m.world.table ann
  unstarted : ∀ t p, (ann t).Owes p → (m.channel p).life = .absent
  waiting : ∀ p, (m.channel p).life = .absent ∨ (m.channel p).life = .created →
    (m.channel p).exchange.phase = .waiting

variable (ann) in
/-- An entry after `t`'s operation is one from before, or new and without
a thread. -/
theorem ptrs_sem {e : Env} {o : Op} {r : o.Res} (ho : m.sem t e o = some (r, m')) {p : Ptr}
    (hmem : p ∈ m'.world.table.ptrs) :
    p ∈ m.world.table.ptrs ∨ m'.channel p = {} ∧ ((ann t).next o r).Owes p := by
  obtain ⟨recv_data, hw⟩ := sem_world ho
  obtain ⟨rfl, htable⟩ | ⟨fd, -, htable⟩ | ⟨hptrs, -⟩ := (sem_change hw).ptrs_cases
  · rw [htable] at hmem
    rcases List.mem_cons.mp hmem with rfl | hmem
    · obtain ⟨-, hsame, -⟩ | ⟨rfl, -, hchannel⟩ := sem_add ho
      · rw [hsame] at htable
        exact absurd (congrArg FdTable.nextPtr htable) (Nat.lt_succ_self _).ne
      · refine .inr ⟨?_, rfl, rfl⟩
        rw [hchannel]
        exact Function.update_self ..
    · exact .inl hmem
  · rw [htable] at hmem
    exact .inl ((FdTable.fdtable_delete_ptrs _ fd).mem hmem)
  · rw [hptrs] at hmem
    exact .inl hmem

omit [DecidableEq Tid] in
theorem tended_init [DecidableEq Tid] : Tended ({} : Machine Tid) fun _ => {} where
  held := held_init
  kept := kept_init
  unstarted := nofun
  waiting _ _ := rfl

namespace Tended

/-- The thread of an entry from before lives on, or has just been created. -/
theorem life_sem (hm : Tended m ann) {e : Env} {o : Op} {r : o.Res}
    (ho : m.sem t e o = some (r, m')) {p : Ptr} (hp : p ∈ m.world.table.ptrs) :
    (m'.channel p).life = (m.channel p).life ∧ (o = .pthread_create (some p) → e.created ≠ 0) ∨
      (m'.channel p).life = .created := by
  obtain ⟨hlife, -, -, hne⟩ | ⟨-, rfl, -⟩ | ⟨-, -, hlife, -⟩ := life_of_sem ho p
  · exact .inl ⟨hlife, hne⟩
  · exact absurd (hm.kept.lt _ hp) (Nat.lt_irrefl _)
  · exact .inr hlife

/-- A thread that is ended stays so until its entry is gone. -/
theorem ends_sem (hm : Tended m ann) {e : Env} {o : Op} {r : o.Res} (hp : (ann t).pre o)
    (ho : m.sem t e o = some (r, m')) {p : Ptr} (hmem : p ∈ m'.world.table.ptrs)
    (he : ∃ u, (ann u).Ends p) : ∃ u, (Function.update ann t ((ann t).next o r) u).Ends p := by
  obtain ⟨u, he⟩ := he
  by_cases hut : u = t
  · subst hut
    obtain hnext | ⟨fd, rfl, hentry⟩ := he.next (hm.held.coherent u) hp r
    · refine ⟨u, ?_⟩
      rwa [Function.update_self]
    · -- the entry is out of the table
      exfalso
      obtain ⟨x, hx, hptr⟩ := hm.kept.writer u p fd he.mode hentry
      obtain ⟨hw, -⟩ := sem_plain rfl ho
      have htable : m'.world.table = (fdtable_delete m.world.table fd).2 := by
        rw [← (Prod.mk.inj (Option.some.inj hw)).2]
        rfl
      rw [htable, hm.kept.toAddressed.delete hx] at hmem
      exact hmem.2 hptr.symm
  · refine ⟨u, ?_⟩
    rwa [Function.update_of_ne hut]

/-- **One operation of an application thread.** -/
theorem sem (hm : Tended m ann) {e : Env} {o : Op} {r : o.Res} (hp : (ann t).pre o)
    (ho : m.sem t e o = some (r, m')) :
    Tended m' (Function.update ann t ((ann t).next o r)) := by
  obtain ⟨recv_data, hw⟩ := sem_world ho
  have hkept := hm.kept.sem hm.held hp hw
  refine ⟨hm.held.sem hp hw, hkept, fun u p howes => ?_, fun p hlife => ?_⟩
  · obtain ⟨htmp, hmem⟩ | ⟨rfl, rfl, rfl, -⟩ := hm.kept.tmp_sem hw howes.tmp
    · have howed : (ann u).Owes p ∧ o ≠ .pthread_create (some p) := by
        by_cases hut : u = t
        · subst hut
          rw [Function.update_self] at howes
          exact howes.prev hp htmp
        · rw [Function.update_of_ne hut] at howes
          refine ⟨howes, ?_⟩
          -- each added entry is one thread's
          rintro rfl
          exact hut (hm.kept.inj u t p htmp (Ann.MayStart.tmp hp).symm)
      obtain ⟨hsame, -⟩ | ⟨-, rfl, -⟩ | ⟨hcreate, -⟩ := life_of_sem ho p
      · rw [hsame]
        exact hm.unstarted u p howed.1
      · exact absurd (hm.kept.lt _ hmem) (Nat.lt_irrefl _)
      · exact absurd hcreate howed.2
    · obtain ⟨rfl, -, -⟩ | ⟨-, -, hchannel⟩ := sem_add ho
      · rw [Function.update_self] at howes
        cases howes.tmp
      · rw [hchannel, Function.update_self]
  · obtain hsame | hnew := phase_of_sem ho p
    · rw [hsame]
      obtain ⟨hsame, -⟩ | ⟨-, rfl, hnew⟩ | ⟨rfl, -⟩ := life_of_sem ho p
      · rw [hsame] at hlife
        exact hm.waiting p hlife
      · rw [← hsame, hnew]
        rfl
      · have howes : (ann t).Owes p := ⟨(Ann.MayStart.tmp hp).symm, Ann.MayStart.started hp⟩
        exact hm.waiting p (.inl (hm.unstarted t p howes))
    · rw [hnew]
      rfl

/-- **One step of an entry's thread.** -/
theorem serves {b : ThreadStep} (hm : Tended m ann) (h : m.Serves b m') : Tended m' ann := by
  have hworld := h.world
  refine ⟨?_, ?_, fun t p howes => ?_, fun q hlife => ?_⟩
  · rw [hworld]
    exact hm.held
  · rw [hworld]
    exact hm.kept
  · exact (h.life p).2.mpr (hm.unstarted t p howes)
  · have hset : ∀ {p : Ptr} {ch : Channel Tid},
        (ch.life = .absent ∨ ch.life = .created → ch.exchange.phase = .waiting) →
        ((m.set p ch).channel q).life = .absent ∨ ((m.set p ch).channel q).life = .created →
        ((m.set p ch).channel q).exchange.phase = .waiting := by
      intro p ch hp
      apply set_channel_of (P := fun ch => ch.life = .absent ∨ ch.life = .created →
        ch.exchange.phase = .waiting)
      · exact fun _ => hp
      · exact fun _ => hm.waiting q
    cases h with
    | unfound _ _ hl => exact hset (fun _ => hm.waiting _ (.inr hl)) hlife
    | start _ _ hl => exact hset (fun _ => hm.waiting _ (.inr hl)) hlife
    | recv_from_app hl =>
        refine hset (fun hl' => ?_) hlife
        rw [hl] at hl'
        rcases hl' with hl' | hl' <;> cases hl'
    | switch o hl =>
        rw [perform_channel] at hlife ⊢
        refine hset (fun hl' => ?_) hlife
        rw [hl] at hl'
        rcases hl' with hl' | hl' <;> cases hl'
    | send_to_app hl ha =>
        obtain ⟨r, -, -, rfl⟩ := Ipc.Exchange.send_to_app_eq_some ha
        exact hset (fun _ => rfl) hlife

/-- A thread enters or leaves a wrapper. -/
theorem update (hm : Tended m ann) {h : Ann}
    (hheld : Held m.world.lock (Function.update ann t h)) (hq : h.Quiet) :
    Tended m (Function.update ann t h) where
  held := hheld
  kept := hm.kept.update hq.entry hq.tmp
  unstarted := by
    rw [Function.forall_update_iff ann fun _ h => ∀ p, h.Owes p → (m.channel p).life = .absent]
    refine ⟨fun p howes => ?_, fun u _ => hm.unstarted u⟩
    have htmp := howes.tmp
    rw [hq.tmp] at htmp
    cases htmp
  waiting := hm.waiting

/-- What is recorded does not matter. -/
theorem write (hm : Tended m ann) (x : LogEntry Tid) : Tended (m.write x) ann :=
  { hm with }

end Tended

end Machine

end CorePartitioning.Preload
