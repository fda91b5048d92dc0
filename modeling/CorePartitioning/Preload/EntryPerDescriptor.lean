import CorePartitioning.Preload.DescriptorHolders
import CorePartitioning.Preload.LockWait

/-!
# ld_preload.c — one entry for an open descriptor

The original call that gives a descriptor runs before the table is locked,
the one that takes it back after it is unlocked, so the table and the
kernel's descriptors change apart. What keeps them together is the
descriptor itself: only the wrapper it was given to names an entry with it,
and only the application to which that wrapper has passed it on closes it.

An entry is added before it is named. In between its descriptor is -12, and
of these there can be several, since `accept` and `epoll_create` insert
under the read lock.
-/

namespace CorePartitioning.Preload

/-- No entry has the descriptor. -/
def FdTable.Vacant (tbl : FdTable) (fd : CInt) : Prop := ∀ x ∈ tbl.entries, x.thr_fd ≠ fd

/-- The call has added the entry at `p` and not named it. -/
structure Ann.Nameless (h : Ann) (p : Ptr) : Prop where
  tmp : h.tmp = some p
  named : h.named = false

/-- The call may still name an entry with the descriptor it found missing. -/
structure Ann.Names (h : Ann) (fd : CInt) : Prop where
  fresh : h.fresh = some fd
  mode : h.mode ≠ .none
  missed : h.missed = some fd
  named : h.tmp = none ∨ h.named = false

theorem Ann.Nameless.next {h : Ann} {o : Op} (hp : h.pre o) (r : o.Res) {p : Ptr}
    (hn : h.Nameless p) : (h.next o r).Nameless p ∨ ∃ fd, o = .set_thr_fd (some p) fd := by
  have htmp : h.tmp ≠ none := by
    rw [hn.tmp]
    nofun
  cases o with
  | errno | set_errno | set_NetorFile | set_pid | fdtable_getnumber | fdtable_delete
  | pthread_create | pthread_join | CPART_send_to_thread | CPART_recv_from_thread | original =>
      exact .inl ⟨hn.tmp, hn.named⟩
  | fdtable_add => exact absurd (Ann.MayAdd.tmp hp) htmp
  | set_thr_fd tmp fd =>
      rw [Ann.MayName.tmp hp, hn.tmp]
      exact .inr ⟨fd, rfl⟩
  | pthread_rwlock x =>
      cases x with
      | rdlock | wrlock => exact .inl ⟨hn.tmp, hn.named⟩
      | unlock =>
          have hnamed := ((Ann.MayUnlock.complete hp) htmp).1
          rw [hn.named] at hnamed
          cases hnamed
  | fdtable_get_by_fd_all fd => exact absurd (Ann.MayLookup.tmp hp) htmp
  | fdtable_get_by_fd fd k => exact absurd hp.1.tmp htmp

/-- A call that misses its descriptor as before may name an entry as before. -/
theorem Ann.Names.prev {h : Ann} {o : Op} (hp : h.pre o) {r : o.Res} {fd : CInt}
    (hn : (h.next o r).Names fd) (hmissed : h.missed = some fd) : h.Names fd := by
  obtain ⟨hfresh, hmode, hmissed', hnamed⟩ := hn
  cases o with
  | errno | set_errno | set_NetorFile | set_pid | fdtable_getnumber | fdtable_delete
  | pthread_create | pthread_join | CPART_send_to_thread =>
      exact ⟨hfresh, hmode, hmissed, hnamed⟩
  | fdtable_add => exact ⟨hfresh, hmode, hmissed, .inl (Ann.MayAdd.tmp hp)⟩
  | set_thr_fd tmp fd' =>
      refine ⟨hfresh, hmode, hmissed, .inl ?_⟩
      rcases hnamed with htmp | hnamed
      · exact htmp
      · cases hnamed
  | pthread_rwlock x =>
      cases x with
      | rdlock | wrlock => cases hmissed'
      | unlock => exact absurd rfl hmode
  | fdtable_get_by_fd_all fd' =>
      obtain ⟨entry, talk, missed, heq⟩ := h.lookupAll_eq fd' r
      have hfresh' : (h.lookupAll fd' r).fresh = some fd := hfresh
      rw [heq] at hfresh'
      exact ⟨hfresh', Ann.MayLookup.mode hp, hmissed, .inl (Ann.MayLookup.tmp hp)⟩
  | fdtable_get_by_fd fd' k =>
      refine ⟨?_, hp.1.mode, hmissed, .inl hp.1.tmp⟩
      cases r <;> exact hfresh
  | CPART_recv_from_thread p => cases hmissed'
  | original c => exact absurd (Ann.MayPerform.mode hp) hmode

namespace Machine

variable {Tid : Type} [DecidableEq Tid] {m m' : Machine Tid} {ann : Tid → Ann} {t : Tid}
  {fd : CInt}

/-! ## The invariant -/

/-- The descriptor is not on its way to the application. -/
def Settled (m : Machine Tid) (ann : Tid → Ann) (fd : CInt) : Prop :=
  0 < fd.toInt ∧ ∀ a : Holder Tid, a.underway = true → ¬ Holds m ann fd a

structure Registered (m : Machine Tid) (ann : Tid → Ann) : Prop extends Tended m ann where
  calls : ∀ t c, (ann t).call = some c → c.manages = true
  accepts : Carried Accepts m ann
  tokens : Tokens m ann
  entries : ∀ x ∈ m.world.table.entries, (descriptor m.log x.thr_fd).opened = true ∨
    x.thr_fd = -12 ∧ ∃ t, (ann t).Nameless x.ptr
  distinct : ∀ x ∈ m.world.table.entries, ∀ y ∈ m.world.table.entries, x.thr_fd = y.thr_fd →
    x.thr_fd ≠ -12 → x.ptr = y.ptr
  names : ∀ t fd, (ann t).Names fd → m.world.table.Vacant fd
  ending : ∀ t c fd, (ann t).call = some c → (ann t).orig = none → (ann t).missed = some fd →
    (c.closes = some fd ∨ c.shuts = some fd ∧ (descriptor m.log fd).shutting t = true) →
    m.world.table.Vacant fd
  passed : ∀ fd, (descriptor m.log fd).passed = true → Settled m ann fd
  shutting : ∀ t fd, (descriptor m.log fd).shutting t = true → Settled m ann fd
  retired : ∀ fd, (descriptor m.log fd).retired = true →
    Settled m ann fd ∧ m.world.table.Vacant fd

namespace Registered

theorem passable (h : Registered m ann) : Passable m.world.table := by
  intro x hx
  obtain hopen | ⟨hfd, -⟩ := h.entries x hx
  · have hpos := h.tokens.positive x.thr_fd hopen
    constructor <;> (intro heq; rw [heq] at hpos; revert hpos; decide)
  · rw [hfd]
    decide

/-- Whoever is about to name an entry with a descriptor has it. -/
theorem holds_of_names (h : Registered m ann) {tmp : Option Ptr}
    (hp : (ann t).MayName tmp fd) : Holds m ann fd (.thread t) ∧ 0 < fd.toInt := by
  have hholds : Holds m ann fd (.thread t) := hp.fresh
  exact ⟨hholds, h.tokens.positive fd (h.tokens.backed fd _ hholds)⟩

/-- The descriptor a call is ending is not on its way to the application. -/
theorem settled_of_ending (h : Registered m ann) {c : Syscall} (hcall : (ann t).call = some c)
    (horig : (ann t).orig = none)
    (hc : c.closes = some fd ∨ c.shuts = some fd ∧ (descriptor m.log fd).shutting t = true) :
    Settled m ann fd := by
  obtain hcloses | ⟨-, hshutting⟩ := hc
  · have hholds : Holds m ann fd (.closing t) := ⟨horig, c, hcall, hcloses⟩
    refine ⟨h.tokens.positive fd (h.tokens.backed fd _ hholds), fun a hunderway ha => ?_⟩
    rw [h.tokens.single fd a _ ha hholds] at hunderway
    cases hunderway
  · exact h.shutting t fd hshutting

/-- A descriptor without an entry gets one from the wrapper that has it. -/
theorem vacant_sem (hv : m.world.table.Vacant fd) (hfd : 0 < fd.toInt) {e : Env} {o : Op}
    {r : o.Res} (ho : m.sem t e o = some (r, m')) (hnot : ∀ tmp, o ≠ .set_thr_fd tmp fd) :
    m'.world.table.Vacant fd := by
  obtain ⟨recv_data, hw⟩ := sem_world ho
  intro x' hx'
  obtain ⟨rfl, rfl⟩ | ⟨x, hx, ⟨rfl, -⟩ | ⟨f, hf, rfl⟩⟩ := (sem_change hw).origin hx'
  · intro heq
    rw [← heq] at hfd
    cases hfd
  · exact hv _ hx
  · cases hf with
    | thr_fd tmp fd' =>
        rintro rfl
        exact hnot _ rfl
    | _ => exact hv x hx

/-- Next to a writer with an entry there is no entry without a name. -/
theorem named_of_writer (h : Registered m ann) (hmode : (ann t).mode = .write)
    (hentry : (ann t).entry ≠ none) {x : ThreadInfo} (hx : x ∈ m.world.table.entries) :
    x.thr_fd ≠ -12 := by
  intro hfd
  obtain hopen | ⟨-, u, hn⟩ := h.entries x hx
  · have hpos := h.tokens.positive x.thr_fd hopen
    rw [hfd] at hpos
    cases hpos
  · have htmp : (ann u).tmp ≠ none := by
      rw [hn.tmp]
      nofun
    obtain ⟨hlocked, hnone, -⟩ := (h.held.coherent u).tmp htmp
    rw [h.held.eq_of_write hmode hlocked] at hnone
    exact hentry hnone

/-- What a call misses after its operation it missed before, or there is no
entry for it. -/
theorem missed_sem (h : Registered m ann) {e : Env} {o : Op} {r : o.Res} (hp : (ann t).pre o)
    (ho : m.sem t e o = some (r, m')) (hmissed : ((ann t).next o r).missed = some fd) :
    (ann t).missed = some fd ∨ m'.world.table.Vacant fd := by
  obtain ⟨recv_data, hw⟩ := sem_world ho
  cases o with
  | pthread_rwlock x =>
      cases x with
      | rdlock | wrlock => cases hmissed
      | unlock => exact .inl hmissed
  | fdtable_get_by_fd fd' k => cases r <;> exact .inl hmissed
  | CPART_recv_from_thread p => cases hmissed
  | fdtable_get_by_fd_all fd' =>
      have hnext : ((ann t).lookupAll fd' r).missed = some fd := hmissed
      obtain ⟨p, -, -, heq⟩ | ⟨p, -, -, heq⟩ | ⟨rfl, heq⟩ := (ann t).lookupAll_cases fd' r
      · rw [heq] at hnext
        exact .inl hnext
      · rw [heq] at hnext
        exact .inl hnext
      · rw [heq] at hnext
        obtain rfl := Option.some.inj hnext
        refine .inr ?_
        rw [sem_table rfl hw]
        have hnone : fdtable_get_by_fd_all m.world.table fd' = none := by
          have hres := (Prod.mk.inj (Option.some.inj hw)).1
          exact Option.map_eq_none_iff.mp hres
        rw [h.passable.get_by_fd_all, List.find?_eq_none] at hnone
        intro x hx heq
        exact hnone x hx (by simp [heq])
  | fdtable_delete fd' =>
      obtain rfl : fd' = fd := Option.some.inj hmissed
      obtain ⟨p, hentry, -, hmode⟩ := hp
      obtain ⟨x, hfound, -⟩ := h.kept.writer t p fd' hmode hentry
      obtain ⟨hx, hxfd⟩ := fdtable_search_mem hfound
      refine .inr fun y hy heq => ?_
      have htable : m'.world.table = (fdtable_delete m.world.table fd').2 := by
        rw [← (Prod.mk.inj (Option.some.inj hw)).2]
        rfl
      have hptr : y.ptr ∈ (fdtable_delete m.world.table fd').2.ptrs := by
        rw [← htable]
        exact FdTable.mem_ptrs.mpr ⟨y, hy, rfl⟩
      rw [htable] at hy
      have hy' := (FdTable.fdtable_delete_entries m.world.table fd').mem hy
      -- another entry would have the same descriptor
      refine ((h.kept.toAddressed.delete hfound).mp hptr).2 ?_
      refine h.distinct y hy' x hx ?_ (h.named_of_writer hmode (by rw [hentry]; nofun) hy')
      rw [heq]
      exact (beq_iff_eq.mp hxfd).symm
  | _ => exact .inl hmissed

section Sem

variable {e : Env} {o : Op} {r : o.Res} (h : Registered m ann) (hp : (ann t).pre o)
  (ho : m.sem t e o = some (r, m'))
include h hp ho

theorem settled_sem (hs : Settled m ann fd)
    (hgives : ∀ c, o = .original c → c.gives e.result ≠ some fd) :
    Settled m' (Function.update ann t ((ann t).next o r)) fd := by
  refine ⟨hs.1, fun a hunderway ha => ?_⟩
  obtain ⟨b, hb, hold⟩ | ⟨c, rfl, hg⟩ :=
    h.tokens.underway_sem h.toTended h.accepts hp ho hunderway ha
  · exact hs.2 b hb hold
  · exact hgives c rfl hg

theorem names_sem (u : Tid) (fd : CInt)
    (hn : (Function.update ann t ((ann t).next o r) u).Names fd) :
    m'.world.table.Vacant fd := by
  have hholds : ∀ v, (ann v).Names fd → Holds m ann fd (.thread v) := fun v hv => hv.fresh
  by_cases hut : u = t
  · subst hut
    rw [Function.update_self] at hn
    obtain hmissed | hvacant := h.missed_sem hp ho hn.missed
    · have hold := hn.prev hp hmissed
      have hpos := h.tokens.positive fd (h.tokens.backed fd _ (hholds u hold))
      refine vacant_sem (h.names u fd hold) hpos ho ?_
      rintro tmp rfl
      -- after the write the entry has its name
      obtain htmp | hnamed := hn.named
      · have hnull : tmp = none := (Ann.MayName.tmp hp).trans htmp
        obtain ⟨recv_data, hw⟩ := sem_world ho
        rw [hnull] at hw
        cases hw
      · cases hnamed
    · exact hvacant
  · rw [Function.update_of_ne hut] at hn
    have hpos := h.tokens.positive fd (h.tokens.backed fd _ (hholds u hn))
    refine vacant_sem (h.names u fd hn) hpos ho ?_
    rintro tmp rfl
    have heq := h.tokens.single fd _ _ (hholds u hn) (h.holds_of_names hp).1
    cases heq
    exact hut rfl

theorem ending_sem (u : Tid) (c : Syscall) (fd : CInt)
    (hcall : (Function.update ann t ((ann t).next o r) u).call = some c)
    (horig : (Function.update ann t ((ann t).next o r) u).orig = none)
    (hmissed : (Function.update ann t ((ann t).next o r) u).missed = some fd)
    (hc : c.closes = some fd ∨ c.shuts = some fd ∧ (descriptor m'.log fd).shutting u = true) :
    m'.world.table.Vacant fd := by
  -- the call was ending the descriptor before
  have hc' : c.closes = some fd ∨ c.shuts = some fd ∧ (descriptor m.log fd).shutting u = true := by
    refine hc.imp_right fun ⟨hshuts, hshutting⟩ => ⟨hshuts, ?_⟩
    by_cases horiginal : ∃ c, o = .original c
    · obtain ⟨c', rfl⟩ := horiginal
      rw [(sem_original ho).2.1, descriptor_append] at hshutting
      exact (Descriptor.shutting_performed hshutting).1
    · rwa [log_of_sem ho fun c hco => horiginal ⟨c, hco⟩] at hshutting
  have hstays : (ann u).call = some c → (ann u).orig = none → (ann u).missed = some fd →
      m'.world.table.Vacant fd := by
    intro hcall horig hmissed
    have hsettled := h.settled_of_ending hcall horig hc'
    refine vacant_sem (h.ending u c fd hcall horig hmissed hc') hsettled.1 ho ?_
    rintro tmp rfl
    exact hsettled.2 (.thread t) rfl (h.holds_of_names hp).1
  by_cases hut : u = t
  · subst hut
    rw [Function.update_self] at hcall horig hmissed
    rw [(ann u).next_call] at hcall
    have horiginal : ∀ c, o ≠ .original c := by
      rintro c' rfl
      cases horig
    rw [Ann.next_orig horiginal] at horig
    obtain hmissed | hvacant := h.missed_sem hp ho hmissed
    · exact hstays hcall horig hmissed
    · exact hvacant
  · rw [Function.update_of_ne hut] at hcall horig hmissed
    exact hstays hcall horig hmissed

/-- What the log tells until the descriptor is given again keeps it settled. -/
theorem settled_of_log (Q : Descriptor Tid → Prop)
    (hperformed : ∀ {d : Descriptor Tid} {c w},
      Q (d.step fd (.performed (some t) c w)) → Q d ∧ c.gives w ≠ some fd)
    (hsettled : Q (descriptor m.log fd) → Settled m ann fd) (hq : Q (descriptor m'.log fd)) :
    Settled m' (Function.update ann t ((ann t).next o r)) fd := by
  by_cases horiginal : ∃ c, o = .original c
  · obtain ⟨c, rfl⟩ := horiginal
    obtain ⟨hresult, hlog, -⟩ := sem_original ho
    rw [hlog, descriptor_append, hresult] at hq
    obtain ⟨hold, hgives⟩ := hperformed hq
    refine h.settled_sem hp ho (hsettled hold) ?_
    rintro c' ⟨⟩
    exact hgives
  · have hno : ∀ c, o ≠ .original c := fun c hco => horiginal ⟨c, hco⟩
    rw [log_of_sem ho hno] at hq
    exact h.settled_sem hp ho (hsettled hq) fun c hco => absurd hco (hno c)

theorem retired_sem (fd : CInt) (hretired : (descriptor m'.log fd).retired = true) :
    Settled m' (Function.update ann t ((ann t).next o r)) fd ∧ m'.world.table.Vacant fd := by
  by_cases horiginal : ∃ c, o = .original c
  · obtain ⟨c, rfl⟩ := horiginal
    obtain ⟨hresult, hlog, -, htable⟩ := sem_original ho
    rw [hlog, descriptor_append, hresult] at hretired
    obtain ⟨hgives, hwhy⟩ := Descriptor.retired_performed hretired
    have hsettled : Settled m ann fd ∧ m.world.table.Vacant fd := by
      have hend : ∀ k : Option CInt, c.descriptor = k → c.terminates = true → k = some fd →
          (c.closes = some fd ∨ c.shuts = some fd ∧ (descriptor m.log fd).shutting t = true) →
          Settled m ann fd ∧ m.world.table.Vacant fd := by
        intro k hk hterm hkfd hc
        have hmissed := (Ann.MayPerform.missed hp hterm).trans (hk.trans hkfd)
        exact ⟨h.settled_of_ending hp.call hp.orig hc, h.ending t c fd hp.call hp.orig hmissed hc⟩
      obtain hold | hcloses | ⟨hshuts, v, hv, hshutting⟩ := hwhy
      · exact h.retired fd hold
      · cases c with
        | close k => exact hend (some k) rfl rfl hcloses (.inl hcloses)
        | _ => cases hcloses
      · obtain rfl := Option.some.inj hv
        cases c with
        | shutdown k flags => exact hend (some k) rfl rfl hshuts (.inr ⟨hshuts, hshutting⟩)
        | _ => cases hshuts
    refine ⟨h.settled_sem hp ho hsettled.1 ?_, ?_⟩
    · rintro c' ⟨⟩
      exact hgives
    · rw [htable]
      exact hsettled.2
  · have hno : ∀ c, o ≠ .original c := fun c hco => horiginal ⟨c, hco⟩
    rw [log_of_sem ho hno] at hretired
    obtain ⟨hsettled, hvacant⟩ := h.retired fd hretired
    refine ⟨h.settled_sem hp ho hsettled fun c hco => absurd hco (hno c), ?_⟩
    refine vacant_sem hvacant hsettled.1 ho ?_
    rintro tmp rfl
    exact hsettled.2 (.thread t) rfl (h.holds_of_names hp).1

/-- An open descriptor with an entry stays open. -/
theorem opened_sem {x : ThreadInfo} (hx : x ∈ m.world.table.entries)
    (hopen : (descriptor m.log x.thr_fd).opened = true) :
    (descriptor m'.log x.thr_fd).opened = true := by
  by_cases horiginal : ∃ c, o = .original c
  · obtain ⟨c, rfl⟩ := horiginal
    rw [(sem_original ho).2.1, descriptor_append, Descriptor.opened_performed]
    refine .inr ⟨hopen, fun hcloses => ?_⟩
    -- a call closes a descriptor whose entry it has removed
    have hmissed : (ann t).missed = some x.thr_fd := by
      cases c with
      | close k => exact (Ann.MayPerform.missed hp rfl).trans hcloses
      | _ => cases hcloses
    exact h.ending t c _ hp.call hp.orig hmissed (.inl hcloses) x hx rfl
  · rwa [log_of_sem ho fun c hco => horiginal ⟨c, hco⟩]

theorem entries_sem (x' : ThreadInfo) (hx' : x' ∈ m'.world.table.entries) :
    (descriptor m'.log x'.thr_fd).opened = true ∨
      x'.thr_fd = -12 ∧ ∃ u, (Function.update ann t ((ann t).next o r) u).Nameless x'.ptr := by
  obtain ⟨recv_data, hw⟩ := sem_world ho
  have hkeeps : ∀ x ∈ m.world.table.entries, (∀ fd, o ≠ .set_thr_fd (some x.ptr) fd) →
      (descriptor m'.log x.thr_fd).opened = true ∨
        x.thr_fd = -12 ∧ ∃ u, (Function.update ann t ((ann t).next o r) u).Nameless x.ptr := by
    intro x hx hnot
    refine (h.entries x hx).imp (h.opened_sem hp ho hx) ?_
    rintro ⟨hfd, u, hn⟩
    refine ⟨hfd, u, ?_⟩
    by_cases hut : u = t
    · subst hut
      rw [Function.update_self]
      obtain hnext | ⟨fd, rfl⟩ := hn.next hp r
      · exact hnext
      · exact absurd rfl (hnot fd)
    · rwa [Function.update_of_ne hut]
  obtain ⟨rfl, rfl⟩ | ⟨x, hx, ⟨rfl, hno⟩ | ⟨f, hf, rfl⟩⟩ := (sem_change hw).origin hx'
  · refine .inr ⟨rfl, t, ?_⟩
    obtain ⟨-, htable, -⟩ | ⟨rfl, -, -⟩ := sem_add ho
    · rw [htable] at hx'
      exact absurd (h.kept.lt _ (FdTable.mem_ptrs.mpr ⟨_, hx', rfl⟩)) (Nat.lt_irrefl _)
    · rw [Function.update_self]
      exact ⟨rfl, rfl⟩
  · refine hkeeps _ hx ?_
    rintro fd rfl
    exact hno _ (.thr_fd (some _) fd)
  · cases hf with
    | thr_fd tmp fd =>
        obtain ⟨hholds, -⟩ := h.holds_of_names hp
        refine .inl ?_
        rw [log_of_sem ho nofun]
        exact h.tokens.backed fd _ hholds
    | _ => exact hkeeps x hx nofun

theorem distinct_sem (x' : ThreadInfo) (hx' : x' ∈ m'.world.table.entries) (y' : ThreadInfo)
    (hy' : y' ∈ m'.world.table.entries) (heq : x'.thr_fd = y'.thr_fd) (hne : x'.thr_fd ≠ -12) :
    x'.ptr = y'.ptr := by
  obtain ⟨recv_data, hw⟩ := sem_world ho
  -- an entry is named as before or has just been named
  have horigin : ∀ z' ∈ m'.world.table.entries, z'.thr_fd ≠ -12 →
      ∃ z ∈ m.world.table.entries, z'.ptr = z.ptr ∧
        (z'.thr_fd = z.thr_fd ∨ o = .set_thr_fd (some z.ptr) z'.thr_fd) := by
    intro z' hz' hfd
    obtain ⟨-, rfl⟩ | ⟨z, hz, ⟨rfl, -⟩ | ⟨f, hf, rfl⟩⟩ := (sem_change hw).origin hz'
    · exact absurd rfl hfd
    · exact ⟨_, hz, rfl, .inl rfl⟩
    · cases hf with
      | thr_fd tmp fd => exact ⟨z, hz, rfl, .inr rfl⟩
      | _ => exact ⟨z, hz, rfl, .inl rfl⟩
  have hvacant : ∀ {p fd}, o = .set_thr_fd (some p) fd → m.world.table.Vacant fd := by
    rintro p fd rfl
    obtain ⟨fd', hfresh, hmissed⟩ := ((h.held.coherent t).tmp (by
      rw [← Ann.MayName.tmp hp]
      nofun)).2.2
    obtain rfl := Option.some.inj (hfresh.symm.trans (Ann.MayName.fresh hp))
    exact h.names t fd' ⟨hfresh, (Ann.MayName.toMayWrite hp).mode, hmissed,
      .inr (Ann.MayName.named hp)⟩
  obtain ⟨x, hx, hxp, hxfd | hxo⟩ := horigin x' hx' hne
  · obtain ⟨y, hy, hyp, hyfd | hyo⟩ := horigin y' hy' (heq ▸ hne)
    · rw [hxp, hyp]
      exact h.distinct x hx y hy (by rw [← hxfd, ← hyfd, heq]) (hxfd ▸ hne)
    · exact absurd (hxfd.symm.trans heq) (hvacant hyo x hx)
  · obtain ⟨y, hy, hyp, hyfd | hyo⟩ := horigin y' hy' (heq ▸ hne)
    · exact absurd (hyfd.symm.trans heq.symm) (hvacant hxo y hy)
    · rw [hxp, hyp]
      rw [hxo] at hyo
      exact Option.some.inj (Op.set_thr_fd.inj hyo).1

/-- **One operation of an application thread.** -/
theorem sem (hgives : ∀ c, o = .original c → GivesFree m.log c e.result) :
    Registered m' (Function.update ann t ((ann t).next o r)) where
  toTended := h.toTended.sem hp ho
  calls u c hcall := by
    by_cases hut : u = t
    · subst hut
      rw [Function.update_self, (ann u).next_call] at hcall
      exact h.calls u c hcall
    · rw [Function.update_of_ne hut] at hcall
      exact h.calls u c hcall
  accepts := by
    refine h.accepts.sem h.toTended hp ho ?_
    rintro args q c fd - hask hterm
    rw [hask.args]
    have hmanages := h.calls t c hask.call
    have hdescriptor := hask.descriptor
    -- of the seven only `accept` is delegated and does not terminate
    cases c with
    | accept => rfl
    | close | shutdown => cases hterm
    | socket | «open» | openat | epoll_create => cases hdescriptor
    | _ => cases hmanages
  tokens := h.tokens.sem h.toTended h.accepts hp ho hgives
  entries := h.entries_sem hp ho
  distinct := h.distinct_sem hp ho
  names := h.names_sem hp ho
  ending := h.ending_sem hp ho
  passed fd := h.settled_of_log hp ho (·.passed = true) Descriptor.passed_performed (h.passed fd)
  shutting u fd :=
    h.settled_of_log hp ho (·.shutting u = true) Descriptor.shutting_performed (h.shutting u fd)
  retired := h.retired_sem hp ho

end Sem

/-- What the log tells after a step of an entry's thread it told before, and
the step did not give the descriptor. -/
theorem log_serves {b : ThreadStep} (hs : m.Serves b m') (Q : Descriptor Tid → Prop)
    (hperformed : ∀ {d : Descriptor Tid} {c w}, c.terminates = false →
      Q (d.step fd (.performed none c w)) → Q d ∧ c.gives w ≠ some fd)
    (hq : Q (descriptor m'.log fd)) :
    Q (descriptor m.log fd) ∧ ∀ p o c, b = .switch p o →
      dispatch (m.channel p).send_data = some c → c.gives o.result ≠ some fd := by
  by_cases hswitch : ∃ p o, b = .switch p o
  · obtain ⟨p, o, rfl⟩ := hswitch
    obtain ⟨hnone, hlog⟩ | ⟨c, hc, hlog⟩ := hs.switch_cases.1
    · rw [hlog] at hq
      refine ⟨hq, ?_⟩
      rintro p o c ⟨⟩ hc
      rw [hnone] at hc
      cases hc
    · rw [hlog, descriptor_append] at hq
      obtain ⟨hold, hgives⟩ := hperformed (dispatch_not_terminates hc) hq
      refine ⟨hold, ?_⟩
      rintro p' o' c' ⟨⟩ hc'
      obtain rfl : c = c' := Option.some.inj (hc.symm.trans hc')
      exact hgives
  · rw [hs.log fun p o hb => hswitch ⟨p, o, hb⟩] at hq
    exact ⟨hq, fun p o _ hb => absurd ⟨p, o, hb⟩ hswitch⟩

/-- No entry's thread closes a descriptor. -/
theorem opened_serves {b : ThreadStep} (hs : m.Serves b m')
    (hopen : (descriptor m.log fd).opened = true) : (descriptor m'.log fd).opened = true := by
  by_cases hswitch : ∃ p o, b = .switch p o
  · obtain ⟨p, o, rfl⟩ := hswitch
    obtain ⟨-, hlog⟩ | ⟨c, hc, hlog⟩ := hs.switch_cases.1
    · rwa [hlog]
    · rw [hlog, descriptor_append, Descriptor.opened_performed,
        Descriptor.closes_eq_none (dispatch_not_terminates hc)]
      exact .inr ⟨hopen, nofun⟩
  · rwa [hs.log fun p o hb => hswitch ⟨p, o, hb⟩]

/-- **One step of an entry's thread.** -/
theorem serves {b : ThreadStep} (h : Registered m ann) (hs : m.Serves b m')
    (hgives : ∀ p o, b = .switch p o →
      ∀ c ∈ dispatch (m.channel p).send_data, GivesFree m.log c o.result) :
    Registered m' ann := by
  have hworld := hs.world
  have hsettled : ∀ fd, Settled m ann fd →
      (∀ p o c, b = .switch p o → dispatch (m.channel p).send_data = some c →
        c.gives o.result ≠ some fd) → Settled m' ann fd := by
    refine fun fd hsettled hno => ⟨hsettled.1, fun a hunderway ha => ?_⟩
    obtain ⟨a', ha', hold⟩ | ⟨p, o, c, hb, hc, hg⟩ := underway_serves hs hunderway ha
    · exact hsettled.2 a' ha' hold
    · exact hno p o c hb hc hg
  have hshutting : ∀ u fd, (descriptor m'.log fd).shutting u = true →
      (descriptor m.log fd).shutting u = true ∧ ∀ p o c, b = .switch p o →
        dispatch (m.channel p).send_data = some c → c.gives o.result ≠ some fd :=
    fun u fd => log_serves hs (·.shutting u = true) fun _ => Descriptor.shutting_performed
  refine
    { toTended := h.toTended.serves hs
      calls := h.calls
      accepts := h.accepts.serves h.toTended hs
      tokens := h.tokens.serves hs hgives
      entries := ?_
      distinct := ?_
      names := ?_
      ending := ?_
      passed := fun fd hfd => ?_
      shutting := fun u fd hu => ?_
      retired := fun fd hfd => ?_ } <;> try rw [hworld]
  · exact fun x hx => (h.entries x hx).imp_left (opened_serves hs)
  · exact h.distinct
  · exact h.names
  · intro u c fd hcall horig hmissed hc
    refine h.ending u c fd hcall horig hmissed (hc.imp_right fun ⟨hshuts, hu⟩ => ⟨hshuts, ?_⟩)
    exact (hshutting u fd hu).1
  · obtain ⟨hold, hno⟩ :=
      log_serves hs (·.passed = true) (fun _ => Descriptor.passed_performed) hfd
    exact hsettled fd (h.passed fd hold) hno
  · obtain ⟨hold, hno⟩ := hshutting u fd hu
    exact hsettled fd (h.shutting u fd hold) hno
  · obtain ⟨hold, hno⟩ := log_serves hs (·.retired = true)
      (fun hterm hretired => by
        obtain ⟨hgives, hold | hcloses | ⟨-, v, hv, -⟩⟩ := Descriptor.retired_performed hretired
        · exact ⟨hold, hgives⟩
        · rw [Descriptor.closes_eq_none hterm] at hcloses
          cases hcloses
        · cases hv) hfd
    exact ⟨hsettled fd (h.retired fd hold).1 hno, (h.retired fd hold).2⟩

/-- A thread enters or leaves a wrapper. -/
theorem update (h : Registered m ann) {a : Ann} {x : LogEntry Tid}
    (hheld : Held m.world.lock (Function.update ann t a)) (ht : (ann t).Quiet) (hq : a.Quiet)
    (hfresh : a.fresh = none) (hmisses : a.missed = none)
    (hcalls : ∀ c, a.call = some c → c.manages = true)
    (htokens : Tokens (m.write x) (Function.update ann t a))
    (hopened : ∀ fd, ((descriptor m.log fd).step fd x).opened = (descriptor m.log fd).opened)
    (hretired : ∀ fd, ((descriptor m.log fd).step fd x).retired = (descriptor m.log fd).retired)
    (hpassed : ∀ fd, ((descriptor m.log fd).step fd x).passed = true →
      (descriptor m.log fd).passed = true ∨ Settled (m.write x) (Function.update ann t a) fd)
    (hshutting : ∀ u fd, ((descriptor m.log fd).step fd x).shutting u = true →
      (descriptor m.log fd).shutting u = true ∨ u = t ∧ Settled m ann fd) :
    Registered (m.write x) (Function.update ann t a) := by
  have hlog : ∀ fd, descriptor (m.write x).log fd = (descriptor m.log fd).step fd x := by
    intro fd
    rw [write_log, descriptor_append]
  have hsettled : ∀ fd, Settled m ann fd → Settled (m.write x) (Function.update ann t a) fd := by
    refine fun fd hs => ⟨hs.1, fun b hb hholds => hs.2 b hb ?_⟩
    cases b with
    | thread u =>
        by_cases hut : u = t
        · simp [Holds, hut, hfresh] at hholds
        · simpa [Holds, hut] using hholds
    | replying p => exact hholds
    | response p => exact hholds
    | application | closing => cases hb
  refine
    { toTended := (h.toTended.update hheld hq).write x
      calls := fun u c hcall => ?_
      accepts := h.accepts.update ht
      tokens := htokens
      entries := fun y hy => ?_
      distinct := h.distinct
      names := fun u fd hn => ?_
      ending := fun u c fd hcall horig hmissed hc => ?_
      passed := fun fd hfd => ?_
      shutting := fun u fd hu => ?_
      retired := fun fd hfd => ?_ }
  · by_cases hut : u = t
    · subst hut
      rw [Function.update_self] at hcall
      exact hcalls c hcall
    · rw [Function.update_of_ne hut] at hcall
      exact h.calls u c hcall
  · rw [hlog, hopened]
    refine (h.entries y hy).imp_right ?_
    rintro ⟨hfd, u, hn⟩
    refine ⟨hfd, u, ?_⟩
    have hut : u ≠ t := by
      rintro rfl
      have hnone := ht.tmp
      rw [hn.tmp] at hnone
      cases hnone
    rwa [Function.update_of_ne hut]
  · have hut : u ≠ t := by
      rintro rfl
      have hmissed := hn.missed
      rw [Function.update_self, hmisses] at hmissed
      cases hmissed
    rw [Function.update_of_ne hut] at hn
    exact h.names u fd hn
  · have hut : u ≠ t := by
      rintro rfl
      rw [Function.update_self, hmisses] at hmissed
      cases hmissed
    rw [Function.update_of_ne hut] at hcall horig hmissed
    refine h.ending u c fd hcall horig hmissed (hc.imp_right ?_)
    rintro ⟨hshuts, hu⟩
    refine ⟨hshuts, ?_⟩
    rw [hlog] at hu
    obtain hold | ⟨heq, -⟩ := hshutting u fd hu
    · exact hold
    · exact absurd heq hut
  · rw [hlog] at hfd
    rcases hpassed fd hfd with hold | hs
    · exact hsettled fd (h.passed fd hold)
    · exact hs
  · rw [hlog] at hu
    obtain hold | ⟨-, hs⟩ := hshutting u fd hu
    · exact hsettled fd (h.shutting u fd hold)
    · exact hsettled fd hs
  · rw [hlog, hretired] at hfd
    exact ⟨hsettled fd (h.retired fd hfd).1, (h.retired fd hfd).2⟩

end Registered

theorem registered_init : Registered ({} : Machine Tid) fun _ => {} where
  toTended := tended_init
  calls := nofun
  accepts := carried_init
  tokens := tokens_init
  entries := nofun
  distinct := nofun
  names := nofun
  ending := nofun
  passed := nofun
  shutting := nofun
  retired := nofun

/-! ## Runs -/

theorem registered_of_reachable {s : State Tid} (h : Run.Reachable step Disciplined init s) :
    ∃ ann, Registered s.shared ann ∧ ∀ t, Threads.Outlined Ann.next (fun _ _ _ _ => True)
      (fun c h o => h.pre o ∧ h.call = some c) (fun c h a => h.post a ∧ h.call = some c) {}
      (ann t) (s.thread t) := by
  refine Threads.outlined_of_reachable ({} : Ann) h wrapper_outline (fun _ => rfl)
    registered_init ?_ ?_ ?_ ?_
  · intro s ann t c hr ht _ hg
    have hidle : (ann t).Quiet := by
      rw [ht]
      exact ⟨.inl rfl, rfl, rfl, rfl⟩
    refine hr.update (hr.held.start ht c) hidle ⟨.inl rfl, rfl, rfl, rfl⟩ rfl rfl ?_
      (hr.tokens.issued ht hg.2) (fun fd => Descriptor.opened_issued)
      (fun fd => Descriptor.retired_issued) (fun fd hfd => .inl ?_) (fun u fd hu => ?_)
    · rintro c' ⟨⟩
      exact hg.1
    · rwa [Descriptor.passed_issued] at hfd
    · refine (Descriptor.shutting_issued hu).imp_right ?_
      rintro ⟨hut, -, hpassed⟩
      exact ⟨hut, hr.passed fd hpassed⟩
  · intro s ann t e c a hr _ _ hpost
    have htokens := hr.tokens.returned hpost.1 hpost.2
    refine hr.update (hr.held.idle hpost.1.1) hpost.1.1 ⟨.inl rfl, rfl, rfl, rfl⟩ rfl rfl nofun
      htokens (fun fd => Descriptor.opened_returned) (fun fd => Descriptor.retired_returned)
      (fun fd hfd => ?_) (fun u fd hu => .inl ?_)
    · rcases Descriptor.passed_returned.mp hfd with hold | hnew
      · exact .inl hold
      · -- the application has the descriptor now
        have hholds : Holds (s.shared.write (.returned t c a)) (Function.update ann t {}) fd
            .application := by
          show (descriptor (s.shared.write (.returned t c a)).log fd).owned = true
          rw [write_log, descriptor_append, Descriptor.owned_returned]
          exact .inr hnew
        refine .inr ⟨hnew.2.1, fun b hunderway hb => ?_⟩
        rw [htokens.single fd b _ hb hholds] at hunderway
        cases hunderway
    · rwa [Descriptor.shutting_returned] at hu
  · intro s ann t e c o k r sh hr ht hg hpre ho
    refine ⟨trivial, hr.sem hpre.1 ho ?_⟩
    rintro c' rfl
    exact hg c' (by rw [ht]; rfl)
  · intro s ann b sh hr hg hb
    refine hr.serves (serves_of_syscall_thread hb) ?_
    rintro p o rfl
    exact hg

/-- One entry for each descriptor; the descriptors of entries are open, but
for those of entries that a creating call is still inserting; none for a
descriptor that has been closed or shut down since it was given. -/
structure OneEntryPerDescriptor (s : State Tid) : Prop where
  distinct : s.shared.world.table.entries.Pairwise fun x y =>
    x.thr_fd = y.thr_fd → x.thr_fd = -12
  opened : ∀ x ∈ s.shared.world.table.entries,
    (descriptor s.shared.log x.thr_fd).opened = true ∨
      x.thr_fd = -12 ∧ ∃ t c k, s.thread t = some (c, k) ∧ c.creates = true
  retired : ∀ fd, (descriptor s.shared.log fd).retired = true →
    s.shared.world.table.Vacant fd

/-- **Table and kernel agree on the descriptors**, after every step of every
run of the seven calls by any number of threads. -/
theorem one_entry_per_descriptor {s : State Tid} (h : Run.Reachable step Disciplined init s) :
    OneEntryPerDescriptor s := by
  obtain ⟨ann, hr, hann⟩ := registered_of_reachable h
  refine ⟨?_, fun x hx => ?_, fun fd hfd => (hr.retired fd hfd).2⟩
  · have hnodup : s.shared.world.table.entries.Pairwise fun x y => x.ptr ≠ y.ptr :=
      List.pairwise_map.mp hr.kept.nodup
    refine hnodup.imp_of_mem fun {x y} hx hy hne heq => ?_
    by_contra hfd
    exact hne (hr.distinct x hx y hy heq hfd)
  · refine (hr.entries x hx).imp_right ?_
    rintro ⟨hfd, t, hn⟩
    refine ⟨hfd, t, ?_⟩
    have htmp : (ann t).tmp ≠ none := by
      rw [hn.tmp]
      nofun
    obtain ⟨-, -, fd, hfresh, -⟩ := (hr.held.coherent t).tmp htmp
    have hcreates := (hr.held.coherent t).creates (by rw [hfresh]; nofun)
    have htext := hann t
    cases hthread : s.thread t with
    | none =>
        rw [hthread] at htext
        have hidle : ann t = {} := htext
        rw [hidle] at htmp
        exact absurd rfl htmp
    | some y =>
        obtain ⟨c, k⟩ := y
        refine ⟨c, k, rfl, ?_⟩
        have hcall : (ann t).call = some c := by
          rw [hthread] at htext
          cases k with
          | ret a => exact htext.2
          | op o k => exact htext.1.2
        simpa [hcall] using hcreates

/-- The entry's thread at `p` serves one request; its original call gives `w`. -/
def oneRequest (p : Ptr) (w : Word) : List (Label Bool) :=
  [.inr (.recv_from_app p), .inr (.switch p ⟨w, 0⟩), .inr (.send_to_app p)]

/-- `accept` gives descriptor 9, which is then closed. -/
theorem one_entry_after_close :
    ∃ s : State Bool, Run.Reachable step Disciplined init s ∧
      s.shared.world.table.entries.map (·.thr_fd) = [7] ∧
      (descriptor s.shared.log 9).retired = true ∧ OneEntryPerDescriptor s := by
  have hrun : ((Run.exec step Disciplined init
      (oneSocket ++ calls true (.accept 7 0 0) 3 {} ++ oneRequest 1 9
        ++ List.replicate 10 (.inl (.step true { thread := 2 })) ++ [.inr (.start 2 .zero .zero)]
        ++ calls true (.close 9) 4 {} ++ oneRequest 2 0
        ++ List.replicate 6 (.inl (.step true {})))).map
      fun s => (s.shared.world.table.entries.map (·.thr_fd),
        (descriptor s.shared.log 9).retired)) = some ([7], true) := by
    decide
  obtain ⟨s, hs, hproj⟩ := Option.map_eq_some_iff.mp hrun
  obtain ⟨hentries, hretired⟩ := Prod.mk.inj hproj
  have hreach := Run.reachable_of_exec hs
  exact ⟨s, hreach, hentries, hretired, one_entry_per_descriptor hreach⟩

/-- By the returns of the wrappers: `close` or `shutdown` has returned, and no
creating call has returned the descriptor since. -/
def closedByReturns (log : List (LogEntry Tid)) (fd : CInt) : Bool :=
  log.foldl (fun closed x =>
    match x with
    | .returned _ c a =>
        if c.closes = some fd ∨ c.shuts = some fd then true
        else if c.creates = true ∧ a = fd.signExtend 64 then false
        else closed
    | _ => closed) false

/-- By the original calls: `close` or `shutdown` has been performed, and no
creating call has given the descriptor since. -/
def endedByOriginals (log : List (LogEntry Tid)) (fd : CInt) : Bool :=
  log.foldl (fun ended x =>
    match x with
    | .performed _ c w =>
        if c.gives w = some fd then false
        else if c.closes = some fd ∨ c.shuts = some fd then true
        else ended
    | _ => ended) false

/-- Two `epoll_create` insert at the same time: both entries have descriptor
-12. An original `close(7)` has been performed, then another thread's `socket`
gets 7 and returns, then `close(7)` returns. And between the original `socket`
that gives 7 and the insertion of its entry another thread shuts 7 down. -/
theorem entries_without_descriptor :
    (¬ ∀ s : State Bool, Run.Reachable step Disciplined init s →
      s.shared.world.table.entries.Pairwise fun x y => x.thr_fd ≠ y.thr_fd) ∧
    (¬ ∀ s : State Bool, Run.Reachable step Disciplined init s →
      ∀ fd, closedByReturns s.shared.log fd = true → s.shared.world.table.Vacant fd) ∧
    ¬ ∀ s : State Bool, Run.Reachable step Disciplined init s →
      ∀ fd, endedByOriginals s.shared.log fd = true → s.shared.world.table.Vacant fd := by
  refine ⟨?_, ?_, ?_⟩
  · intro h
    have hrun : ((Run.exec step Disciplined init
        (calls true (.epoll_create 1) 9 { result := 5 }
          ++ calls false (.epoll_create 1) 9 { result := 6 })).map
        fun s => s.shared.world.table.entries.map (·.thr_fd)) = some [-12, -12] := by
      decide
    obtain ⟨s, hs, hentries⟩ := Option.map_eq_some_iff.mp hrun
    have hpairwise := List.pairwise_map.mpr (h s (Run.reachable_of_exec hs))
    rw [hentries] at hpairwise
    revert hpairwise
    decide
  · intro h
    have hrun : ((Run.exec step Disciplined init
        (oneSocket ++ calls true (.close 7) 4 {} ++ oneRequest 1 0
          ++ List.replicate 5 (.inl (.step true {}))
          ++ calls false (.socket 2 1 0) 13 { result := 7, thread := 2 }
          ++ [.inl (.step true {})])).map
        fun s => (closedByReturns s.shared.log 7,
          s.shared.world.table.entries.any fun x => x.thr_fd == 7)) = some (true, true) := by
      decide
    obtain ⟨s, hs, hproj⟩ := Option.map_eq_some_iff.mp hrun
    obtain ⟨hclosed, hthere⟩ := Prod.mk.inj hproj
    obtain ⟨x, hx, hfd⟩ := List.any_eq_true.mp hthere
    exact h s (Run.reachable_of_exec hs) 7 hclosed x hx (beq_iff_eq.mp hfd)
  · intro h
    have hrun : ((Run.exec step Disciplined init
        (calls true (.socket 2 1 0) 1 { result := 7 } ++ calls false (.shutdown 7 2) 5 {}
          ++ List.replicate 12 (.inl (.step true {})))).map
        fun s => (endedByOriginals s.shared.log 7,
          s.shared.world.table.entries.any fun x => x.thr_fd == 7)) = some (true, true) := by
      decide
    obtain ⟨s, hs, hproj⟩ := Option.map_eq_some_iff.mp hrun
    obtain ⟨hended, hthere⟩ := Prod.mk.inj hproj
    obtain ⟨x, hx, hfd⟩ := List.any_eq_true.mp hthere
    exact h s (Run.reachable_of_exec hs) 7 hended x hx (beq_iff_eq.mp hfd)

end Machine

end CorePartitioning.Preload
