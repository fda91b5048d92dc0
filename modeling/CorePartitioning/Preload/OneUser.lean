import CorePartitioning.Preload.CallLog
import CorePartitioning.Preload.EntryPerDescriptor

/-!
# ld_preload.c — one user for each descriptor

Nothing in an entry's exchange says whose request and whose response it
carries. Where no two threads use a descriptor at the same time nothing
has to: an entry is found by its descriptor, so the one thread that uses the
descriptor is the only one that turns to the entry, and between its calls
the exchange is clean.

The descriptor must be the entry's own. An entry that is being inserted has
-12 until it is named, and a call on descriptor -12 would find it.
-/

namespace CorePartitioning.Preload

/-! ## The call that awaits a response -/

/-- Call `c` has sent its request to the entry at `p`. -/
structure Ann.Awaits (h : Ann) (p : Ptr) (c : Syscall) : Prop where
  talk : h.talk = .asked
  asks : ∃ fd, h.Asks p c fd

theorem Ann.Awaits.next {h : Ann} (hc : h.Coherent) {o : Op} (hp : h.pre o) (r : o.Res) {p : Ptr}
    {c : Syscall} (ha : h.Awaits p c) :
    o = .CPART_recv_from_thread p ∨ (h.next o r).Awaits p c := by
  obtain ⟨fd, hasks⟩ := ha.asks
  obtain ⟨q, rfl⟩ | ⟨htalk, hentry, -⟩ := Ann.asked_next hc ha.talk hp r
  · obtain ⟨fd', hentry, -⟩ := hp
    obtain ⟨rfl, -⟩ := Prod.mk.inj (Option.some.inj (hasks.entry.symm.trans hentry))
    exact .inl rfl
  · refine .inr ⟨htalk, ?_⟩
    obtain ⟨q, d, fd', hasks'⟩ := (hc.next hp r).asked htalk
    have heq := (hentry.trans hasks.entry).symm.trans hasks'.entry
    obtain ⟨rfl, rfl⟩ := Prod.mk.inj (Option.some.inj heq)
    have hcall := ((h.next_call o r).trans hasks.call).symm.trans hasks'.call
    obtain rfl := Option.some.inj hcall
    exact ⟨fd, hasks'⟩

/-- Who awaits a response after an operation awaited it before, or has just
sent its request. -/
theorem Ann.Awaits.prev {h : Ann} (hc : h.Coherent) {o : Op} (hp : h.pre o) {r : o.Res} {p : Ptr}
    {c : Syscall} (ha : (h.next o r).Awaits p c) :
    (h.Awaits p c ∧ o ≠ .CPART_recv_from_thread p) ∨
      o = .CPART_send_to_thread (send_data c) p := by
  obtain ⟨htalk, fd, hasks⟩ := ha
  have hcall : h.call = some c := (h.next_call o r).symm.trans hasks.call
  -- the request was sent before, for the same entry
  have hold : h.talk = .asked → h.entry = some (p, fd) → h.Awaits p c := by
    intro htalk hentry
    obtain ⟨q, d, fd', hasks'⟩ := hc.asked htalk
    obtain ⟨rfl, rfl⟩ := Prod.mk.inj (Option.some.inj (hentry.symm.trans hasks'.entry))
    obtain rfl := Option.some.inj (hcall.symm.trans hasks'.call)
    exact ⟨htalk, fd, hasks'⟩
  cases o with
  | errno | set_errno | set_NetorFile | set_pid | fdtable_getnumber | fdtable_add | set_thr_fd
  | pthread_create | original => exact .inl ⟨hold htalk hasks.entry, by simp⟩
  | pthread_rwlock x =>
      cases x with
      | rdlock | wrlock => exact .inl ⟨hold htalk hasks.entry, by simp⟩
      | unlock => cases htalk
  | fdtable_get_by_fd fd' k => cases r <;> cases htalk
  | fdtable_get_by_fd_all fd' =>
      have htalk' : (h.lookupAll fd' r).talk = .asked := htalk
      obtain ⟨q, -, -, heq⟩ | ⟨q, -, -, heq⟩ | ⟨-, heq⟩ := h.lookupAll_cases fd' r <;>
        (rw [heq] at htalk'; cases htalk')
  | fdtable_delete | pthread_join | CPART_recv_from_thread => cases htalk
  | CPART_send_to_thread args q =>
      obtain ⟨d, fd', hask⟩ := hp
      have hentry : h.entry = some (p, fd) := hasks.entry
      obtain ⟨rfl, -⟩ := Prod.mk.inj (Option.some.inj (hentry.symm.trans hask.entry))
      obtain rfl := Option.some.inj (hcall.symm.trans hask.call)
      rw [hask.args]
      exact .inr rfl

/-- An entry without a name after an operation had none before, and the
operation does not name it. -/
theorem Ann.Nameless.prev {h : Ann} {o : Op} (hp : h.pre o) {r : o.Res} {p : Ptr}
    (hn : (h.next o r).Nameless p) (htmp : h.tmp = some p) :
    h.Nameless p ∧ ∀ tmp fd, o ≠ .set_thr_fd tmp fd := by
  obtain ⟨htmp', hnamed⟩ := hn
  have hne : h.tmp ≠ none := by simp [htmp]
  cases o with
  | errno | set_errno | set_NetorFile | set_pid | fdtable_getnumber | fdtable_delete
  | pthread_create | pthread_join | CPART_send_to_thread | CPART_recv_from_thread | original =>
      exact ⟨⟨htmp, hnamed⟩, by simp⟩
  | fdtable_add => exact absurd (Ann.MayAdd.tmp hp) hne
  | set_thr_fd tmp fd => cases hnamed
  | pthread_rwlock x =>
      cases x with
      | rdlock | wrlock => exact ⟨⟨htmp, hnamed⟩, by simp⟩
      | unlock => cases htmp'
  | fdtable_get_by_fd_all fd => exact absurd (Ann.MayLookup.tmp hp) hne
  | fdtable_get_by_fd fd k => exact absurd hp.1.tmp hne

namespace FdTable

variable {tbl tbl' : FdTable} {e : Env} {pid : Nat} {o : Op} {r : o.Res}

/-- Where an entry goes that is not deleted: it stays, with the field that
the operation writes. -/
theorem Change.stays (h : tbl.Change e pid o r tbl') (hdelete : ∀ fd, o ≠ .fdtable_delete fd)
    {x : ThreadInfo} (hx : x ∈ tbl.entries) :
    x ∈ tbl'.entries ∨ ∃ f, Writes e pid o r (some x.ptr) f ∧ f x ∈ tbl'.entries := by
  cases h with
  | keep | add_fails | create_fails => exact .inl hx
  | add => exact .inl (List.mem_cons_of_mem _ hx)
  | delete fd => exact absurd rfl (hdelete fd)
  | @write _ _ tmp f _ hw hm =>
      obtain ⟨p, rfl, -, rfl⟩ := modify_eq_some hm
      have hmem : (if x.ptr = p then f x else x) ∈
          tbl.entries.map fun x => if x.ptr = p then f x else x := List.mem_map_of_mem hx
      by_cases hp : x.ptr = p
      · rw [if_pos hp] at hmem
        subst hp
        exact .inr ⟨f, hw, hmem⟩
      · rw [if_neg hp] at hmem
        exact .inl hmem

/-- The entry a lookup finds. -/
def finds (tbl : FdTable) : Op → Option ThreadInfo
  | .fdtable_get_by_fd_all fd => fdtable_get_by_fd_all tbl fd
  | .fdtable_get_by_fd fd NetorFile => fdtable_get_by_fd tbl fd NetorFile
  | _ => none

end FdTable

namespace Machine

variable {Tid : Type} {m m' : Machine Tid}

/-! ## The exchange of one call -/

/-- Nothing is under way. -/
structure Clean (ch : Channel Tid) : Prop where
  phase : ch.exchange.phase = .waiting
  request : ch.exchange.request = false
  response : ch.exchange.response = false

/-- How far an entry's thread is with the request of call `c`, and its
response once there is one. -/
inductive Serving (c : Syscall) (ch : Channel Tid) : Option RetvalData → Prop
  | requested (hphase : ch.exchange.phase = .waiting) (hrequest : ch.exchange.request = true)
      (hresponse : ch.exchange.response = false) (hmessage : ch.exchange.message = send_data c) :
      Serving c ch none
  | serving (hphase : ch.exchange.phase = .serving) (hrequest : ch.exchange.request = false)
      (hresponse : ch.exchange.response = false) (hdata : ch.send_data = send_data c) :
      Serving c ch none
  | replying {r : RetvalData} (hphase : ch.exchange.phase = .replying r)
      (hrequest : ch.exchange.request = false) (hresponse : ch.exchange.response = false) :
      Serving c ch (some r)
  | responded (hphase : ch.exchange.phase = .waiting) (hrequest : ch.exchange.request = false)
      (hresponse : ch.exchange.response = true) : Serving c ch (some ch.exchange.message.retval)

theorem Serving.congr {c : Syscall} {ch ch' : Channel Tid} {x : Option RetvalData}
    (h : Serving c ch x) (hexchange : ch'.exchange = ch.exchange)
    (hdata : ch'.send_data = ch.send_data) : Serving c ch' x := by
  cases h with
  | requested hphase hrequest hresponse hmessage =>
      rw [← hexchange] at hphase hrequest hresponse hmessage
      exact .requested hphase hrequest hresponse hmessage
  | serving hphase hrequest hresponse hsend =>
      rw [← hexchange] at hphase hrequest hresponse
      exact .serving hphase hrequest hresponse (hdata.trans hsend)
  | replying hphase hrequest hresponse =>
      rw [← hexchange] at hphase hrequest hresponse
      exact .replying hphase hrequest hresponse
  | responded hphase hrequest hresponse =>
      rw [← hexchange] at hphase hrequest hresponse ⊢
      exact .responded hphase hrequest hresponse

/-- A request to an entry nobody else turns to. -/
theorem Clean.send [DecidableEq Tid] {ch : Channel Tid} (h : Clean ch) {t : Tid} {c : Syscall}
    {a : Ipc.Exchange Tid} (ha : ch.exchange.send_to_thread t (send_data c) = some a) :
    Serving c { ch with exchange := a } none := by
  obtain ⟨-, -, rfl⟩ := Ipc.Exchange.send_to_thread_eq_some ha
  exact .requested h.phase rfl h.response rfl

/-- The response is the one to the request, and it ends the exchange. -/
theorem Serving.recv [DecidableEq Tid] {ch : Channel Tid} {c : Syscall} {x : Option RetvalData}
    (h : Serving c ch x) {t : Tid} {r : RetvalData} {a : Ipc.Exchange Tid}
    (ha : ch.exchange.recv_from_thread t = some (r, a)) :
    x = some r ∧ Clean { ch with exchange := a } := by
  obtain ⟨k, -, hresp, heq⟩ := Ipc.Exchange.recv_from_thread_eq_some ha
  obtain ⟨rfl, rfl⟩ := Prod.mk.inj heq
  cases h with
  | requested _ _ hresponse | serving _ _ hresponse | replying _ _ hresponse =>
      rw [hresp] at hresponse
      cases hresponse
  | responded hphase hrequest => exact ⟨rfl, hphase, hrequest, rfl⟩

/-! ### The entry's thread -/

/-- Without a request the thread waits. -/
theorem Clean.serves {b : ThreadStep} (h : m.Serves b m') {p : Ptr} (hc : Clean (m.channel p)) :
    Clean (m'.channel p) ∧ ∀ o, b ≠ .switch p o := by
  have hset : ∀ {q : Ptr} {ch : Channel Tid}, (p = q → Clean ch) →
      Clean ((m.set q ch).channel p) := by
    intro q ch hch
    exact set_channel_of hch fun _ => hc
  cases h with
  | unfound | start =>
      refine ⟨hset fun hpq => ?_, by simp⟩
      rw [← hpq]
      exact ⟨hc.phase, hc.request, hc.response⟩
  | recv_from_app hl hx =>
      obtain ⟨-, hrequest, -⟩ := Ipc.Exchange.recv_from_app_eq_some hx
      refine ⟨hset fun hpq => ?_, by simp⟩
      rw [← hpq, hc.request] at hrequest
      cases hrequest
  | @switch q o hl a ha =>
      obtain ⟨hphase, -⟩ := Ipc.Exchange.produce_eq_some ha
      have hpq : p ≠ q := by
        rintro rfl
        rw [hc.phase] at hphase
        cases hphase
      refine ⟨?_, fun o' heq => hpq ?_⟩
      · rw [perform_channel]
        exact hset fun heq => absurd heq hpq
      · cases heq
        rfl
  | send_to_app hl ha =>
      obtain ⟨r, hphase, -, -⟩ := Ipc.Exchange.send_to_app_eq_some ha
      refine ⟨hset fun hpq => ?_, by simp⟩
      rw [← hpq, hc.phase] at hphase
      cases hphase

/-- With a request it goes on: the `switch` makes the response. -/
theorem Serving.serves {b : ThreadStep} (h : m.Serves b m') {p : Ptr} {c : Syscall}
    {x : Option RetvalData} (hs : Serving c (m.channel p) x)
    (hwaiting : (m.channel p).life = .created → (m.channel p).exchange.phase = .waiting) :
    (Serving c (m'.channel p) x ∧ ∀ o, b ≠ .switch p o) ∨
      ∃ o, b = .switch p o ∧ x = none ∧ (m.channel p).send_data = send_data c ∧
        Serving c (m'.channel p) (some (serve (send_data c) (m.channel p).recv_data o)) := by
  have hset : ∀ {q : Ptr} {ch : Channel Tid}, (p = q → Serving c ch x) →
      Serving c ((m.set q ch).channel p) x := by
    intro q ch hch
    exact set_channel_of (P := fun ch => Serving c ch x) hch fun _ => hs
  cases h with
  | unfound =>
      refine .inl ⟨hset fun hpq => ?_, by simp⟩
      rw [← hpq]
      exact hs.congr rfl rfl
  | start send_data recv_data hl hfound hp =>
      refine .inl ⟨hset fun hpq => ?_, by simp⟩
      subst hpq
      have hphase := hwaiting hl
      cases hs with
      | requested _ hrequest hresponse hmessage =>
          exact .requested hphase hrequest hresponse hmessage
      | serving hphase' | replying hphase' =>
          rw [hphase] at hphase'
          cases hphase'
      | responded _ hrequest hresponse => exact .responded hphase hrequest hresponse
  | recv_from_app hl hx =>
      obtain ⟨-, hrequest, rfl⟩ := Ipc.Exchange.recv_from_app_eq_some hx
      refine .inl ⟨hset fun hpq => ?_, by simp⟩
      subst hpq
      cases hs with
      | requested _ _ hresponse hmessage => exact .serving rfl rfl hresponse hmessage
      | serving _ hrequest' | replying _ hrequest' | responded _ hrequest' =>
          rw [hrequest] at hrequest'
          cases hrequest'
  | @switch q o hl a ha =>
      obtain ⟨hphase, rfl⟩ := Ipc.Exchange.produce_eq_some ha
      rw [perform_channel]
      by_cases hpq : p = q
      · subst hpq
        cases hs with
        | serving _ hrequest hresponse hdata =>
            refine .inr ⟨o, rfl, rfl, hdata, ?_⟩
            rw [set_channel, Function.update_self, ← hdata]
            exact .replying rfl hrequest hresponse
        | requested hphase' | replying hphase' | responded hphase' =>
            rw [hphase] at hphase'
            cases hphase'
      · refine .inl ⟨hset fun heq => absurd heq hpq, fun o' heq => hpq ?_⟩
        cases heq
        rfl
  | send_to_app hl ha =>
      obtain ⟨r, hphase, -, rfl⟩ := Ipc.Exchange.send_to_app_eq_some ha
      refine .inl ⟨hset fun hpq => ?_, by simp⟩
      subst hpq
      cases hs with
      | replying hphase' hrequest =>
          obtain rfl := Ipc.Phase.replying.inj (hphase'.symm.trans hphase)
          exact .responded rfl hrequest rfl
      | requested hphase' | serving hphase' | responded hphase' =>
          rw [hphase] at hphase'
          cases hphase'

/-! ## The invariant -/

variable [DecidableEq Tid] {ann : Tid → Ann} {t : Tid}

/-- Each descriptor has one user, each entry in use a descriptor of its own;
so the exchange with an entry's thread is its user's, or clean. -/
structure OneUser (m : Machine Tid) (ann : Tid → Ann) : Prop extends Tended m ann where
  single : ∀ t u c d, (ann t).call = some c → (ann u).call = some d →
    c.descriptor = d.descriptor → c.descriptor ≠ none → t = u
  named : ∀ t p fd, (ann t).entry = some (p, fd) →
    ∃ x ∈ m.world.table.entries, x.ptr = p ∧ x.thr_fd = fd ∧ fd ≠ -12
  nameless : ∀ t p, (ann t).Nameless p → ∀ x ∈ m.world.table.entries, x.ptr = p → x.thr_fd = -12
  clean : ∀ p, (∀ t c, ¬ (ann t).Awaits p c) → Clean (m.channel p)
  serving : ∀ t p c, (ann t).Awaits p c → ∃ x, Serving c (m.channel p) x

namespace OneUser

/-- No two threads turn to one entry. -/
theorem eq_of_asks (h : OneUser m ann) {u : Tid} {p : Ptr} {c d : Syscall} {fd fd' : CInt}
    (ht : (ann t).Asks p c fd) (hu : (ann u).Asks p d fd') : t = u := by
  obtain ⟨x, hx, hxp, hxfd, -⟩ := h.named t p fd ht.entry
  obtain ⟨y, hy, hyp, hyfd, -⟩ := h.named u p fd' hu.entry
  have hxy : x = y := h.kept.toAddressed.eq hx hy (hxp.trans hyp.symm)
  have hfd : fd = fd' := by rw [← hxfd, ← hyfd, hxy]
  refine h.single t u c d ht.call hu.call ?_ ?_
  · rw [ht.descriptor, hu.descriptor, hfd]
  · simp [ht.descriptor]

/-- The exchange is clean when the request is sent. -/
theorem clean_of_mayAsk (h : OneUser m ann) {args : ArgsData} {p : Ptr} {c : Syscall} {fd : CInt}
    (ht : (ann t).MayAsk args p c fd) : Clean (m.channel p) := by
  refine h.clean p fun u d hu => ?_
  obtain ⟨fd', hasks⟩ := hu.asks
  have htu := h.eq_of_asks ht.toAsks hasks
  have htalk := hu.talk
  rw [← htu, ht.talk] at htalk
  cases htalk

section Sem

variable {e : Env} {o : Op} {r : o.Res} (h : OneUser m ann) (hp : (ann t).pre o)
  (ho : m.sem t e o = some (r, m'))
include h hp ho

theorem named_sem (hfinds : ∀ x ∈ m.world.table.finds o, x.thr_fd ≠ -12) (u : Tid) (p : Ptr)
    (fd : CInt) (hu : (Function.update ann t ((ann t).next o r) u).entry = some (p, fd)) :
    ∃ x ∈ m'.world.table.entries, x.ptr = p ∧ x.thr_fd = fd ∧ fd ≠ -12 := by
  obtain ⟨recv_data, hw⟩ := sem_world ho
  by_cases hut : u = t
  · subst hut
    rw [Function.update_self] at hu
    have hfound : ∀ {found : ThreadInfo → Bool} {x : ThreadInfo},
        fdtable_search found m.world.table.entries = some x → x.ptr = p → x.thr_fd = fd →
        m.world.table.finds o = some x → mutates o = false →
        ∃ x ∈ m'.world.table.entries, x.ptr = p ∧ x.thr_fd = fd ∧ fd ≠ -12 := by
      intro found x hx hptr hfd hfinds' hmut
      refine ⟨x, ?_, hptr, hfd, ?_⟩
      · rw [sem_table hmut hw]
        exact (fdtable_search_mem hx).1
      · rw [← hfd]
        exact hfinds x hfinds'
    obtain ⟨hold, -⟩ | ⟨k, rfl, x, hx, hptr⟩ | ⟨rfl, -, x, hx, hptr⟩ := entry_of_sem hw hu
    · by_cases hmut : mutates o = true
      · obtain ⟨-, hnone | ⟨q, fd', rfl, -⟩⟩ := Ann.pre_of_mutates hp hmut
        · rw [hnone] at hold
          cases hold
        · cases hu
      · rw [sem_table (by simpa using hmut) hw]
        exact h.named u p fd hold
    · have hfd := (fdtable_search_mem hx).2
      simp only [Bool.and_eq_true, beq_iff_eq] at hfd
      exact hfound hx hptr hfd.1 hx rfl
    · exact hfound hx hptr (beq_iff_eq.mp (fdtable_search_mem hx).2) hx rfl
  · rw [Function.update_of_ne hut] at hu
    obtain ⟨x, hx, hptr, hfd, hne⟩ := h.named u p fd hu
    have hdelete : ∀ fd', o ≠ .fdtable_delete fd' := by
      rintro fd' rfl
      obtain ⟨q, -, -, hmode⟩ := hp
      rw [(h.held.alone hmode hut).2.1] at hu
      cases hu
    obtain hstays | ⟨f, hf, hmem⟩ := (sem_change hw).stays hdelete hx
    · exact ⟨x, hstays, hptr, hfd, hne⟩
    · cases hf with
      | thr_fd _ fd' =>
          -- the entry that gets a name has none
          have htmp : (ann t).tmp = some x.ptr := (Ann.MayName.tmp hp).symm
          have hnone := h.nameless t x.ptr ⟨htmp, Ann.MayName.named hp⟩ x hx rfl
          exact absurd (hfd.symm.trans hnone) hne
      | NetorFile | pid | p_thread => exact ⟨_, hmem, hptr, hfd, hne⟩

theorem nameless_sem (u : Tid) (p : Ptr)
    (hu : (Function.update ann t ((ann t).next o r) u).Nameless p) (x' : ThreadInfo)
    (hx' : x' ∈ m'.world.table.entries) (hptr : x'.ptr = p) : x'.thr_fd = -12 := by
  obtain ⟨recv_data, hw⟩ := sem_world ho
  obtain ⟨-, rfl⟩ | ⟨x, hx, horigin⟩ := (sem_change hw).origin hx'
  · rfl
  have hxptr : x.ptr = p := by
    rw [← hptr]
    obtain ⟨rfl, -⟩ | ⟨f, hf, rfl⟩ := horigin
    · rfl
    · cases hf <;> rfl
  have hnew : p ≠ m.world.table.nextPtr := by
    intro heq
    exact absurd (h.kept.lt p (FdTable.mem_ptrs.mpr ⟨x, hx, hxptr⟩)) (by rw [heq]; simp)
  obtain ⟨htmp, -⟩ | ⟨-, -, heq, -⟩ := h.kept.tmp_sem hw hu.tmp
  · have hold : (ann u).Nameless p ∧ ∀ fd, o ≠ .set_thr_fd (some p) fd := by
      by_cases hut : u = t
      · subst hut
        rw [Function.update_self] at hu
        obtain ⟨hold, hno⟩ := hu.prev hp htmp
        exact ⟨hold, hno (some p)⟩
      · rw [Function.update_of_ne hut] at hu
        refine ⟨hu, ?_⟩
        -- each added entry is one thread's
        rintro fd rfl
        exact hut (h.kept.inj u t p htmp (Ann.MayName.tmp hp).symm)
    have hfd := h.nameless u p hold.1 x hx hxptr
    obtain ⟨rfl, -⟩ | ⟨f, hf, rfl⟩ := horigin
    · exact hfd
    · rw [hxptr] at hf
      cases hf with
      | thr_fd _ fd => exact absurd rfl (hold.2 fd)
      | NetorFile | pid | p_thread => exact hfd
  · exact absurd heq hnew

/-- What another thread awaits is left alone. -/
theorem channel_sem {u : Tid} {p : Ptr} {c : Syscall} (hu : (ann u).Awaits p c)
    (hrecv : o ≠ .CPART_recv_from_thread p) :
    (m'.channel p).exchange = (m.channel p).exchange ∧
      (m'.channel p).send_data = (m.channel p).send_data := by
  obtain ⟨fd, hasks⟩ := hu.asks
  have hnew : p ≠ m.world.table.nextPtr := by
    intro heq
    exact absurd (h.kept.lt p (h.kept.entry u p fd hasks.entry)) (by rw [heq]; simp)
  constructor
  · obtain ⟨-, hsame⟩ | ⟨-, heq, -⟩ | ⟨args, rfl, -⟩ | ⟨r', rfl, -⟩ := exchange_of_sem ho p
    · exact hsame
    · exact absurd heq hnew
    · -- the sender would be a second user
      obtain ⟨d, fd', hask⟩ := hp
      obtain rfl := h.eq_of_asks hasks hask.toAsks
      have htalk := hu.talk
      rw [hask.talk] at htalk
      cases htalk
    · exact absurd rfl hrecv
  · obtain ⟨-, -, hdata, -⟩ | ⟨-, heq, -⟩ | ⟨-, -, -, -, hdata⟩ := life_of_sem ho p
    · exact hdata
    · exact absurd heq hnew
    · exact hdata

theorem clean_sem (p : Ptr)
    (hno : ∀ u c, ¬ (Function.update ann t ((ann t).next o r) u).Awaits p c) :
    Clean (m'.channel p) := by
  by_cases hrecv : o = .CPART_recv_from_thread p
  · subst hrecv
    obtain ⟨fd, hentry, htalk⟩ := hp
    obtain ⟨q, c, fd', hasks⟩ := (h.held.coherent t).asked htalk
    obtain ⟨rfl, -⟩ := Prod.mk.inj (Option.some.inj (hentry.symm.trans hasks.entry))
    obtain ⟨x, hs⟩ := h.serving t p c ⟨htalk, fd', hasks⟩
    obtain ⟨a, ha, rfl⟩ := sem_recv ho
    have hclean := (hs.recv ha).2
    rwa [set_channel, Function.update_self]
  · -- nobody awaited a response before
    have hclean : Clean (m.channel p) := by
      refine h.clean p fun u c hu => ?_
      by_cases hut : u = t
      · subst hut
        obtain heq | hnext := hu.next (h.held.coherent u) hp r
        · exact hrecv heq
        · refine hno u c ?_
          rwa [Function.update_self]
      · refine hno u c ?_
        rwa [Function.update_of_ne hut]
    obtain ⟨-, hsame⟩ | ⟨-, -, hnew⟩ | ⟨args, rfl, -⟩ | ⟨r', rfl, -⟩ := exchange_of_sem ho p
    · exact ⟨by rw [hsame, hclean.phase], by rw [hsame, hclean.request],
        by rw [hsame, hclean.response]⟩
    · rw [hnew]
      exact ⟨rfl, rfl, rfl⟩
    · obtain ⟨c, fd, hask⟩ := hp
      refine absurd ?_ (hno t c)
      rw [Function.update_self]
      exact ⟨rfl, fd, hask.call, hask.descriptor, hask.entry, hask.mode, hask.orig, hask.reply,
        hask.fresh⟩
    · exact absurd rfl hrecv

/-- The call that awaits a response is being served, or its request has just
been sent. -/
theorem serving_sem {u : Tid} {p : Ptr} {c : Syscall}
    (hu : (Function.update ann t ((ann t).next o r) u).Awaits p c) :
    ((ann u).Awaits p c ∧ ∀ x, Serving c (m.channel p) x → Serving c (m'.channel p) x) ∨
      u = t ∧ o = .CPART_send_to_thread (send_data c) p ∧ Serving c (m'.channel p) none := by
  have hkeep : (ann u).Awaits p c → o ≠ .CPART_recv_from_thread p →
      ∀ x, Serving c (m.channel p) x → Serving c (m'.channel p) x := by
    intro hold hrecv x hx
    obtain ⟨hexchange, hdata⟩ := h.channel_sem hp ho hold hrecv
    exact hx.congr hexchange hdata
  by_cases hut : u = t
  · subst hut
    rw [Function.update_self] at hu
    obtain ⟨hold, hrecv⟩ | rfl := hu.prev (h.held.coherent u) hp
    · exact .inl ⟨hold, hkeep hold hrecv⟩
    · refine .inr ⟨rfl, rfl, ?_⟩
      obtain ⟨d, fd, hask⟩ := hp
      obtain ⟨a, ha, rfl⟩ := sem_send ho
      have hserving := (h.clean_of_mayAsk hask).send ha
      rwa [set_channel, Function.update_self]
  · rw [Function.update_of_ne hut] at hu
    refine .inl ⟨hu, hkeep hu ?_⟩
    rintro rfl
    obtain ⟨fd, hasks⟩ := hu.asks
    obtain ⟨fd', hentry, htalk⟩ := hp
    obtain ⟨q, d, fd'', hasks'⟩ := (h.held.coherent t).asked htalk
    obtain ⟨rfl, -⟩ := Prod.mk.inj (Option.some.inj (hentry.symm.trans hasks'.entry))
    exact hut (h.eq_of_asks hasks hasks')

/-- **One operation of an application thread.** -/
theorem sem (hfinds : ∀ x ∈ m.world.table.finds o, x.thr_fd ≠ -12) :
    OneUser m' (Function.update ann t ((ann t).next o r)) where
  toTended := h.toTended.sem hp ho
  single u v c d hu hv := by
    have hcall : ∀ u, (Function.update ann t ((ann t).next o r) u).call = (ann u).call := by
      intro u
      by_cases hut : u = t
      · rw [hut, Function.update_self, Ann.next_call]
      · rw [Function.update_of_ne hut]
    rw [hcall] at hu hv
    exact h.single u v c d hu hv
  named := h.named_sem hp ho hfinds
  nameless := h.nameless_sem hp ho
  clean := h.clean_sem hp ho
  serving u p c hu := by
    obtain ⟨hold, hkeep⟩ | ⟨-, -, hnew⟩ := h.serving_sem hp ho hu
    · obtain ⟨x, hx⟩ := h.serving u p c hold
      exact ⟨x, hkeep x hx⟩
    · exact ⟨none, hnew⟩

end Sem

/-- **One step of an entry's thread.** -/
theorem serves {b : ThreadStep} (h : OneUser m ann) (hb : m.Serves b m') : OneUser m' ann where
  toTended := h.toTended.serves hb
  single := h.single
  named := by
    rw [hb.world]
    exact h.named
  nameless := by
    rw [hb.world]
    exact h.nameless
  clean p hno := ((h.clean p hno).serves hb).1
  serving t p c ha := by
    obtain ⟨x, hx⟩ := h.serving t p c ha
    obtain ⟨hsame, -⟩ | ⟨o, -, -, -, hnew⟩ := hx.serves hb fun hl => h.waiting p (.inr hl)
    · exact ⟨x, hsame⟩
    · exact ⟨_, hnew⟩

/-- A thread enters or leaves a wrapper. -/
theorem update (h : OneUser m ann) {h' : Ann}
    (hheld : Held m.world.lock (Function.update ann t h')) (ht : (ann t).Quiet) (hq : h'.Quiet)
    (hfree : ∀ c, h'.call = some c → ∀ u d, u ≠ t → (ann u).call = some d →
      c.descriptor = d.descriptor → c.descriptor = none) :
    OneUser m (Function.update ann t h') where
  toTended := h.toTended.update hheld hq
  single u v c d hu hv heq hne := by
    by_cases hut : u = t
    · by_cases hvt : v = t
      · rw [hut, hvt]
      · rw [hut, Function.update_self] at hu
        rw [Function.update_of_ne hvt] at hv
        exact absurd (hfree c hu v d hvt hv heq) hne
    · rw [Function.update_of_ne hut] at hu
      by_cases hvt : v = t
      · rw [hvt, Function.update_self] at hv
        rw [heq] at hne
        exact absurd (hfree d hv u c hut hu heq.symm) hne
      · rw [Function.update_of_ne hvt] at hv
        exact h.single u v c d hu hv heq hne
  named := by
    rw [Function.forall_update_iff ann fun _ h => ∀ p fd, h.entry = some (p, fd) →
      ∃ x ∈ m.world.table.entries, x.ptr = p ∧ x.thr_fd = fd ∧ fd ≠ -12]
    refine ⟨fun p fd hentry => ?_, fun u _ => h.named u⟩
    rw [hq.entry] at hentry
    cases hentry
  nameless := by
    rw [Function.forall_update_iff ann fun _ h => ∀ p, h.Nameless p →
      ∀ x ∈ m.world.table.entries, x.ptr = p → x.thr_fd = -12]
    refine ⟨fun p hn => ?_, fun u _ => h.nameless u⟩
    have htmp := hn.tmp
    rw [hq.tmp] at htmp
    cases htmp
  clean p hno := by
    refine h.clean p fun u c hu => ?_
    by_cases hut : u = t
    · have htalk := hu.talk
      rw [hut, ht.talk] at htalk
      cases htalk
    · refine hno u c ?_
      rwa [Function.update_of_ne hut]
  serving := by
    rw [Function.forall_update_iff ann fun _ h => ∀ p c, h.Awaits p c →
      ∃ x, Serving c (m.channel p) x]
    refine ⟨fun p c ha => ?_, fun u _ => h.serving u⟩
    have htalk := ha.talk
    rw [hq.talk] at htalk
    cases htalk

/-- What is recorded does not matter. -/
theorem write (h : OneUser m ann) (x : LogEntry Tid) : OneUser (m.write x) ann :=
  { h with }

end OneUser

theorem oneUser_init : OneUser ({} : Machine Tid) fun _ => {} where
  toTended := tended_init
  single _ _ _ _ ht := by cases ht
  named _ _ _ ht := by cases ht
  nameless _ _ ht := by cases ht.tmp
  clean _ _ := ⟨rfl, rfl, rfl⟩
  serving _ _ _ ht := by cases ht.talk

end Machine

end CorePartitioning.Preload
