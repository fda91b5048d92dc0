import CorePartitioning.Preload.OneUser

/-!
# ld_preload.c — the library is transparent

Where each descriptor has one user, the library's log is one of a program
that makes its calls directly: what an entry's thread performs is the call
of the entry's user, and what the user gets back is the result of that.
-/

namespace CorePartitioning.Preload

/-! ## What is made of a request -/

/-- A request for one of the nineteen calls is performed as that call; one
that ends the thread, and one for another call, as none of them. -/
theorem dispatch_forwards {c : Syscall} {fd : CInt} (hc : c.descriptor = some fd) :
    (c.forwards = true ∧ c.terminates = false ∧ dispatch (send_data c) = some c) ∨
      (c.terminates = true ∧ dispatch (send_data c) = none) ∨
      c.forwards = false ∧ ∀ d, dispatch (send_data c) = some d → d.forwards = false := by
  cases c with
  | socket | «open» | openat | epoll_create => cases hc
  | close | shutdown => exact .inr (.inl ⟨rfl, dispatch_terminates rfl⟩)
  | lseek =>
      refine .inr (.inr ⟨rfl, fun d hd => ?_⟩)
      rw [dispatch_send_data rfl] at hd
      cases hd
      rfl
  | poll =>
      refine .inr (.inr ⟨rfl, fun d hd => ?_⟩)
      simp only [dispatch, send_data, request_type_ofWords, RequestType.ofCode_code,
        Option.some.injEq] at hd
      rw [← hd]
      rfl
  | _ => exact .inl ⟨rfl, rfl, dispatch_send_data rfl⟩

theorem forwards_replyValue {c : Syscall} (hc : c.forwards = true) (hterm : c.terminates = false)
    (stale : RetvalData) (o : Outcome) :
    c.replyValue (serve (send_data c) stale o) = c.origValue o.result := by
  refine replyValue_serve ?_ ?_ stale o
  · cases c with
    | close | shutdown => cases hterm
    | socket | «open» | openat | epoll_create | poll => cases hc
    | _ => rfl
  · rintro fd offset whence rfl
    cases hc

theorem Syscall.descriptor_of_forwards {c : Syscall} (hc : c.forwards = true) :
    c.descriptor ≠ none := by
  cases c with
  | socket | «open» | openat | epoll_create | lseek | poll => cases hc
  | _ => simp [Syscall.descriptor]

/-- A wrapper that ends a thread makes its original call itself, the others
return what the thread's was given. -/
def Answers (c : Syscall) (r : RetvalData) (done : Option Word) : Prop :=
  if c.terminates then done = none else ∃ w, done = some w ∧ c.replyValue r = c.origValue w

/-- What has become of the original call, by the exchange. -/
def Served (c : Syscall) : Option RetvalData → Option Word → Prop
  | none, done => done = none
  | some r, done => Answers c r done

/-- Only a response changes what a call knows of one. -/
theorem Ann.next_reply {h : Ann} {o : Op} (hrecv : ∀ p, o ≠ .CPART_recv_from_thread p)
    (r : o.Res) : (h.next o r).reply = h.reply := by
  cases o with
  | CPART_recv_from_thread p => exact absurd rfl (hrecv p)
  | pthread_rwlock x => cases x <;> rfl
  | fdtable_get_by_fd fd k => cases r <;> rfl
  | fdtable_get_by_fd_all fd =>
      obtain ⟨entry, talk, missed, heq⟩ := h.lookupAll_eq fd r
      show (h.lookupAll fd r).reply = h.reply
      rw [heq]
  | _ => rfl

namespace Machine

variable {Tid : Type} {m m' : Machine Tid}

/-! ## The log and the threads -/

/-- The original call of a thread inside call `c` has been performed with
result `done`, or not yet. -/
inductive Done (m : Machine Tid) (h : Ann) (c : Syscall) : Option Word → Prop
  | performed {w : Word} (horig : h.orig = some w) : Done m h c (some w)
  | awaits {p : Ptr} {x : Option RetvalData} {done : Option Word} (ha : h.Awaits p c)
      (hs : Serving c (m.channel p) x) (hd : Served c x done) : Done m h c done
  | replied {r : RetvalData} {done : Option Word} (horig : h.orig = none) (htalk : h.talk ≠ .asked)
      (hr : h.reply = some r) (hd : Answers c r done) : Done m h c done
  | untouched (horig : h.orig = none) (htalk : h.talk ≠ .asked) (hr : h.reply = none) :
      Done m h c none

/-- The slot of a thread, by what it is doing. -/
inductive Fits (m : Machine Tid) (h : Ann) : Slot → Prop
  | idle (hc : ∀ c, h.call = some c → c.forwards = false) : Fits m h .idle
  | issued {c : Syscall} (hcall : h.call = some c) (hc : c.forwards = true)
      (hd : Done m h c none) : Fits m h (.issued c)
  | performed {c : Syscall} {w : Word} (hcall : h.call = some c) (hc : c.forwards = true)
      (hd : Done m h c (some w)) : Fits m h (.performed c w)

/-- The threads' calls and their slots go together. -/
theorem Fits.call_eq {h : Ann} {s : Slot} (hf : Fits m h s) {c : Syscall} (hs : s.call = some c) :
    h.call = some c ∧ c.forwards = true := by
  cases hf with
  | idle => cases hs
  | issued hcall hc | performed hcall hc =>
      cases hs
      exact ⟨hcall, hc⟩

theorem Fits.call_of_forwards {h : Ann} {s : Slot} (hf : Fits m h s) {c : Syscall}
    (hcall : h.call = some c) (hc : c.forwards = true) : s.call = some c := by
  cases hf with
  | idle hno =>
      rw [hno c hcall] at hc
      cases hc
  | issued hcall' | performed hcall' => exact hcall'.symm.trans hcall

theorem Fits.mono {h h' : Ann} {s : Slot} (hf : Fits m h s) (hcall : h'.call = h.call)
    (hdone : ∀ c done, h.call = some c → Done m h c done → Done m' h' c done) :
    Fits m' h' s := by
  cases hf with
  | idle hc =>
      refine .idle fun c hc' => hc c ?_
      rwa [← hcall]
  | issued hc hfw hd => exact .issued (hcall.trans hc) hfw (hdone _ _ hc hd)
  | performed hc hfw hd => exact .performed (hcall.trans hc) hfw (hdone _ _ hc hd)

/-- A thread that is in none of the calls has nothing in its slot. -/
theorem Fits.eq_idle {h : Ann} {s : Slot} (hf : Fits m h s)
    (hc : ∀ c, h.call = some c → c.forwards = false) : s = .idle := by
  cases hf with
  | idle => rfl
  | issued hcall hfw _ | performed hcall hfw _ =>
      rw [hc _ hcall] at hfw
      cases hfw

/-- A call that has not been performed is recorded as made and no more. -/
theorem Fits.eq_issued {h : Ann} {s : Slot} (hf : Fits m h s) {c : Syscall}
    (hcall : h.call = some c) (hc : c.forwards = true) (hdone : ∀ w, ¬ Done m h c (some w)) :
    s = .issued c ∧ Done m h c none := by
  cases hf with
  | idle hno =>
      rw [hno c hcall] at hc
      cases hc
  | issued hcall' _ hd =>
      obtain rfl := Option.some.inj (hcall'.symm.trans hcall)
      exact ⟨rfl, hd⟩
  | performed hcall' _ hd =>
      obtain rfl := Option.some.inj (hcall'.symm.trans hcall)
      exact absurd hd (hdone _)

/-- What a wrapper returns is the result of its call. -/
theorem Fits.eq_performed {h : Ann} {s : Slot} (hf : Fits m h s) {c : Syscall}
    (hcall : h.call = some c) (hc : c.forwards = true) {a : Word} (hq : h.Quiet)
    (ha : h.Returns c a) : ∃ w, s = .performed c w ∧ a = c.origValue w := by
  have hdone : ∀ done, Done m h c done → ∃ w, done = some w ∧ a = c.origValue w := by
    intro done hd
    obtain ⟨w, horig, rfl⟩ | ⟨hterm, horig, r, hreply, rfl⟩ := ha
    · cases hd with
      | performed horig' =>
          obtain rfl := Option.some.inj (horig'.symm.trans horig)
          exact ⟨_, rfl, rfl⟩
      | awaits ha =>
          have htalk := ha.talk
          rw [hq.talk] at htalk
          cases htalk
      | replied horig' | untouched horig' =>
          rw [horig] at horig'
          cases horig'
    · cases hd with
      | performed horig' =>
          rw [horig] at horig'
          cases horig'
      | awaits ha =>
          have htalk := ha.talk
          rw [hq.talk] at htalk
          cases htalk
      | replied _ _ hr hd =>
          obtain rfl := Option.some.inj (hr.symm.trans hreply)
          unfold Answers at hd
          rwa [if_neg (by simp [hterm])] at hd
      | untouched _ _ hr =>
          rw [hreply] at hr
          cases hr
  cases hf with
  | idle hno =>
      rw [hno c hcall] at hc
      cases hc
  | issued hcall' _ hd =>
      obtain rfl := Option.some.inj (hcall'.symm.trans hcall)
      obtain ⟨w, hw, -⟩ := hdone _ hd
      cases hw
  | performed hcall' _ hd =>
      obtain rfl := Option.some.inj (hcall'.symm.trans hcall)
      obtain ⟨w, hw, heq⟩ := hdone _ hd
      cases hw
      exact ⟨_, rfl, heq⟩

/-- What is recorded does not matter. -/
theorem Done.write {h : Ann} {c : Syscall} {done : Option Word} (hd : Done m h c done)
    {x : LogEntry Tid} : Done (m.write x) h c done := by
  cases hd with
  | performed hw => exact .performed hw
  | awaits ha hs hd => exact .awaits ha hs hd
  | replied hw htalk hr hd => exact .replied hw htalk hr hd
  | untouched hw htalk hr => exact .untouched hw htalk hr

/-- Before there is a response the call has not been performed. -/
theorem not_done_of_awaits {h : Ann} {p : Ptr} {c : Syscall} (ha : h.Awaits p c)
    (hnone : ∀ x, Serving c (m.channel p) x → x = none) {w : Word} : ¬ Done m h c (some w) := by
  intro hd
  obtain ⟨fd, hasks⟩ := ha.asks
  cases hd with
  | performed horig =>
      rw [hasks.orig] at horig
      cases horig
  | @awaits q x _ ha' hs hd =>
      obtain ⟨fd', hasks'⟩ := ha'.asks
      obtain ⟨rfl, -⟩ := Prod.mk.inj (Option.some.inj (hasks'.entry.symm.trans hasks.entry))
      obtain rfl := hnone x hs
      cases hd
  | replied _ htalk => exact htalk ha.talk

/-- Nor when it is about to be. -/
theorem not_done_of_mayPerform {h : Ann} (hc : h.Coherent) {c : Syscall} (hp : h.MayPerform c)
    {w : Word} : ¬ Done m h c (some w) := by
  intro hd
  cases hd with
  | performed horig =>
      rw [hp.orig] at horig
      cases horig
  | awaits ha =>
      obtain ⟨fd, hasks⟩ := ha.asks
      exact hc.mode (by simp [hasks.entry]) hp.mode
  | replied _ _ hr hd =>
      unfold Answers at hd
      split at hd
      · cases hd
      · rename_i hterm
        rw [hp.reply (by simpa using hterm)] at hr
        cases hr

/-! ## One step -/

variable [DecidableEq Tid] {ann : Tid → Ann} {t u : Tid}

namespace OneUser

section Sem

variable {e : Env} {o : Op} {r : o.Res} (h : OneUser m ann) (hp : (ann t).pre o)
  (ho : m.sem t e o = some (r, m'))
include h hp ho

/-- What the caller knows of its call keeps up with the exchange. -/
theorem done_sem (horiginal : ∀ c, o ≠ .original c) {c : Syscall} {done : Option Word}
    (hcall : (ann t).call = some c) (hd : Done m (ann t) c done) :
    Done m' ((ann t).next o r) c done := by
  have horig : ((ann t).next o r).orig = (ann t).orig := Ann.next_orig horiginal r
  cases hd with
  | performed hw => exact .performed (horig.trans hw)
  | @awaits p x _ ha hs hd =>
      obtain ⟨fd, hasks⟩ := ha.asks
      obtain rfl | hnext := ha.next (h.held.coherent t) hp r
      · obtain ⟨a, hrecv, -⟩ := sem_recv ho
        obtain rfl := (hs.recv hrecv).1
        exact .replied (horig.trans hasks.orig) (by simp [Ann.next]) rfl hd
      · have hrecv : o ≠ .CPART_recv_from_thread p := by
          rintro rfl
          cases hnext.talk
        obtain ⟨hexchange, hdata⟩ := h.channel_sem hp ho ha hrecv
        exact .awaits hnext (hs.congr hexchange hdata) hd
  | replied hw htalk hr hd =>
      have hrecv : ∀ p, o ≠ .CPART_recv_from_thread p := by
        rintro p rfl
        obtain ⟨fd, -, hasked⟩ := hp
        exact htalk hasked
      have hreply := Ann.next_reply (h := ann t) hrecv r
      refine .replied (horig.trans hw) (fun hasked => ?_) (hreply.trans hr) hd
      -- it has its response and asks no more
      obtain ⟨q, d, fd, hasks⟩ := ((h.held.coherent t).next hp r).asked hasked
      have hnone := hasks.reply
      rw [hreply, hr] at hnone
      cases hnone
  | untouched hw htalk hr =>
      have hrecv : ∀ p, o ≠ .CPART_recv_from_thread p := by
        rintro p rfl
        obtain ⟨fd, -, hasked⟩ := hp
        exact htalk hasked
      by_cases hasked : ((ann t).next o r).talk = .asked
      · obtain ⟨q, d, fd, hasks⟩ := ((h.held.coherent t).next hp r).asked hasked
        have hcall' := ((ann t).next_call o r).symm.trans hasks.call
        obtain rfl := Option.some.inj (hcall'.symm.trans hcall)
        have hawaits : (Function.update ann t ((ann t).next o r) t).Awaits q d := by
          rw [Function.update_self]
          exact ⟨hasked, fd, hasks⟩
        obtain ⟨hold, -⟩ | ⟨-, -, hserving⟩ := h.serving_sem hp ho hawaits
        · exact absurd hold.talk htalk
        · rw [Function.update_self] at hawaits
          exact .awaits hawaits hserving rfl
      · exact .untouched (horig.trans hw) hasked ((Ann.next_reply hrecv r).trans hr)

/-- The other threads' calls are where they were. -/
theorem done_other (hut : u ≠ t) {c : Syscall} {done : Option Word} (hd : Done m (ann u) c done) :
    Done m' (ann u) c done := by
  cases hd with
  | performed hw => exact .performed hw
  | replied hw htalk hr hd => exact .replied hw htalk hr hd
  | untouched hw htalk hr => exact .untouched hw htalk hr
  | @awaits p x _ ha hs hd =>
      have hawaits : (Function.update ann t ((ann t).next o r) u).Awaits p c := by
        rwa [Function.update_of_ne hut]
      obtain ⟨-, hkeep⟩ | ⟨heq, -⟩ := h.serving_sem hp ho hawaits
      · exact .awaits ha (hkeep x hs) hd
      · exact absurd heq hut

end Sem

/-- The `switch` serves the one thread that awaits its response. -/
theorem awaits_of_switch (h : OneUser m ann) {p : Ptr} {o : Outcome}
    (hb : m.Serves (.switch p o) m') :
    ∃ t c, (ann t).Awaits p c ∧ (m.channel p).send_data = send_data c ∧
      ∀ x, Serving c (m.channel p) x → x = none ∧
        Serving c (m'.channel p) (some (serve (send_data c) (m.channel p).recv_data o)) := by
  obtain ⟨t, c, ha⟩ : ∃ t c, (ann t).Awaits p c := by
    by_contra hno
    have hclean := h.clean p fun t c ha => hno ⟨t, c, ha⟩
    have hphase := hb.switch_cases.2.1
    rw [hclean.phase] at hphase
    cases hphase
  have hserve : ∀ x, Serving c (m.channel p) x → x = none ∧
      (m.channel p).send_data = send_data c ∧
        Serving c (m'.channel p) (some (serve (send_data c) (m.channel p).recv_data o)) := by
    intro x hx
    obtain ⟨-, hno⟩ | ⟨o', heq, hnone, hdata, hnew⟩ :=
      hx.serves hb fun hl => h.waiting p (.inr hl)
    · exact absurd rfl (hno o)
    · cases heq
      exact ⟨hnone, hdata, hnew⟩
  obtain ⟨x, hx⟩ := h.serving t p c ha
  exact ⟨t, c, ha, (hserve x hx).2.1, fun y hy => ⟨(hserve y hy).1, (hserve y hy).2.2⟩⟩

/-- A thread that serves another call, or does not serve now. -/
theorem done_serves (h : OneUser m ann) {b : ThreadStep} (hb : m.Serves b m')
    (hother : ∀ p o c, b = .switch p o → ¬ (ann u).Awaits p c) {c : Syscall} {done : Option Word}
    (hd : Done m (ann u) c done) : Done m' (ann u) c done := by
  cases hd with
  | performed hw => exact .performed hw
  | replied hw htalk hr hd => exact .replied hw htalk hr hd
  | untouched hw htalk hr => exact .untouched hw htalk hr
  | @awaits p x _ ha hs hd =>
      obtain ⟨hsame, -⟩ | ⟨o, hbo, -⟩ := hs.serves hb fun hl => h.waiting p (.inr hl)
      · exact .awaits ha hsame hd
      · exact absurd ha (hother p o c hbo)

end OneUser

/-- **The invariant**: the library's log is one without the library. -/
structure Transparent (m : Machine Tid) (ann : Tid → Ann) : Prop extends OneUser m ann where
  direct : ∃ slot, Direct (forwarded m.log) slot ∧ ∀ t, Fits m (ann t) (slot t)

namespace Transparent

/-- One of the nineteen calls moves on. -/
theorem direct_snoc {slot : Tid → Slot} (hdirect : Direct (forwarded m.log) slot)
    (hfits : ∀ u, Fits m (ann u) (slot u)) {x : LogEntry Tid} {s : Slot} {ann' : Tid → Ann}
    (hlog : m'.log = m.log ++ [x]) (hx : x.call.forwards = true)
    (hm : Slot.Moves t (slot t) x s)
    (hfree : ∀ u d, u ≠ t → (ann u).call = some d → d.descriptor ≠ x.call.descriptor)
    (hself : Fits m' (ann' t) s)
    (hothers : ∀ u, u ≠ t → Fits m (ann u) (slot u) → Fits m' (ann' u) (slot u)) :
    ∃ slot, Direct (forwarded m'.log) slot ∧ ∀ u, Fits m' (ann' u) (slot u) := by
  refine ⟨Function.update slot t s, ?_, fun u => ?_⟩
  · rw [hlog, forwarded_append hx]
    exact hdirect.snoc hm fun u d hut hd => hfree u d hut ((hfits u).call_eq hd).1
  · by_cases hut : u = t
    · rwa [hut, Function.update_self]
    · rw [Function.update_of_ne hut]
      exact hothers u hut (hfits u)

/-- No other thread uses the descriptor of a call. -/
theorem free (h : Transparent m ann) {c : Syscall} (hcall : (ann t).call = some c)
    (hc : c.forwards = true) (u : Tid) (d : Syscall) (hut : u ≠ t) (hd : (ann u).call = some d) :
    d.descriptor ≠ c.descriptor := by
  intro heq
  exact hut (h.single t u c d hcall hd heq.symm (Syscall.descriptor_of_forwards hc)).symm

/-- **One operation of an application thread.** -/
theorem sem (h : Transparent m ann) {e : Env} {o : Op} {r : o.Res} (hp : (ann t).pre o)
    (ho : m.sem t e o = some (r, m')) (hfinds : ∀ x ∈ m.world.table.finds o, x.thr_fd ≠ -12) :
    Transparent m' (Function.update ann t ((ann t).next o r)) where
  toOneUser := h.toOneUser.sem hp ho hfinds
  direct := by
    obtain ⟨slot, hdirect, hfits⟩ := h.direct
    have hothers : ∀ u, u ≠ t → Fits m (ann u) (slot u) →
        Fits m' (Function.update ann t ((ann t).next o r) u) (slot u) := by
      intro u hut hf
      rw [Function.update_of_ne hut]
      exact hf.mono rfl fun c done _ hd => h.toOneUser.done_other hp ho hut hd
    by_cases horiginal : ∃ c, o = .original c
    · obtain ⟨c, rfl⟩ := horiginal
      obtain ⟨-, hlog, -⟩ := sem_original ho
      by_cases hc : c.forwards = true
      · have hnot : ∀ w, ¬ Done m (ann t) c (some w) :=
          fun w => not_done_of_mayPerform (h.held.coherent t) hp
        obtain ⟨hslot, -⟩ := (hfits t).eq_issued hp.call hc hnot
        refine direct_snoc (x := .performed (some t) c r) (s := .performed c r) hdirect hfits hlog
          hc ?_ (h.free hp.call hc) ?_ hothers
        · rw [hslot]
          exact .performed (.inr rfl) r
        · rw [Function.update_self]
          exact .performed (((ann t).next_call _ r).trans hp.call) hc (.performed rfl)
      · have hno : ∀ d, (ann t).call = some d → d.forwards = false := by
          intro d hd
          obtain rfl := Option.some.inj (hd.symm.trans hp.call)
          simpa using hc
        refine ⟨slot, ?_, fun u => ?_⟩
        · rwa [hlog, forwarded_append_of_not (x := .performed (some t) c r)
              (by simpa [LogEntry.call] using hc)]
        · by_cases hut : u = t
          · rw [hut, Function.update_self, (hfits t).eq_idle hno]
            refine .idle fun d hd => hno d ?_
            rwa [Ann.next_call] at hd
          · exact hothers u hut (hfits u)
    · have hno : ∀ c, o ≠ .original c := fun c hco => horiginal ⟨c, hco⟩
      refine ⟨slot, ?_, fun u => ?_⟩
      · rwa [log_of_sem ho hno]
      · by_cases hut : u = t
        · rw [hut, Function.update_self]
          exact (hfits t).mono ((ann t).next_call o r) fun c done hcall hd =>
            h.toOneUser.done_sem hp ho hno hcall hd
        · exact hothers u hut (hfits u)

/-- The `switch` moves the log on, if the call is one that it performs. -/
theorem direct_switch (h : Transparent m ann) {p : Ptr} {o : Outcome}
    (hb : m.Serves (.switch p o) m') :
    ∃ slot, Direct (forwarded m'.log) slot ∧ ∀ u, Fits m' (ann u) (slot u) := by
  obtain ⟨slot, hdirect, hfits⟩ := h.direct
  obtain ⟨t, c, ha, hdata, hserve⟩ := h.toOneUser.awaits_of_switch hb
  obtain ⟨fd, hasks⟩ := ha.asks
  obtain ⟨x, hx⟩ := h.serving t p c ha
  have hnew := (hserve x hx).2
  have hothers : ∀ u, u ≠ t → Fits m (ann u) (slot u) → Fits m' (ann u) (slot u) := by
    intro u hut hf
    refine hf.mono rfl fun d done _ hd => h.toOneUser.done_serves hb ?_ hd
    rintro q o' d' heq hu
    cases heq
    obtain ⟨fd', hasks'⟩ := hu.asks
    exact hut (h.toOneUser.eq_of_asks hasks' hasks)
  have hnot : ∀ w, ¬ Done m (ann t) c (some w) :=
    fun w => not_done_of_awaits ha fun x hx => (hserve x hx).1
  have hlog := hb.switch_cases.1
  rw [hdata] at hlog
  obtain ⟨hc, hterm, hdispatch⟩ | ⟨hterm, hdispatch⟩ | ⟨hc, hdispatch⟩ :=
    dispatch_forwards hasks.descriptor
  · obtain ⟨hnone, -⟩ | ⟨d, hd, hlog⟩ := hlog
    · rw [hdispatch] at hnone
      cases hnone
    · obtain rfl := Option.some.inj (hdispatch.symm.trans hd)
      obtain ⟨hslot, -⟩ := (hfits t).eq_issued hasks.call hc hnot
      refine direct_snoc (x := .performed none c o.result) (s := .performed c o.result) hdirect
        hfits hlog hc ?_ (h.free hasks.call hc) ?_ hothers
      · rw [hslot]
        exact .performed (.inl rfl) o.result
      · refine .performed hasks.call hc (.awaits ha hnew ?_)
        show Answers c _ _
        rw [Answers, if_neg (by simp [hterm])]
        exact ⟨o.result, rfl, forwards_replyValue hc hterm _ o⟩
  · -- the request that ends the thread: the caller performs its call itself
    refine ⟨slot, ?_, fun u => ?_⟩
    · obtain ⟨-, hlog⟩ | ⟨d, hd, -⟩ := hlog
      · rwa [hlog]
      · rw [hdispatch] at hd
        cases hd
    · by_cases hut : u = t
      · have hc : c.forwards = true := by
          cases c with
          | close | shutdown => rfl
          | _ => cases hterm
        obtain ⟨hslot, -⟩ := (hfits t).eq_issued hasks.call hc hnot
        rw [hut, hslot]
        refine .issued hasks.call hc (.awaits ha hnew ?_)
        show Answers c _ _
        rw [Answers, if_pos hterm]
      · exact hothers u hut (hfits u)
  · have hno : ∀ d, (ann t).call = some d → d.forwards = false := by
      intro d hd
      obtain rfl := Option.some.inj (hd.symm.trans hasks.call)
      exact hc
    refine ⟨slot, ?_, fun u => ?_⟩
    · obtain ⟨-, hlog⟩ | ⟨d, hd, hlog⟩ := hlog
      · rwa [hlog]
      · rwa [hlog, forwarded_append_of_not (x := .performed none d o.result) (hdispatch d hd)]
    · by_cases hut : u = t
      · rw [hut, (hfits t).eq_idle hno]
        exact .idle hno
      · exact hothers u hut (hfits u)

/-- **One step of an entry's thread.** What it performs is the call of the
one thread that awaits its response. -/
theorem serves {b : ThreadStep} (h : Transparent m ann) (hb : m.Serves b m') :
    Transparent m' ann where
  toOneUser := h.toOneUser.serves hb
  direct := by
    by_cases hswitch : ∃ p o, b = .switch p o
    · obtain ⟨p, o, rfl⟩ := hswitch
      exact h.direct_switch hb
    · obtain ⟨slot, hdirect, hfits⟩ := h.direct
      have hno : ∀ p o, b ≠ .switch p o := fun p o hbo => hswitch ⟨p, o, hbo⟩
      refine ⟨slot, ?_, fun u => (hfits u).mono rfl fun c done _ hd => ?_⟩
      · rwa [hb.log hno]
      · exact h.toOneUser.done_serves hb (fun p o _ hbo => absurd hbo (hno p o)) hd

/-- A thread makes a call on a descriptor that no other thread uses. -/
theorem issued (h : Transparent m ann) (ht : ann t = {}) (c : Syscall)
    (hfree : ∀ u d, u ≠ t → (ann u).call = some d → d.descriptor = c.descriptor →
      c.descriptor = none) :
    Transparent (enter t c m) (Function.update ann t (.start c)) where
  toOneUser := by
    have hidle : (ann t).Quiet := by
      rw [ht]
      exact ⟨.inl rfl, rfl, rfl, rfl⟩
    refine OneUser.write (h.toOneUser.update (h.held.start ht c) hidle ?_ ?_) _
    · exact ⟨.inl rfl, rfl, rfl, rfl⟩
    · intro d hd u d' hut hd' heq
      cases hd
      exact hfree u d' hut hd' heq.symm
  direct := by
    obtain ⟨slot, hdirect, hfits⟩ := h.direct
    have hidle : slot t = .idle := by
      refine (hfits t).eq_idle fun d hd => ?_
      rw [ht] at hd
      cases hd
    have hothers : ∀ u, u ≠ t → Fits m (ann u) (slot u) →
        Fits (enter t c m) (Function.update ann t (.start c) u) (slot u) := by
      intro u hut hf
      rw [Function.update_of_ne hut]
      exact hf.mono rfl fun _ _ _ hd => hd.write
    by_cases hc : c.forwards = true
    · refine direct_snoc (x := .issued t c) (s := .issued c) hdirect hfits rfl hc ?_ ?_ ?_ hothers
      · rw [hidle]
        exact .issued c
      · intro u d hut hd heq
        exact Syscall.descriptor_of_forwards hc (hfree u d hut hd heq)
      · rw [Function.update_self]
        exact .issued rfl hc (.untouched rfl (by simp [Ann.start]) rfl)
    · refine ⟨slot, ?_, fun u => ?_⟩
      · show Direct (forwarded (m.log ++ [.issued t c])) slot
        rwa [forwarded_append_of_not (x := .issued t c) (by simpa [LogEntry.call] using hc)]
      · by_cases hut : u = t
        · rw [hut, Function.update_self, hidle]
          refine .idle fun d hd => ?_
          cases hd
          simpa using hc
        · exact hothers u hut (hfits u)

/-- A call returns. -/
theorem returned (h : Transparent m ann) {c : Syscall} {a : Word} (hpost : (ann t).post a)
    (hcall : (ann t).call = some c) :
    Transparent (leave t c a m) (Function.update ann t {}) where
  toOneUser := by
    refine OneUser.write (h.toOneUser.update (h.held.idle hpost.1) hpost.1 ?_ ?_) _
    · exact ⟨.inl rfl, rfl, rfl, rfl⟩
    · intro d hd
      cases hd
  direct := by
    obtain ⟨slot, hdirect, hfits⟩ := h.direct
    obtain ⟨hq, d, hcall', hreturns, -⟩ := hpost
    obtain rfl := Option.some.inj (hcall'.symm.trans hcall)
    have hothers : ∀ u, u ≠ t → Fits m (ann u) (slot u) →
        Fits (leave t d a m) (Function.update ann t {} u) (slot u) := by
      intro u hut hf
      rw [Function.update_of_ne hut]
      exact hf.mono rfl fun _ _ _ hd => hd.write
    have hself : Fits (leave t d a m) (Function.update ann t {} t) .idle := by
      rw [Function.update_self]
      refine .idle fun d hd => ?_
      cases hd
    by_cases hc : d.forwards = true
    · obtain ⟨w, hslot, rfl⟩ := (hfits t).eq_performed hcall hc hq hreturns
      refine direct_snoc (x := .returned t d (d.origValue w)) hdirect hfits rfl hc ?_
        (h.free hcall hc) hself hothers
      rw [hslot]
      exact .returned d w
    · have hno : ∀ c, (ann t).call = some c → c.forwards = false := by
        intro c hc'
        obtain rfl := Option.some.inj (hc'.symm.trans hcall)
        simpa using hc
      refine ⟨slot, ?_, fun u => ?_⟩
      · show Direct (forwarded (m.log ++ [.returned t d a])) slot
        rwa [forwarded_append_of_not (x := .returned t d a) (by simpa [LogEntry.call] using hc)]
      · by_cases hut : u = t
        · rw [hut, (hfits t).eq_idle hno]
          exact hself
        · exact hothers u hut (hfits u)

end Transparent

theorem transparent_init : Transparent ({} : Machine Tid) fun _ => {} where
  toOneUser := oneUser_init
  direct := by
    refine ⟨fun _ => .idle, .nil, fun _ => .idle fun c hc => ?_⟩
    cases hc

/-! ## Runs -/

/-- No two threads use a descriptor at the same time, and an insertion is one
step for the lookups: they find no entry without its descriptor. -/
def Orderly (s : State Tid) : Label Tid → Prop
  | .inl (.call _ c) =>
      ∀ u, ∀ x ∈ s.thread u, x.1.descriptor = c.descriptor → c.descriptor = none
  | .inl (.step t _) =>
      ∀ o ∈ nextOp (s.thread t), ∀ x ∈ s.shared.world.table.finds o, x.thr_fd ≠ -12
  | .inr _ => True

instance [Fintype Tid] (s : State Tid) (l : Label Tid) : Decidable (Orderly s l) :=
  match l with
  | .inl (.call _ _) => inferInstanceAs (Decidable (∀ u, ∀ x ∈ s.thread u, _))
  | .inl (.step t _) => inferInstanceAs (Decidable (∀ o ∈ nextOp (s.thread t), _))
  | .inr _ => inferInstanceAs (Decidable True)

/-- Annotations and texts are about the same calls. -/
theorem call_of_outlined {h : Ann} {x : Option (Syscall × Wrapper Word)}
    (hx : Threads.Outlined Ann.next (fun _ _ _ _ => True) (fun c h o => h.pre o ∧ h.call = some c)
      (fun c h a => h.post a ∧ h.call = some c) {} h x) (c : Syscall) :
    h.call = some c ↔ ∃ k, x = some (c, k) := by
  cases x with
  | none =>
      have hidle : h = {} := hx
      rw [hidle]
      simp
  | some y =>
      obtain ⟨d, k⟩ := y
      have hcall : h.call = some d := by
        cases k with
        | ret a => exact hx.2
        | op o k => exact hx.1.2
      rw [hcall]
      simp

theorem transparent_of_reachable {s : State Tid} (h : Run.Reachable step Orderly init s) :
    ∃ ann, Transparent s.shared ann ∧ ∀ t, Threads.Outlined Ann.next (fun _ _ _ _ => True)
      (fun c h o => h.pre o ∧ h.call = some c) (fun c h a => h.post a ∧ h.call = some c) {}
      (ann t) (s.thread t) := by
  refine Threads.outlined_of_reachable_all ({} : Ann) h wrapper_outline (fun _ => rfl)
    transparent_init ?_ ?_ ?_ ?_
  · intro s ann t c htr hann ht hg
    have hidle : ann t = {} := by
      have htext := hann t
      rw [ht] at htext
      exact htext
    refine htr.issued hidle c fun u d _ hd heq => ?_
    obtain ⟨k, hk⟩ := (call_of_outlined (hann u) d).mp hd
    exact hg u (d, k) hk heq
  · intro s ann t e c a htr _ _ hpost
    exact htr.returned hpost.1 hpost.2
  · intro s ann t e c o k r sh htr ht hg hpre ho
    refine ⟨trivial, htr.sem hpre.1 ho ?_⟩
    exact hg o (by rw [ht]; rfl)
  · intro s ann b sh htr _ hb
    exact htr.serves (serves_of_syscall_thread hb)

/-- The calls in `P`: what the application makes is what is performed, one
after the other, and what the wrappers return is what that gave. A call
under way can be missing at the end. -/
structure Sequences (P : Syscall → Bool) (s : State Tid) : Prop where
  performed : ∃ rest, s.shared.log.filterMap (LogEntry.issuedCall P)
      = s.shared.log.filterMap (LogEntry.performedCall P) ++ rest ∧
    (rest = [] ∨ ∃ t c k, rest = [c] ∧ s.thread t = some (c, k) ∧ P c = true)
  returned : ∃ rest, s.shared.log.filterMap (LogEntry.result P)
      = s.shared.log.filterMap (LogEntry.value P) ++ rest ∧
    (rest = [] ∨ ∃ t c k w, rest = [c.origValue w] ∧ s.thread t = some (c, k) ∧ P c = true)

/-- The nineteen calls on a descriptor. -/
def onDescriptor (fd : CInt) (c : Syscall) : Bool := c.forwards && c.descriptor == some fd

/-- The log is one without the library; the sequences of calls on each
descriptor are right, and where one thread makes all calls the whole
sequence is. -/
structure CallsTransparent (s : State Tid) : Prop where
  direct : ∃ slot, Direct (forwarded s.shared.log) slot ∧
    ∀ t c, (slot t).call = some c ↔ c.forwards = true ∧ ∃ k, s.thread t = some (c, k)
  descriptor : ∀ fd, Sequences (onDescriptor fd) s
  thread : ∀ t, (∀ u c, .issued u c ∈ s.shared.log → u = t) → Sequences Syscall.forwards s

/-- The sequences of a log without the library. -/
theorem sequences_of_direct {P : Syscall → Bool} {s : State Tid} {slot : Tid → Slot}
    (hdirect : Direct (forwarded s.shared.log) slot)
    (hslot : ∀ t c, (slot t).call = some c → ∃ k, s.thread t = some (c, k))
    (hP : ∀ c, P c = true → c.forwards = true)
    (hone : OneAtATime P (forwarded s.shared.log)) : Sequences P s := by
  have hno : ∀ c : Syscall, c.forwards = false → ¬ P c = true := by
    intro c hc hPc
    rw [hP c hPc] at hc
    cases hc
  constructor
  · obtain ⟨rest, heq, hrest⟩ := hdirect.performed_eq hone
    rw [filterMap_forwarded, filterMap_forwarded] at heq
    · refine ⟨rest, heq, ?_⟩
      cases hrest with
      | empty => exact .inl rfl
      | @single t a ht =>
          obtain ⟨hs, hPa⟩ := Slot.unperformed_eq_some ht
          obtain ⟨k, hk⟩ := hslot t a (by rw [hs]; rfl)
          exact .inr ⟨t, a, k, rfl, hk, hPa⟩
    · intro x hx
      cases x with
      | performed _ c => exact if_neg (hno c hx)
      | _ => rfl
    · intro x hx
      cases x with
      | issued _ c => exact if_neg (hno c hx)
      | _ => rfl
  · obtain ⟨rest, heq, hrest⟩ := hdirect.values_eq hone
    rw [filterMap_forwarded, filterMap_forwarded] at heq
    · refine ⟨rest, heq, ?_⟩
      cases hrest with
      | empty => exact .inl rfl
      | @single t a ht =>
          obtain ⟨c, w, hs, hPc, rfl⟩ := Slot.unreturned_eq_some ht
          obtain ⟨k, hk⟩ := hslot t c (by rw [hs]; rfl)
          exact .inr ⟨t, c, k, w, rfl, hk, hPc⟩
    · intro x hx
      cases x with
      | returned _ c => exact if_neg (hno c hx)
      | _ => rfl
    · intro x hx
      cases x with
      | performed _ c => exact if_neg (hno c hx)
      | _ => rfl

/-- In every state of every run in which each descriptor has one user and
insertions are atomic, for any calls by any number of threads, with and
without entries. -/
theorem callsTransparent_of_reachable {s : State Tid} (h : Run.Reachable step Orderly init s) :
    CallsTransparent s := by
  obtain ⟨ann, htr, hann⟩ := transparent_of_reachable h
  obtain ⟨slot, hdirect, hfits⟩ := htr.direct
  have hcall : ∀ t c, (slot t).call = some c → ∃ k, s.thread t = some (c, k) := fun t c hs =>
    (call_of_outlined (hann t) c).mp ((hfits t).call_eq hs).1
  refine ⟨⟨slot, hdirect, fun t c => ⟨fun hs => ⟨((hfits t).call_eq hs).2, hcall t c hs⟩, ?_⟩⟩,
    fun fd => ?_, fun t hone => ?_⟩
  · rintro ⟨hc, hk⟩
    exact (hfits t).call_of_forwards ((call_of_outlined (hann t) c).mpr hk) hc
  · refine sequences_of_direct hdirect hcall ?_ ?_
    · intro c hc
      exact (Bool.and_eq_true_iff.mp hc).1
    · intro log' slot' _ hdirect' t u c d ht hu hc hd
      simp only [onDescriptor, Bool.and_eq_true, beq_iff_eq] at hc hd
      exact hdirect'.eq_of_descriptor ht hu (hc.2.trans hd.2.symm)
  · refine sequences_of_direct hdirect hcall (fun c hc => hc) ?_
    intro log' slot' hlog' hdirect' u v c d hu hv _ _
    have hissued : ∀ w e, .issued w e ∈ log' → w = t := by
      intro w e hmem
      exact hone w e (List.mem_of_mem_filter (hlog'.subset hmem))
    rw [hdirect'.eq_of_issued hissued hu, hdirect'.eq_of_issued hissued hv]

end Machine

end CorePartitioning.Preload
