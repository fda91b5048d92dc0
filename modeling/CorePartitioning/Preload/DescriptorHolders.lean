import CorePartitioning.Preload.Descriptors

/-!
# ld_preload.c — who has a descriptor

From the original call that gives a descriptor to the original `close` that
takes it back, the descriptor is with the wrapper of the creating call, with
an entry's thread or in its response, with the application, or with the
wrapper of `close`. It can be lost on the way, when a request overwrites
the response that carries it, but it is never in two places.
-/

namespace CorePartitioning.Preload

namespace Machine

variable {Tid : Type} [DecidableEq Tid] {m m' : Machine Tid} {ann ann' : Tid → Ann} {t : Tid}
  {fd : CInt}

/-! ## The holders -/

/-- Requests of the seven calls but the last ones of an entry. -/
def Accepts (request_type : BitVec 32) : Prop := request_type = RequestType.TYPE_ACCEPT.code

inductive Holder (Tid : Type)
  | thread (t : Tid)
  | replying (p : Ptr)
  | response (p : Ptr)
  | application
  | closing (t : Tid)

def Holds (m : Machine Tid) (ann : Tid → Ann) (fd : CInt) : Holder Tid → Prop
  | .thread t => (ann t).fresh = some fd
  | .replying p =>
      0 < fd.toInt ∧ ∃ r, (m.channel p).exchange.phase = .replying r ∧
        Accepts r.request_type ∧ r.return_value = fd
  | .response p =>
      0 < fd.toInt ∧ (m.channel p).exchange.response = true ∧
        Accepts (m.channel p).exchange.message.request_type ∧
        (m.channel p).exchange.message.retval.return_value = fd
  | .application => (descriptor m.log fd).owned = true
  | .closing t => (ann t).orig = none ∧ ∃ c, (ann t).call = some c ∧ c.closes = some fd

/-- The descriptor is still on its way to the application. -/
def Holder.underway : Holder Tid → Bool
  | .thread _ | .replying _ | .response _ => true
  | .application | .closing _ => false

/-- An open descriptor has at most one holder, one that is not open none. -/
structure Tokens (m : Machine Tid) (ann : Tid → Ann) : Prop where
  single : ∀ fd a b, Holds m ann fd a → Holds m ann fd b → a = b
  backed : ∀ fd a, Holds m ann fd a → (descriptor m.log fd).opened = true
  positive : ∀ fd, (descriptor m.log fd).opened = true → 0 < fd.toInt

namespace Tokens

/-- Nobody gets a descriptor. -/
theorem frame (h : Tokens m ann)
    (hopened : ∀ fd, (descriptor m'.log fd).opened = (descriptor m.log fd).opened)
    (hheld : ∀ fd a, Holds m' ann' fd a → Holds m ann fd a) : Tokens m' ann' where
  single fd a b ha hb := h.single fd a b (hheld fd a ha) (hheld fd b hb)
  backed fd a ha := by
    rw [hopened]
    exact h.backed fd a (hheld fd a ha)
  positive fd hfd := by
    rw [hopened] at hfd
    exact h.positive fd hfd

/-- Some descriptors go from `src` to `dst`. -/
theorem move (h : Tokens m ann) (src dst : Holder Tid) (moved : CInt → Prop)
    (hopened : ∀ fd, (descriptor m'.log fd).opened = (descriptor m.log fd).opened)
    (hheld : ∀ fd a, Holds m' ann' fd a → (moved fd → a ≠ src) ∧ Holds m ann fd a ∨
      moved fd ∧ a = dst ∧ Holds m ann fd src) : Tokens m' ann' where
  single fd a b ha hb := by
    obtain ⟨hne, ha⟩ | ⟨hmoved, rfl, ha⟩ := hheld fd a ha
    · obtain ⟨-, hb⟩ | ⟨hmoved, -, hb⟩ := hheld fd b hb
      · exact h.single fd a b ha hb
      · exact absurd (h.single fd a src ha hb) (hne hmoved)
    · obtain ⟨hne, hb⟩ | ⟨-, rfl, -⟩ := hheld fd b hb
      · exact absurd (h.single fd b src hb ha) (hne hmoved)
      · rfl
  backed fd a ha := by
    rw [hopened]
    obtain ⟨-, ha⟩ | ⟨-, -, ha⟩ := hheld fd a ha
    · exact h.backed fd a ha
    · exact h.backed fd src ha
  positive fd hfd := by
    rw [hopened] at hfd
    exact h.positive fd hfd

/-- An original call has been performed, and `dst` has what it gives. -/
theorem perform (h : Tokens m ann) {x : Option Tid} {c : Syscall} {w : Word}
    (hlog : m'.log = m.log ++ [.performed x c w]) (hgives : GivesFree m.log c w) (dst : Holder Tid)
    (hheld : ∀ fd a, Holds m' ann' fd a →
      Holds m ann fd a ∧ c.closes ≠ some fd ∨ a = dst ∧ c.gives w = some fd) :
    Tokens m' ann' := by
  -- what the kernel gives nobody has
  have hfree : ∀ fd a, c.gives w = some fd → ¬ Holds m ann fd a := by
    intro fd a hg ha
    have hclosed := (hgives fd hg).2
    rw [h.backed fd a ha] at hclosed
    cases hclosed
  refine ⟨fun fd a b ha hb => ?_, fun fd a ha => ?_, fun fd hfd => ?_⟩
  · obtain ⟨ha, -⟩ | ⟨rfl, hg⟩ := hheld fd a ha
    · obtain ⟨hb, -⟩ | ⟨-, hg⟩ := hheld fd b hb
      · exact h.single fd a b ha hb
      · exact absurd ha (hfree fd a hg)
    · obtain ⟨hb, -⟩ | ⟨rfl, -⟩ := hheld fd b hb
      · exact absurd hb (hfree fd b hg)
      · rfl
  · rw [hlog, descriptor_append, Descriptor.opened_performed]
    obtain ⟨ha, hne⟩ | ⟨-, hg⟩ := hheld fd a ha
    · exact .inr ⟨h.backed fd a ha, hne⟩
    · exact .inl hg
  · rw [hlog, descriptor_append, Descriptor.opened_performed] at hfd
    obtain hg | ⟨hopen, -⟩ := hfd
    · obtain ⟨hcreates, hw⟩ := Descriptor.gives_eq_some hg
      have hne := (hgives fd hg).1
      simp only [Syscall.gives, hcreates, if_true, newDescriptor,
        Option.ite_none_right_eq_some] at hg
      have hnonneg : 0 ≤ fd.toInt := by
        rw [hw]
        exact hg.1
      have hzero : fd.toInt ≠ 0 := by
        intro hz
        exact hne (BitVec.eq_of_toInt_eq hz)
      omega
    · exact h.positive fd hopen

end Tokens

theorem tokens_init : Tokens ({} : Machine Tid) fun _ => {} := by
  have hnone : ∀ fd a, ¬ Holds ({} : Machine Tid) (fun _ => {}) fd a := by
    intro fd a
    cases a <;> simp [Holds, descriptor, Ipc.Exchange.init]
  exact ⟨fun fd a _ ha => absurd ha (hnone fd a), fun fd a ha => absurd ha (hnone fd a),
    fun _ => Bool.noConfusion⟩

/-! ## The application threads -/

/-- The holders but for the calls under way. -/
theorem holds_update {fd : CInt} {a : Holder Tid} {h : Ann}
    (hlog : m'.log = m.log)
    (hreplying : ∀ p, Holds m' ann fd (.replying p) → Holds m ann fd (.replying p))
    (hresponse : ∀ p, Holds m' ann fd (.response p) → Holds m ann fd (.response p))
    (hfresh : h.fresh = (ann t).fresh) (hcall : h.call = (ann t).call)
    (horig : h.orig = (ann t).orig) (ha : Holds m' (Function.update ann t h) fd a) :
    Holds m ann fd a := by
  cases a with
  | thread u =>
      by_cases hut : u = t
      · subst hut
        have hu : (Function.update ann u h u).fresh = some fd := ha
        rwa [Function.update_self, hfresh] at hu
      · have hu : (Function.update ann t h u).fresh = some fd := ha
        rwa [Function.update_of_ne hut] at hu
  | replying p => exact hreplying p ha
  | response p => exact hresponse p ha
  | application =>
      have hu : (descriptor m'.log fd).owned = true := ha
      rwa [hlog] at hu
  | closing u =>
      by_cases hut : u = t
      · subst hut
        have hu : (Function.update ann u h u).orig = none ∧
            ∃ c, (Function.update ann u h u).call = some c ∧ c.closes = some fd := ha
        rwa [Function.update_self, hcall, horig] at hu
      · have hu : (Function.update ann t h u).orig = none ∧
            ∃ c, (Function.update ann t h u).call = some c ∧ c.closes = some fd := ha
        rwa [Function.update_of_ne hut] at hu

theorem replying_sem {e : Env} {o : Op} {r : o.Res} (ho : m.sem t e o = some (r, m')) {p : Ptr}
    (h : Holds m' ann fd (.replying p)) : Holds m ann fd (.replying p) := by
  obtain ⟨hpos, r', hphase, hrest⟩ := h
  obtain hsame | hnew := phase_of_sem ho p
  · rw [hsame] at hphase
    exact ⟨hpos, r', hphase, hrest⟩
  · rw [hnew] at hphase
    cases hphase

variable (ann) in
/-- A request that covers a response leaves no descriptor in it. -/
theorem response_sem {e : Env} {o : Op} {r : o.Res} (hp : (ann t).pre o)
    (ho : m.sem t e o = some (r, m')) {p : Ptr} (h : Holds m' ann' fd (.response p)) :
    Holds m ann fd (.response p) ∧ o ≠ .CPART_recv_from_thread p := by
  obtain ⟨hpos, hresponse, htype, hvalue⟩ := h
  obtain ⟨hold, hne, hmessage⟩ | rfl := response_of_sem ho hresponse
  · rw [hmessage] at htype hvalue
    exact ⟨⟨hpos, hold, htype, hvalue⟩, hne⟩
  · obtain ⟨c, k, hask⟩ := hp
    have hargs := hask.args
    rw [hargs] at hvalue
    have hzero : (send_data c).retval.return_value = 0 := by cases c <;> rfl
    rw [← hvalue, hzero] at hpos
    cases hpos

/-- An original call: a creating one gives its caller a descriptor. -/
theorem Tokens.holds_original (h : Tokens m ann) {e : Env} {c : Syscall} {w : Word}
    (hp : (ann t).MayPerform c) (ho : m.sem t e (.original c) = some (w, m')) {a : Holder Tid}
    (ha : Holds m' (Function.update ann t ((ann t).next (.original c) w)) fd a) :
    Holds m ann fd a ∧ c.closes ≠ some fd ∨ a = .thread t ∧ c.gives w = some fd := by
  obtain ⟨-, hlog, hchannel, -⟩ := sem_original ho
  -- the only holder of a descriptor being closed is its closer
  have hcloses : ∀ fd a, Holds m ann fd a → a ≠ .closing t → c.closes ≠ some fd := by
    intro fd a ha hne hfd
    exact hne (h.single fd a (.closing t) ha ⟨hp.orig, c, hp.call, hfd⟩)
  cases a with
  | thread u =>
      by_cases hut : u = t
      · subst hut
        have hu : (if c.creates then newDescriptor (w.setWidth 32) else (ann u).fresh) =
            some fd := by
          simpa [Holds, Ann.next] using ha
        split at hu
        · refine .inr ⟨rfl, ?_⟩
          rw [Syscall.gives, if_pos ‹_›]
          exact hu
        · rw [hp.fresh] at hu
          cases hu
      · have hu : Holds m ann fd (.thread u) := by simpa [Holds, hut] using ha
        exact .inl ⟨hu, hcloses fd _ hu (by simp)⟩
  | replying p =>
      have hu : Holds m ann fd (.replying p) := by simpa [Holds, hchannel] using ha
      exact .inl ⟨hu, hcloses fd _ hu (by simp)⟩
  | response p =>
      have hu : Holds m ann fd (.response p) := by simpa [Holds, hchannel] using ha
      exact .inl ⟨hu, hcloses fd _ hu (by simp)⟩
  | application =>
      have hu : Holds m ann fd .application := by
        simpa [Holds, hlog, descriptor_append] using ha
      exact .inl ⟨hu, hcloses fd _ hu (by simp)⟩
  | closing u =>
      by_cases hut : u = t
      · subst hut
        have hu : ((ann u).next (.original c) w).orig = none := by
          simpa [Holds] using ha.1
        cases hu
      · have hu : Holds m ann fd (.closing u) := by simpa [Holds, hut] using ha
        refine .inl ⟨hu, hcloses fd _ hu ?_⟩
        rintro ⟨⟩
        exact hut rfl

/-- A response: `accept` takes the descriptor out of it. -/
theorem holds_recv (hm : Tended m ann) (hc : Carried Accepts m ann) {e : Env} {p : Ptr}
    {r : RetvalData} (hp : (ann t).pre (.CPART_recv_from_thread p))
    (ho : m.sem t e (.CPART_recv_from_thread p) = some (r, m')) {a : Holder Tid}
    (ha : Holds m' (Function.update ann t ((ann t).next (.CPART_recv_from_thread p) r)) fd a) :
    a ≠ .response p ∧ Holds m ann fd a ∨ a = .thread t ∧ Holds m ann fd (.response p) := by
  have hlog : m'.log = m.log := log_of_sem ho (by simp)
  cases a with
  | thread u =>
      by_cases hut : u = t
      · subst hut
        refine .inr ⟨rfl, ?_⟩
        obtain ⟨k, hentry, htalk⟩ := hp
        obtain ⟨q, c, k', hasks⟩ := (hm.held.coherent u).asked htalk
        obtain ⟨rfl, -⟩ := Prod.mk.inj (Option.some.inj (hentry.symm.trans hasks.entry))
        have hu : (if ((ann u).call.any Syscall.creates && 0 < r.return_value.toInt) = true then
            some r.return_value else (ann u).fresh) = some fd := by
          simpa [Holds, Ann.next] using ha
        split at hu
        · rename_i hnew
          obtain ⟨hcreates, hpos⟩ : c.creates = true ∧ 0 < r.return_value.toInt := by
            simpa [hasks.call] using hnew
          obtain rfl := Option.some.inj hu
          obtain ⟨a, hx, -⟩ := sem_recv ho
          obtain ⟨k', -, hresponse, heq⟩ := Ipc.Exchange.recv_from_thread_eq_some hx
          -- a reader: what is under way are responses to `accept`
          have hread : (ann u).mode = .read := by
            rw [hasks.mode]
            cases c <;> first | rfl | cases hcreates
          obtain ⟨v, he⟩ | hcarries := hc p (hm.kept.entry u p k hentry)
          · have huv := hm.held.eq_of_write he.mode (by rw [hread]; simp : (ann u).mode ≠ .none)
            rw [huv, he.mode] at hread
            cases hread
          · refine ⟨hpos, hresponse, hcarries.message (.inr hresponse), ?_⟩
            rw [(Prod.mk.inj heq).1]
        · rw [hasks.fresh] at hu
          cases hu
      · have hu : Holds m ann fd (.thread u) := by simpa [Holds, hut] using ha
        exact .inl ⟨by simp, hu⟩
  | replying q => exact .inl ⟨by simp, replying_sem ho ha⟩
  | response q =>
      obtain ⟨hold, hne⟩ := response_sem ann hp ho ha
      refine .inl ⟨?_, hold⟩
      rintro ⟨⟩
      exact hne rfl
  | application =>
      have hu : Holds m ann fd .application := by simpa [Holds, hlog] using ha
      exact .inl ⟨by simp, hu⟩
  | closing u =>
      refine .inl ⟨by simp, ?_⟩
      by_cases hut : u = t
      · subst hut
        simpa [Holds, Ann.next] using ha
      · simpa [Holds, hut] using ha

/-- The other operations. -/
theorem holds_other {e : Env} {o : Op} {r : o.Res} (hp : (ann t).pre o)
    (ho : m.sem t e o = some (r, m')) (horiginal : ∀ c, o ≠ .original c)
    (hrecv : ∀ p, o ≠ .CPART_recv_from_thread p) {a : Holder Tid}
    (ha : Holds m' (Function.update ann t ((ann t).next o r)) fd a) : Holds m ann fd a :=
  holds_update (log_of_sem ho horiginal) (fun _ => replying_sem ho)
    (fun _ hr => (response_sem ann hp ho hr).1) (Ann.next_fresh horiginal hrecv r)
    ((ann t).next_call o r) (Ann.next_orig horiginal r) ha

/-- **One operation of an application thread.** -/
theorem Tokens.sem (h : Tokens m ann) (hm : Tended m ann) (hc : Carried Accepts m ann) {e : Env}
    {o : Op} {r : o.Res} (hp : (ann t).pre o) (ho : m.sem t e o = some (r, m'))
    (hgives : ∀ c, o = .original c → GivesFree m.log c e.result) :
    Tokens m' (Function.update ann t ((ann t).next o r)) := by
  by_cases horiginal : ∃ c, o = .original c
  · obtain ⟨c, rfl⟩ := horiginal
    obtain ⟨hresult, hlog, -⟩ := sem_original ho
    refine h.perform hlog ?_ (.thread t) fun fd a ha => h.holds_original hp ho ha
    rw [hresult]
    exact hgives c rfl
  have hlog := log_of_sem ho fun c hco => horiginal ⟨c, hco⟩
  by_cases hrecv : ∃ p, o = .CPART_recv_from_thread p
  · obtain ⟨p, rfl⟩ := hrecv
    refine h.move (.response p) (.thread t) (fun _ => True) (fun fd => by rw [hlog]) ?_
    intro fd a ha
    obtain ⟨hne, hold⟩ | ⟨rfl, hsrc⟩ := holds_recv hm hc hp ho ha
    · exact .inl ⟨fun _ => hne, hold⟩
    · exact .inr ⟨trivial, rfl, hsrc⟩
  · refine h.frame (fun fd => by rw [hlog]) fun fd a => holds_other hp ho ?_ ?_
    · exact fun c hco => horiginal ⟨c, hco⟩
    · exact fun p hpo => hrecv ⟨p, hpo⟩

/-- A descriptor that is on its way was so before, or has just been given. -/
theorem Tokens.underway_sem (h : Tokens m ann) (hm : Tended m ann) (hc : Carried Accepts m ann)
    {e : Env} {o : Op} {r : o.Res} (hp : (ann t).pre o) (ho : m.sem t e o = some (r, m'))
    {a : Holder Tid} (hunderway : a.underway = true)
    (ha : Holds m' (Function.update ann t ((ann t).next o r)) fd a) :
    (∃ b, b.underway = true ∧ Holds m ann fd b) ∨
      ∃ c, o = .original c ∧ c.gives e.result = some fd := by
  by_cases horiginal : ∃ c, o = .original c
  · obtain ⟨c, rfl⟩ := horiginal
    obtain ⟨hold, -⟩ | ⟨-, hgives⟩ := h.holds_original hp ho ha
    · exact .inl ⟨a, hunderway, hold⟩
    · rw [(sem_original ho).1] at hgives
      exact .inr ⟨c, rfl, hgives⟩
  by_cases hrecv : ∃ p, o = .CPART_recv_from_thread p
  · obtain ⟨p, rfl⟩ := hrecv
    obtain ⟨-, hold⟩ | ⟨-, hsrc⟩ := holds_recv hm hc hp ho ha
    · exact .inl ⟨a, hunderway, hold⟩
    · exact .inl ⟨.response p, rfl, hsrc⟩
  · refine .inl ⟨a, hunderway, holds_other hp ho ?_ ?_ ha⟩
    · exact fun c hco => horiginal ⟨c, hco⟩
    · exact fun p hpo => hrecv ⟨p, hpo⟩

/-! ## The entries' threads -/

omit [DecidableEq Tid] in
/-- The original call for a request of `accept`. -/
theorem dispatch_accepts {send_data : ArgsData} (h : Accepts send_data.request_type) :
    ∃ c, dispatch send_data = some c ∧ c.creates = true := by
  refine ⟨.accept (lo send_data.w16) send_data.w24 send_data.w32, ?_, rfl⟩
  rw [dispatch, h, RequestType.ofCode_code]

omit [DecidableEq Tid] in
/-- Its result is what the response carries. -/
theorem serve_accepts {send_data : ArgsData} (h : Accepts send_data.request_type)
    (recv_data : RetvalData) (o : Outcome) :
    (serve send_data recv_data o).return_value = o.result.setWidth 32 := by
  apply serve_return_value
  · rw [h]
    rfl
  · rw [h]
    rfl

/-- A thread's step at `p` leaves the other holders alone. -/
theorem holds_set {p : Ptr} {ch : Channel Tid} {a : Holder Tid}
    (hch : m'.channel = Function.update m.channel p ch)
    (howned : (descriptor m'.log fd).owned = (descriptor m.log fd).owned)
    (ha : Holds m' ann fd a) :
    (a = .replying p ∨ a = .response p) ∨ a ≠ .replying p ∧ Holds m ann fd a := by
  cases a with
  | thread u => exact .inr ⟨nofun, ha⟩
  | closing u => exact .inr ⟨nofun, ha⟩
  | application => exact .inr ⟨nofun, howned.symm.trans ha⟩
  | replying q =>
      by_cases hqp : q = p
      · exact .inl (.inl (by rw [hqp]))
      · refine .inr ⟨?_, ?_⟩
        · rintro ⟨⟩
          exact hqp rfl
        · simpa [Holds, hch, hqp] using ha
  | response q =>
      by_cases hqp : q = p
      · exact .inl (.inr (by rw [hqp]))
      · refine .inr ⟨nofun, ?_⟩
        simpa [Holds, hch, hqp] using ha

/-- The `switch`: what an original `accept` gives goes into the response. -/
theorem holds_switch {p : Ptr} {o : Outcome} (hs : m.Serves (.switch p o) m') {a : Holder Tid}
    (ha : Holds m' ann fd a) :
    Holds m ann fd a ∨
      a = .replying p ∧ ∃ c, dispatch (m.channel p).send_data = some c ∧
        c.gives o.result = some fd := by
  obtain ⟨hlog, -, ch, hchannel, hphase, hresponse, hmessage⟩ := hs.switch_cases
  have howned : (descriptor m'.log fd).owned = (descriptor m.log fd).owned := by
    obtain ⟨-, hlog⟩ | ⟨c, -, hlog⟩ := hlog
    · rw [hlog]
    · rw [hlog, descriptor_append, Descriptor.owned_performed]
  obtain (rfl | rfl) | ⟨-, hold⟩ := holds_set hchannel howned ha
  · obtain ⟨hpos, r, hr, htype, hvalue⟩ := ha
    rw [hchannel, Function.update_self, hphase] at hr
    cases hr
    rw [Ipc.serve_request_type] at htype
    rw [serve_accepts htype] at hvalue
    obtain ⟨c, hc, hcreates⟩ := dispatch_accepts htype
    refine .inr ⟨rfl, c, hc, ?_⟩
    rw [Syscall.gives, if_pos hcreates, newDescriptor, hvalue, if_pos (by omega)]
  · refine .inl ?_
    simpa [Holds, hchannel, hresponse, hmessage] using ha
  · exact .inl hold

/-- The response goes into the message. -/
theorem holds_send_to_app {p : Ptr} (hs : m.Serves (.send_to_app p) m') {a : Holder Tid}
    (ha : Holds m' ann fd a) :
    a ≠ .replying p ∧ Holds m ann fd a ∨ a = .response p ∧ Holds m ann fd (.replying p) := by
  cases hs with
  | send_to_app hl hx =>
      obtain ⟨r, hr, -, rfl⟩ := Ipc.Exchange.send_to_app_eq_some hx
      obtain (rfl | rfl) | hold := holds_set (set_channel ..) rfl ha
      · simp [Holds] at ha
      · refine .inr ⟨rfl, ?_⟩
        obtain ⟨hpos, -, htype, hvalue⟩ := ha
        rw [set_channel, Function.update_self] at htype hvalue
        exact ⟨hpos, r, hr, htype, hvalue⟩
      · exact .inl hold

/-- The other steps. -/
theorem holds_serves {b : ThreadStep} (hs : m.Serves b m') (hswitch : ∀ p o, b ≠ .switch p o)
    (hsend : ∀ p, b ≠ .send_to_app p) {a : Holder Tid} (ha : Holds m' ann fd a) :
    Holds m ann fd a := by
  cases hs with
  | unfound | start =>
      obtain (rfl | rfl) | hold := holds_set (set_channel ..) rfl ha
      · simpa [Holds] using ha
      · simpa [Holds] using ha
      · exact hold.2
  | recv_from_app hl hx =>
      obtain ⟨-, -, rfl⟩ := Ipc.Exchange.recv_from_app_eq_some hx
      obtain (rfl | rfl) | hold := holds_set (set_channel ..) rfl ha
      · simp [Holds] at ha
      · simpa [Holds] using ha
      · exact hold.2
  | switch o => exact absurd rfl (hswitch _ o)
  | send_to_app => exact absurd rfl (hsend _)

omit [DecidableEq Tid] in
/-- Only the `switch` performs an original call. -/
theorem Serves.log {b : ThreadStep} (hs : m.Serves b m') (hswitch : ∀ p o, b ≠ .switch p o) :
    m'.log = m.log := by
  cases hs with
  | switch o => exact absurd rfl (hswitch _ o)
  | _ => rfl

/-- **One step of an entry's thread.** -/
theorem Tokens.serves (h : Tokens m ann) {b : ThreadStep} (hs : m.Serves b m')
    (hgives : ∀ p o, b = .switch p o →
      ∀ c ∈ dispatch (m.channel p).send_data, GivesFree m.log c o.result) :
    Tokens m' ann := by
  by_cases hswitch : ∃ p o, b = .switch p o
  · obtain ⟨p, o, rfl⟩ := hswitch
    obtain ⟨hnone, hlog⟩ | ⟨c, hc, hlog⟩ := hs.switch_cases.1
    · refine h.frame (fun fd => by rw [hlog]) fun fd a ha => ?_
      obtain hold | ⟨-, c, hc, -⟩ := holds_switch hs ha
      · exact hold
      · rw [hnone] at hc
        cases hc
    · refine h.perform hlog (hgives p o rfl c hc) (.replying p) fun fd a ha => ?_
      obtain hold | ⟨rfl, c', hc', hgives'⟩ := holds_switch hs ha
      · refine .inl ⟨hold, ?_⟩
        rw [Descriptor.closes_eq_none (dispatch_not_terminates hc)]
        nofun
      · obtain rfl : c = c' := Option.some.inj (hc.symm.trans hc')
        exact .inr ⟨rfl, hgives'⟩
  have hlog := hs.log fun p o hb => hswitch ⟨p, o, hb⟩
  by_cases hsend : ∃ p, b = .send_to_app p
  · obtain ⟨p, rfl⟩ := hsend
    refine h.move (.replying p) (.response p) (fun _ => True) (fun fd => by rw [hlog]) ?_
    intro fd a ha
    obtain ⟨hne, hold⟩ | ⟨rfl, hsrc⟩ := holds_send_to_app hs ha
    · exact .inl ⟨fun _ => hne, hold⟩
    · exact .inr ⟨trivial, rfl, hsrc⟩
  · refine h.frame (fun fd => by rw [hlog]) fun fd a => holds_serves hs ?_ ?_
    · exact fun p o hb => hswitch ⟨p, o, hb⟩
    · exact fun p hb => hsend ⟨p, hb⟩

theorem underway_serves {b : ThreadStep} (hs : m.Serves b m') {a : Holder Tid}
    (hunderway : a.underway = true) (ha : Holds m' ann fd a) :
    (∃ b, b.underway = true ∧ Holds m ann fd b) ∨
      ∃ p o c, b = .switch p o ∧ dispatch (m.channel p).send_data = some c ∧
        c.gives o.result = some fd := by
  by_cases hswitch : ∃ p o, b = .switch p o
  · obtain ⟨p, o, rfl⟩ := hswitch
    obtain hold | ⟨-, c, hc, hgives⟩ := holds_switch hs ha
    · exact .inl ⟨a, hunderway, hold⟩
    · exact .inr ⟨p, o, c, rfl, hc, hgives⟩
  by_cases hsend : ∃ p, b = .send_to_app p
  · obtain ⟨p, rfl⟩ := hsend
    obtain ⟨-, hold⟩ | ⟨-, hsrc⟩ := holds_send_to_app hs ha
    · exact .inl ⟨a, hunderway, hold⟩
    · exact .inl ⟨.replying p, rfl, hsrc⟩
  · refine .inl ⟨a, hunderway, holds_serves hs ?_ ?_ ha⟩
    · exact fun p o hb => hswitch ⟨p, o, hb⟩
    · exact fun p hb => hsend ⟨p, hb⟩

/-! ## The calls -/

/-- A call begins: `close` takes the descriptor from the application. -/
theorem Tokens.issued (h : Tokens m ann) {c : Syscall} (ht : ann t = {})
    (howned : ∀ fd ∈ c.closes, (descriptor m.log fd).owned = true) :
    Tokens (m.write (.issued t c)) (Function.update ann t (.start c)) := by
  refine h.move .application (.closing t) (fun fd => c.closes = some fd) ?_ fun fd a ha => ?_
  · intro fd
    rw [write_log, descriptor_append, Descriptor.opened_issued]
  cases a with
  | thread u =>
      by_cases hut : u = t
      · simp [Holds, hut, Ann.start] at ha
      · exact .inl ⟨fun _ => by simp, by simpa [Holds, hut] using ha⟩
  | replying p => exact .inl ⟨fun _ => by simp, ha⟩
  | response p => exact .inl ⟨fun _ => by simp, ha⟩
  | application =>
      have hu : ((descriptor m.log fd).step fd (.issued t c)).owned = true := by
        simpa [Holds, descriptor_append] using ha
      obtain ⟨hold, hne⟩ := Descriptor.owned_issued.mp hu
      exact .inl ⟨fun hfd => absurd hfd hne, hold⟩
  | closing u =>
      by_cases hut : u = t
      · subst hut
        have hfd : c.closes = some fd := by simpa [Holds, Ann.start] using ha
        exact .inr ⟨hfd, rfl, howned fd hfd⟩
      · exact .inl ⟨fun _ => by simp, by simpa [Holds, hut] using ha⟩

/-- A call returns: the application has the new descriptor. -/
theorem Tokens.returned (h : Tokens m ann) {c : Syscall} {a : Word} (hpost : (ann t).post a)
    (hcall : (ann t).call = some c) :
    Tokens (m.write (.returned t c a)) (Function.update ann t {}) := by
  refine h.move (.thread t) .application (fun _ => True) ?_ fun fd x hx => ?_
  · intro fd
    rw [write_log, descriptor_append, Descriptor.opened_returned]
  cases x with
  | thread u =>
      by_cases hut : u = t
      · simp [Holds, hut] at hx
      · refine .inl ⟨fun _ => ?_, by simpa [Holds, hut] using hx⟩
        rintro ⟨⟩
        exact hut rfl
  | replying p => exact .inl ⟨fun _ => nofun, hx⟩
  | response p => exact .inl ⟨fun _ => nofun, hx⟩
  | application =>
      have hu : ((descriptor m.log fd).step fd (.returned t c a)).owned = true := by
        simpa [Holds, descriptor_append] using hx
      obtain hold | ⟨hcreates, hpos, hvalue⟩ := Descriptor.owned_returned.mp hu
      · exact .inl ⟨fun _ => nofun, hold⟩
      · obtain ⟨-, c', hcall', -, hnew⟩ := hpost
        obtain rfl : c = c' := Option.some.inj (hcall.symm.trans hcall')
        exact .inr ⟨trivial, rfl, (hnew hcreates fd hpos).mp hvalue⟩
  | closing u =>
      by_cases hut : u = t
      · simp [Holds, hut] at hx
      · exact .inl ⟨fun _ => nofun, by simpa [Holds, hut] using hx⟩

end Machine

end CorePartitioning.Preload
