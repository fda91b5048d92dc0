import CorePartitioning.Preload.Exchanges

/-!
# ld_preload.c — how an entry's thread ends

`close` and `shutdown` send one last request, wait for the response and
join the thread. The request they have sent is the only one in the exchange;
the thread takes it, answers and leaves its loop. So the thread has left
when its caller joins it, and it is in its loop as long as it owes the
answer.
-/

namespace CorePartitioning.Preload

/-- The thread leaves its loop after a request of this type. -/
def Terminal (request_type : BitVec 32) : Prop :=
  isOneOf request_type [.TYPE_CLOSE, .TYPE_SHUTDOWN] = true

theorem terminal_send_data {c : Syscall} (hc : c.terminates = true) :
    Terminal (send_data c).request_type := by
  cases c with
  | close | shutdown => rfl
  | _ => cases hc

/-- Who ends a thread ended it before, or sends its last request. -/
theorem Ann.ends_prev {h : Ann} (hc : h.Coherent) {o : Op} (hp : h.pre o) {r : o.Res} {p : Ptr}
    (he : (h.next o r).Ends p) : h.Ends p ∨ ∃ args, o = .CPART_send_to_thread args p := by
  obtain ⟨hmode, ⟨fd, hentry⟩, htalk⟩ := he
  cases o with
  | errno | set_errno | set_NetorFile | set_pid | fdtable_getnumber | fdtable_add | set_thr_fd
  | pthread_create | original => exact .inl ⟨hmode, ⟨fd, hentry⟩, htalk⟩
  | pthread_rwlock x =>
      cases x with
      | rdlock | unlock => cases hmode
      | wrlock =>
          have hnone := (hc.entry_none hp).1
          have hentry' : h.entry = some (p, fd) := hentry
          rw [hnone] at hentry'
          cases hentry'
  | fdtable_get_by_fd fd' k =>
      cases r with
      | some q => exact absurd rfl htalk
      | none => cases hentry
  | fdtable_get_by_fd_all fd' =>
      have hentry' : (h.lookupAll fd' r).entry = some (p, fd) := hentry
      have htalk' : (h.lookupAll fd' r).talk ≠ .found := htalk
      obtain ⟨q, -, -, heq⟩ | ⟨q, -, -, heq⟩ | ⟨-, heq⟩ := h.lookupAll_cases fd' r
      · rw [heq] at htalk'
        exact absurd rfl htalk'
      · rw [heq] at hentry'
        cases hentry'
      · rw [heq] at hentry'
        cases hentry'
  | fdtable_delete => cases hentry
  | pthread_join q =>
      obtain ⟨-, -, hanswered, -⟩ := hp
      exact .inl ⟨hmode, ⟨fd, hentry⟩, by rw [hanswered]; nofun⟩
  | CPART_recv_from_thread q =>
      obtain ⟨-, -, hasked⟩ := hp
      exact .inl ⟨hmode, ⟨fd, hentry⟩, by rw [hasked]; nofun⟩
  | CPART_send_to_thread args q =>
      obtain ⟨c, fd', hask⟩ := hp
      have hentry' : h.entry = some (p, fd) := hentry
      obtain ⟨rfl, -⟩ := Prod.mk.inj (Option.some.inj (hentry'.symm.trans hask.entry))
      exact .inr ⟨args, rfl⟩

namespace Machine

variable {Tid : Type} [DecidableEq Tid] {m m' : Machine Tid} {ann : Tid → Ann} {t : Tid}

/-- Only these operations touch a channel. -/
def touches : Op → Bool
  | .fdtable_add | .pthread_create _ | .CPART_send_to_thread _ _ | .CPART_recv_from_thread _ => true
  | _ => false

theorem channel_of_sem {e : Env} {o : Op} {r : o.Res} (h : m.sem t e o = some (r, m'))
    (ho : touches o = false) : m'.channel = m.channel := by
  cases o with
  | fdtable_add | pthread_create | CPART_send_to_thread | CPART_recv_from_thread => cases ho
  | pthread_join p => rw [(sem_join h).2]
  | _ =>
      rw [(sem_plain rfl h).2]
      rfl

/-- Who touches a channel holds the lock. -/
theorem mode_of_touches {h : Ann} (hc : h.Coherent) {o : Op} (hp : h.pre o)
    (ho : touches o = true) : h.mode ≠ .none := by
  cases o with
  | fdtable_add => exact hp.mode
  | pthread_create tmp => exact hp.mode
  | CPART_send_to_thread args p =>
      obtain ⟨c, fd, hask⟩ := hp
      exact hc.mode (by rw [hask.entry]; nofun)
  | CPART_recv_from_thread p =>
      obtain ⟨fd, hentry, -⟩ := hp
      exact hc.mode (by rw [hentry]; nofun)
  | _ => cases ho

/-! ## The last request -/

/-- The thread has its last request before it, or has left. -/
structure Closing (ch : Channel Tid) : Prop where
  request : ch.exchange.request = true → ch.exchange.phase = .waiting ∧
    Terminal ch.exchange.message.request_type ∧ (ch.life = .created ∨ ch.life = .running)
  serving : ch.exchange.phase ≠ .waiting →
    Terminal ch.send_data.request_type ∧ ch.life = .running
  done : ch.exchange.request = false → ch.exchange.phase = .waiting → ch.life = .left

/-- Every thread that is being ended has. -/
def Closed (m : Machine Tid) (ann : Tid → Ann) : Prop :=
  ∀ t p, (ann t).Ends p → Closing (m.channel p)

omit [DecidableEq Tid] in
theorem closed_init : Closed ({} : Machine Tid) fun _ => {} := fun _ _ he => nomatch he.mode

/-- The request of a writer goes to a thread that is there. -/
theorem Manned.life_of_found (ha : Manned m ann) {p : Ptr} {fd : CInt}
    (hmode : (ann t).mode = .write) (hentry : (ann t).entry = some (p, fd))
    (htalk : (ann t).talk = .found) :
    (m.channel p).life = .created ∨ (m.channel p).life = .running := by
  have hmem := ha.kept.entry t p fd hentry
  cases hlife : (m.channel p).life with
  | created => exact .inl rfl
  | running => exact .inr rfl
  | absent =>
      -- its creator would hold the lock as well
      obtain ⟨u, howes⟩ := ha.absent p hmem hlife
      have hcoherent := (ha.held.coherent u).tmp (by rw [howes.tmp]; nofun)
      obtain rfl := ha.held.eq_of_write hmode hcoherent.1
      rw [hcoherent.2.1] at hentry
      cases hentry
  | left =>
      obtain ⟨u, he⟩ := ha.left p hmem hlife
      obtain rfl := ha.held.eq_of_write hmode (by rw [he.mode]; nofun)
      exact absurd htalk he.talk

/-- **One operation of an application thread.** -/
theorem Closed.sem (hcl : Closed m ann) (ha : Manned m ann) (hx : Talking m ann) {e : Env}
    {o : Op} {r : o.Res} (hp : (ann t).pre o) (ho : m.sem t e o = some (r, m')) :
    Closed m' (Function.update ann t ((ann t).next o r)) := by
  intro u p he
  have hc := ha.held.coherent t
  by_cases htouch : touches o = true
  · have hmode := mode_of_touches hc hp htouch
    obtain rfl : u = t := by
      by_contra hut
      rw [Function.update_of_ne hut] at he
      exact hut (ha.held.eq_of_write he.mode hmode).symm
    rw [Function.update_self] at he
    obtain hbefore | ⟨args, rfl⟩ := Ann.ends_prev hc hp he
    · have hcl' := hcl u p hbefore
      obtain ⟨fd, hentry⟩ := hbefore.entry
      have hlife : (m'.channel p).life = (m.channel p).life ∧
          (m'.channel p).send_data = (m.channel p).send_data := by
        obtain ⟨hlife, -, hdata, -⟩ | ⟨-, rfl, -⟩ | ⟨rfl, -⟩ := life_of_sem ho p
        · exact ⟨hlife, hdata⟩
        · exact absurd (ha.kept.lt _ (ha.kept.entry u _ fd hentry)) (Nat.lt_irrefl _)
        · have hnone := Ann.MayWrite.entry hp.toMayWrite
          rw [hentry] at hnone
          cases hnone
      obtain ⟨-, hsame⟩ | ⟨-, rfl, -⟩ | ⟨args, rfl, -⟩ | ⟨r', -, hrecv⟩ := exchange_of_sem ho p
      · constructor <;> rw [hsame, hlife.1]
        · exact hcl'.request
        · rw [hlife.2]
          exact hcl'.serving
        · exact hcl'.done
      · exact absurd (ha.kept.lt _ (ha.kept.entry u _ fd hentry)) (Nat.lt_irrefl _)
      · obtain ⟨c, fd', hask⟩ := hp
        exact absurd hask.talk hbefore.talk
      · -- the response is read
        obtain ⟨k, -, -, heq⟩ := Ipc.Exchange.recv_from_thread_eq_some hrecv
        constructor <;> rw [(Prod.mk.inj heq).2, hlife.1]
        · exact hcl'.request
        · rw [hlife.2]
          exact hcl'.serving
        · exact hcl'.done
    · -- the last request is sent
      obtain ⟨c, fd, hask⟩ := hp
      have hwrite : (ann u).mode = .write := he.mode
      have hterm : c.terminates = true := by
        by_contra hne
        have hmode := hask.mode
        rw [if_neg hne, hwrite] at hmode
        cases hmode
      have hlife := ha.life_of_found hwrite hask.entry hask.talk
      have hwaiting : (m.channel p).exchange.phase = .waiting := by
        refine (hx.owes_nothing fun v fd' hv hasked => ?_).2.1
        obtain rfl := ha.held.eq_of_write hwrite
          ((ha.held.coherent v).mode (by rw [hv]; nofun))
        rw [hask.talk] at hasked
        cases hasked
      obtain ⟨a, hsend, rfl⟩ := sem_send ho
      obtain ⟨-, -, rfl⟩ := Ipc.Exchange.send_to_thread_eq_some hsend
      constructor <;> simp only [set_channel, Function.update_self]
      · intro _
        refine ⟨hwaiting, ?_, hlife⟩
        rw [hask.args]
        exact terminal_send_data hterm
      · exact fun hphase => absurd hwaiting hphase
      · nofun
  · have hkeep := channel_of_sem ho (by simpa using htouch)
    rw [hkeep]
    by_cases hut : u = t
    · subst hut
      rw [Function.update_self] at he
      obtain hbefore | ⟨args, rfl⟩ := Ann.ends_prev hc hp he
      · exact hcl u p hbefore
      · exact absurd rfl htouch
    · rw [Function.update_of_ne hut] at he
      exact hcl u p he

omit [DecidableEq Tid] in
/-- The thread leaves after its last response. -/
theorem Closing.ends {ch : Channel Tid} (hcl : Closing ch) (hphase : ch.exchange.phase ≠ .waiting) :
    ch.ends = true := by
  unfold Channel.ends
  rw [(hcl.serving hphase).1]
  rfl

/-- **One step of an entry's thread.** -/
theorem Closed.serves (hcl : Closed m ann) (ha : Manned m ann) {b : ThreadStep}
    (h : m.Serves b m') : Closed m' ann := by
  intro t q he
  obtain ⟨fd, hentry⟩ := he.entry
  have hmem := ha.kept.entry t q fd hentry
  have hset : ∀ {p : Ptr} {ch : Channel Tid},
      (p = q → Closing (m.channel p) → Closing ch) → Closing ((m.set p ch).channel q) := by
    intro p ch hp
    apply set_channel_of
    · rintro rfl
      exact hp rfl (hcl t q he)
    · exact fun _ => hcl t q he
  cases h with
  | unfound _ _ hl hs =>
      refine hset fun hpq _ => ?_
      subst hpq
      exact absurd hs (ha.get_by_tid hmem hl)
  | start _ _ hl hs hptr =>
      refine hset fun hpq hp => ?_
      subst hpq
      rw [if_pos (ha.pid _ (fdtable_search_mem hs).1)]
      refine ⟨fun hr => ?_, fun hphase => ?_, fun hr hphase => ?_⟩
      · obtain ⟨hphase, hterm, -⟩ := hp.request hr
        exact ⟨hphase, hterm, .inr rfl⟩
      · exact absurd (ha.waiting _ (.inr hl)) hphase
      · have hleft := hp.done hr hphase
        rw [hl] at hleft
        cases hleft
  | recv_from_app hl hx =>
      obtain ⟨-, hrequest, rfl⟩ := Ipc.Exchange.recv_from_app_eq_some hx
      refine hset fun _ hp => ⟨nofun, fun _ => ?_, nofun⟩
      exact ⟨(hp.request hrequest).2.1, hl⟩
  | switch o hl hx =>
      obtain ⟨hphase, rfl⟩ := Ipc.Exchange.produce_eq_some hx
      rw [perform_channel]
      have hserving : ∀ ch : Channel Tid, ch.exchange.phase = .serving →
          ch.exchange.phase ≠ .waiting := by
        intro ch heq
        rw [heq]
        nofun
      refine hset fun _ hp => ⟨fun hr => ?_, fun _ => hp.serving (hserving _ hphase), nofun⟩
      exact absurd (hp.request hr).1 (hserving _ hphase)
  | send_to_app hl hx =>
      obtain ⟨r, hr, -, rfl⟩ := Ipc.Exchange.send_to_app_eq_some hx
      refine hset fun _ hp => ?_
      have hphase : ∀ ch : Channel Tid, ch.exchange.phase = .replying r →
          ch.exchange.phase ≠ .waiting := by
        intro ch heq
        rw [heq]
        nofun
      rw [if_pos (hp.ends (hphase _ hr))]
      refine ⟨fun hrequest => ?_, fun h => absurd rfl h, fun _ _ => rfl⟩
      exact absurd (hp.request hrequest).1 (hphase _ hr)

/-- A thread enters or leaves a wrapper. -/
theorem Closed.update (hcl : Closed m ann) {h : Ann} (hq : h.Quiet) :
    Closed m (Function.update ann t h) := by
  intro u p he
  by_cases hut : u = t
  · rw [hut, Function.update_self] at he
    exact absurd he.mode hq.mode_ne
  · rw [Function.update_of_ne hut] at he
    exact hcl u p he

end Machine

end CorePartitioning.Preload
