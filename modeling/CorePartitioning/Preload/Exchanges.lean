import CorePartitioning.Preload.LiveRequests

/-!
# ld_preload.c — the exchanges of the process

A client of an entry's exchange is an application thread that has sent its
request and not read its response. So the exchange owes as many answers as
threads wait in it, and a thread that is being ended has either an answer to
give or none left to wait for.
-/

namespace CorePartitioning.Preload

/-- Whoever has asked has asked before, or does so now. -/
theorem Ann.asked_prev {h : Ann} {o : Op} {r : o.Res} (ha : (h.next o r).talk = .asked) :
    (h.next o r).entry = h.entry ∧
      (h.talk = .asked ∨ ∃ args p, o = .CPART_send_to_thread args p) := by
  cases o with
  | errno | set_errno | set_NetorFile | set_pid | fdtable_getnumber | fdtable_add | set_thr_fd
  | pthread_create | original => exact ⟨rfl, .inl ha⟩
  | CPART_send_to_thread args p => exact ⟨rfl, .inr ⟨args, p, rfl⟩⟩
  | pthread_rwlock x =>
      cases x with
      | rdlock | wrlock => exact ⟨rfl, .inl ha⟩
      | unlock => cases ha
  | fdtable_get_by_fd fd k => cases r <;> cases ha
  | fdtable_get_by_fd_all fd =>
      have htalk : (h.lookupAll fd r).talk = .asked := ha
      obtain ⟨p, -, -, heq⟩ | ⟨p, -, -, heq⟩ | ⟨-, heq⟩ := h.lookupAll_cases fd r
      all_goals
        rw [heq] at htalk
        cases htalk
  | fdtable_delete | pthread_join | CPART_recv_from_thread => cases ha

namespace Machine

variable {Tid : Type} [DecidableEq Tid] {m m' : Machine Tid} {ann : Tid → Ann} {t : Tid}

/-! ## Who waits in an exchange -/

/-- The clients of the exchanges are the threads that have asked. -/
structure Talking (m : Machine Tid) (ann : Tid → Ann) : Prop extends Linked m ann where
  stage : ∀ p t, (m.channel p).exchange.client t = .idle ∨
    ∃ k, (m.channel p).exchange.client t = .pending k
  asked : ∀ t p fd, (ann t).entry = some (p, fd) → (ann t).talk = .asked →
    ∃ k, (m.channel p).exchange.client t = .pending k
  counted : ∀ p, (m.channel p).exchange.Counted

theorem Moves.counted {a a' : Ipc.Exchange Tid} (h : a.Moves a') (ha : a.Counted) :
    a'.Counted := by
  induction h with
  | refl => exact ha
  | tail _ hb ih =>
      obtain ⟨b, hb⟩ := hb
      exact ih.step hb

omit [DecidableEq Tid] in
theorem counted_new : ({} : Channel Tid).exchange.Counted := by
  refine Count.having_eq_zero_iff.mpr fun t ht => ?_
  obtain ⟨k, hk⟩ := ht
  cases hk

/-- The clients after an operation of `t`. -/
theorem client_of_sem {e : Env} {o : Op} {r : o.Res} (h : m.sem t e o = some (r, m')) (p : Ptr)
    (u : Tid) :
    (m'.channel p).exchange.client u = (m.channel p).exchange.client u ∧
        (o = .CPART_recv_from_thread p → u ≠ t) ∨
      (o = .fdtable_add ∧ p = m.world.table.nextPtr ∧ m'.channel p = {}) ∨
      (∃ args k, o = .CPART_send_to_thread args p ∧ u = t ∧
        (m'.channel p).exchange.client u = .pending k) ∨
      o = .CPART_recv_from_thread p ∧ u = t ∧ (m'.channel p).exchange.client u = .idle := by
  obtain ⟨hne, hsame⟩ | hnew | ⟨args, rfl, hsend⟩ | ⟨r', rfl, hrecv⟩ := exchange_of_sem h p
  · rw [hsame]
    exact .inl ⟨rfl, fun ho => absurd ho hne⟩
  · exact .inr (.inl hnew)
  · obtain ⟨-, -, heq⟩ := Ipc.Exchange.send_to_thread_eq_some hsend
    rw [heq]
    by_cases hut : u = t
    · subst hut
      exact .inr (.inr (.inl ⟨args, _, rfl, rfl, Function.update_self ..⟩))
    · exact .inl ⟨Function.update_of_ne hut .., nofun⟩
  · obtain ⟨k, -, -, heq⟩ := Ipc.Exchange.recv_from_thread_eq_some hrecv
    rw [(Prod.mk.inj heq).2]
    by_cases hut : u = t
    · subst hut
      exact .inr (.inr (.inr ⟨rfl, rfl, Function.update_self ..⟩))
    · exact .inl ⟨Function.update_of_ne hut .., fun _ => hut⟩

namespace Talking

/-- One operation of an application thread. -/
theorem sem (hx : Talking m ann) (hk : Kept m.world.table ann) {e : Env} {o : Op} {r : o.Res}
    (hp : (ann t).pre o) (ho : m.sem t e o = some (r, m')) :
    Talking m' (Function.update ann t ((ann t).next o r)) where
  toLinked := hx.toLinked.sem hp ho
  stage p u := by
    obtain ⟨hsame, -⟩ | ⟨-, -, hnew⟩ | ⟨args, k, -, -, hpending⟩ | ⟨-, -, hidle⟩ :=
      client_of_sem ho p u
    · rw [hsame]
      exact hx.stage p u
    · rw [hnew]
      exact .inl rfl
    · exact .inr ⟨k, hpending⟩
    · exact .inl hidle
  asked u p fd hentry htalk := by
    -- before the operation `u` knew the entry and had asked, or is `t` and asks now
    have hbefore : (ann u).entry = some (p, fd) ∧ (u = t → o ≠ .CPART_recv_from_thread p) ∧
        ((ann u).talk = .asked ∨ u = t ∧ ∃ args q, o = .CPART_send_to_thread args q) := by
      by_cases hut : u = t
      · subst hut
        rw [Function.update_self] at hentry htalk
        obtain ⟨hsame, hasked⟩ := Ann.asked_prev htalk
        refine ⟨hsame.symm.trans hentry, ?_, hasked.imp_right fun hsend => ⟨rfl, hsend⟩⟩
        rintro - rfl
        cases htalk
      · rw [Function.update_of_ne hut] at hentry htalk
        exact ⟨hentry, fun heq => absurd heq hut, .inl htalk⟩
    obtain ⟨hentry', hne, hasked⟩ := hbefore
    obtain ⟨hsame, -⟩ | ⟨-, rfl, -⟩ | ⟨args, k, -, -, hpending⟩ | ⟨hrecv, hut, -⟩ :=
      client_of_sem ho p u
    · rw [hsame]
      obtain hasked | ⟨rfl, args, q, rfl⟩ := hasked
      · exact hx.asked u p fd hentry' hasked
      · -- the request goes to the entry that `t` knows
        obtain ⟨c, fd', hask⟩ := hp
        obtain ⟨rfl, -⟩ := Prod.mk.inj (Option.some.inj (hentry'.symm.trans hask.entry))
        obtain ⟨a, ha, rfl⟩ := sem_send ho
        obtain ⟨-, -, rfl⟩ := Ipc.Exchange.send_to_thread_eq_some ha
        simp only [set_channel, Function.update_self] at hsame
        exact ⟨_, hsame.symm⟩
    · exact absurd (hk.lt _ (hk.entry u _ fd hentry')) (Nat.lt_irrefl _)
    · exact ⟨k, hpending⟩
    · exact absurd hrecv (hne hut)
  counted p := by
    obtain hmoves | hnew := sem_moves ho p
    · exact Moves.counted hmoves (hx.counted p)
    · rw [hnew]
      exact counted_new

/-- One step of an entry's thread. -/
theorem serves {b : ThreadStep} (hx : Talking m ann) (h : m.Serves b m') : Talking m' ann where
  toLinked := hx.toLinked.serves h
  stage p u := by
    rw [h.client]
    exact hx.stage p u
  asked u p fd hentry htalk := by
    rw [h.client]
    exact hx.asked u p fd hentry htalk
  counted p := Moves.counted (h.moves p) (hx.counted p)

/-- A thread enters or leaves a wrapper. -/
theorem update (hx : Talking m ann) {h : Ann}
    (hheld : Held m.world.lock (Function.update ann t h)) (ht : (ann t).talk ≠ .asked)
    (hq : h.talk ≠ .asked) : Talking m (Function.update ann t h) where
  toLinked := hx.toLinked.update hheld ht
  stage := hx.stage
  asked u p fd hentry htalk := by
    by_cases hut : u = t
    · rw [hut, Function.update_self] at htalk
      exact absurd htalk hq
    · rw [Function.update_of_ne hut] at hentry htalk
      exact hx.asked u p fd hentry htalk
  counted := hx.counted

theorem write (hx : Talking m ann) (x : LogEntry Tid) : Talking (m.write x) ann :=
  ⟨hx.toLinked.write x, hx.stage, hx.asked, hx.counted⟩

/-- Somebody waits for what an exchange owes. -/
theorem exists_pending (hx : Talking m ann) {p : Ptr} (howed : (m.channel p).exchange.owed ≠ 0) :
    ∃ t k, (m.channel p).exchange.client t = .pending k := by
  by_contra hnone
  have hzero : Count.having Ipc.Stage.Pending (m.channel p).exchange.client = 0 :=
    Count.having_eq_zero_iff.mpr fun t ⟨k, hk⟩ => hnone ⟨t, k, hk⟩
  have hcounted : Count.having Ipc.Stage.Pending (m.channel p).exchange.client =
      (m.channel p).exchange.owed := hx.counted p
  rw [hzero] at hcounted
  exact howed (by exact_mod_cast hcounted.symm)

/-- An exchange in which nobody waits owes nothing. -/
theorem owes_nothing (hx : Talking m ann) {p : Ptr}
    (hnobody : ∀ t fd, (ann t).entry = some (p, fd) → (ann t).talk ≠ .asked) :
    (m.channel p).exchange.request = false ∧ (m.channel p).exchange.phase = .waiting ∧
      (m.channel p).exchange.response = false := by
  have howed : (m.channel p).exchange.owed = 0 := by
    by_contra hne
    obtain ⟨t, k, hk⟩ := hx.exists_pending hne
    obtain ⟨htalk, ⟨fd, hentry⟩, -⟩ := hx.pending p t k hk
    exact hnobody t fd hentry htalk
  unfold Ipc.Exchange.owed at howed
  refine ⟨?_, ?_, ?_⟩
  · cases hr : (m.channel p).exchange.request with
    | false => rfl
    | true => simp [hr] at howed
  · by_contra hphase
    rw [if_neg hphase] at howed
    omega
  · cases hr : (m.channel p).exchange.response with
    | false => rfl
    | true => simp [hr] at howed

/-- An exchange in which somebody waits owes something. -/
theorem owes (hx : Talking m ann) {p : Ptr} {k : Ipc.Call}
    (hk : (m.channel p).exchange.client t = .pending k) :
    (m.channel p).exchange.request = true ∨ (m.channel p).exchange.phase ≠ .waiting ∨
      (m.channel p).exchange.response = true := by
  by_contra hnone
  simp only [not_or, Bool.not_eq_true, not_not] at hnone
  obtain ⟨hrequest, hphase, hresponse⟩ := hnone
  have hcounted : Count.having Ipc.Stage.Pending (m.channel p).exchange.client =
      (m.channel p).exchange.owed := hx.counted p
  have howed : (m.channel p).exchange.owed = 0 := by
    simp [Ipc.Exchange.owed, hrequest, hphase, hresponse]
  rw [howed] at hcounted
  exact Count.having_eq_zero_iff.mp hcounted t ⟨k, hk⟩

/-- Somebody waits for a response that is there. -/
theorem response_awaited (hx : Talking m ann) {p : Ptr}
    (hresponse : (m.channel p).exchange.response = true) :
    ∃ t k, (m.channel p).exchange.client t = .pending k := by
  apply hx.exists_pending
  simp [Ipc.Exchange.owed, hresponse]

end Talking

omit [DecidableEq Tid] in
theorem talking_init [DecidableEq Tid] : Talking ({} : Machine Tid) fun _ => {} where
  toLinked := linked_init
  stage _ _ := .inl rfl
  asked := nofun
  counted _ := counted_new

end Machine

end CorePartitioning.Preload
