import CorePartitioning.Preload.Machine

/-!
# The machine refines the process and the exchange

The machine adds the system call threads to the process of System.lean. An
operation on the machine is the same operation on its `World`, in an
environment that answers what the channel answers; so every run of the
machine is a run of the process. Each channel moves by the steps of
`Exchange`, which the code of ipc.c refines.
-/

namespace CorePartitioning.Preload

namespace Ipc.Exchange

variable {Client : Type} [DecidableEq Client] {a a' : Exchange Client} {c : Client}

/-! ## The functions of the exchange -/

theorem send_to_thread_eq_some {args : ArgsData} (h : a.send_to_thread c args = some a') :
    a.client c = .idle ∧ a.request = false ∧
      a' = { a with
        message := args
        client := Function.update a.client c (.pending ⟨a.hist.nextId, args⟩)
        request := true
        hist := a.hist.start.request ⟨a.hist.nextId, args⟩ } := by
  simp only [send_to_thread, Option.ite_none_right_eq_some, Option.some.injEq] at h
  exact ⟨h.1.1, h.1.2, h.2.symm⟩

theorem recv_from_thread_eq_some {x : RetvalData × Exchange Client}
    (h : a.recv_from_thread c = some x) :
    ∃ k, a.client c = .pending k ∧ a.response = true ∧
      x = (a.message.retval, { a with
        client := Function.update a.client c .idle
        response := false
        hist := a.hist.receive k a.message.retval }) := by
  unfold recv_from_thread at h
  split at h
  · rename_i k hk
    simp only [Option.ite_none_right_eq_some, Option.some.injEq] at h
    exact ⟨k, hk, h.1, h.2.symm⟩
  · cases h

omit [DecidableEq Client] in
theorem recv_from_app_eq_some {x : ArgsData × Exchange Client} (h : a.recv_from_app = some x) :
    a.phase = .waiting ∧ a.request = true ∧
      x = (a.message,
        { a with phase := .serving, request := false, hist := a.hist.deliver a.message }) := by
  simp only [recv_from_app, Option.ite_none_right_eq_some, Option.some.injEq] at h
  exact ⟨h.1.1, h.1.2, h.2.symm⟩

omit [DecidableEq Client] in
theorem produce_eq_some {r : RetvalData} (h : a.produce r = some a') :
    a.phase = .serving ∧ a' = { a with phase := .replying r, hist := a.hist.produce r } := by
  simp only [produce, Option.ite_none_right_eq_some, Option.some.injEq] at h
  exact ⟨h.1, h.2.symm⟩

omit [DecidableEq Client] in
theorem send_to_app_eq_some (h : a.send_to_app = some a') :
    ∃ r, a.phase = .replying r ∧ a.response = false ∧
      a' = { a with
        message := a.message.overwrite r
        phase := .waiting
        response := true
        hist := a.hist.respond } := by
  unfold send_to_app at h
  split at h
  · rename_i r hr
    split at h
    · cases h
    · rename_i hresp
      exact ⟨r, hr, by simpa using hresp, (Option.some.inj h).symm⟩
  · cases h

/-- Steps of the exchange, one after the other. -/
abbrev Moves : Exchange Client → Exchange Client → Prop :=
  Relation.ReflTransGen fun a a' => ∃ b, a.Step b a'

/-- A client enters its call and copies its request in. -/
theorem send_to_thread_moves {args : ArgsData} (h : a.send_to_thread c args = some a') :
    Moves a a' := by
  obtain ⟨hc, hr, rfl⟩ := send_to_thread_eq_some h
  have hcalling : ({ a with
      client := Function.update a.client c (.calling ⟨a.hist.nextId, args⟩)
      hist := a.hist.start } : Exchange Client).client c = .calling ⟨a.hist.nextId, args⟩ :=
    Function.update_self ..
  refine Relation.ReflTransGen.head ⟨_, .start args hc⟩
    (Relation.ReflTransGen.single ⟨.request c, ?_⟩)
  have hstep := Exchange.Step.request hcalling hr
  simp only [Function.update_idem] at hstep
  exact hstep

/-- A client copies its response out and leaves its call. -/
theorem recv_from_thread_moves {x : RetvalData × Exchange Client}
    (h : a.recv_from_thread c = some x) : Moves a x.2 := by
  obtain ⟨k, hc, hr, rfl⟩ := recv_from_thread_eq_some h
  refine Relation.ReflTransGen.head ⟨_, .receive hc hr⟩
    (Relation.ReflTransGen.single ⟨.finish c, ?_⟩)
  have hstep := Exchange.Step.finish (a := { a with
    client := Function.update a.client c .done
    response := false
    hist := a.hist.receive k a.message.retval }) (c := c) (Function.update_self ..)
  simp only [Function.update_idem] at hstep
  exact hstep

theorem recv_from_app_moves {x : ArgsData × Exchange Client} (h : a.recv_from_app = some x) :
    Moves a x.2 := by
  obtain ⟨hp, hr, rfl⟩ := recv_from_app_eq_some h
  exact Relation.ReflTransGen.single ⟨_, .deliver hp hr⟩

theorem produce_moves {r : RetvalData} (h : a.produce r = some a') : Moves a a' := by
  obtain ⟨hp, rfl⟩ := produce_eq_some h
  exact Relation.ReflTransGen.single ⟨_, .produce r hp⟩

theorem send_to_app_moves (h : a.send_to_app = some a') : Moves a a' := by
  obtain ⟨r, hp, hr, rfl⟩ := send_to_app_eq_some h
  exact Relation.ReflTransGen.single ⟨_, .respond hp hr⟩

end Ipc.Exchange

namespace Machine

variable {Tid : Type} {m m' : Machine Tid}

/-! ## What the steps leave alone -/

@[simp] theorem write_world (m : Machine Tid) (x : LogEntry Tid) :
    (m.write x).world = m.world := rfl

@[simp] theorem write_channel (m : Machine Tid) (x : LogEntry Tid) :
    (m.write x).channel = m.channel := rfl

@[simp] theorem write_log (m : Machine Tid) (x : LogEntry Tid) :
    (m.write x).log = m.log ++ [x] := rfl

@[simp] theorem set_world (m : Machine Tid) (p : Ptr) (ch : Channel Tid) :
    (m.set p ch).world = m.world := rfl

@[simp] theorem set_channel (m : Machine Tid) (p : Ptr) (ch : Channel Tid) :
    (m.set p ch).channel = Function.update m.channel p ch := rfl

@[simp] theorem set_log (m : Machine Tid) (p : Ptr) (ch : Channel Tid) :
    (m.set p ch).log = m.log := rfl

/-- A property of the channel at `q` after the one at `p` has been written. -/
theorem set_channel_of {P : Channel Tid → Prop} {p q : Ptr} {ch : Channel Tid}
    (hnew : q = p → P ch) (hold : q ≠ p → P (m.channel q)) : P ((m.set p ch).channel q) := by
  rw [set_channel]
  by_cases hqp : q = p
  · rw [hqp, Function.update_self]
    exact hnew hqp
  · rw [Function.update_of_ne hqp]
    exact hold hqp

@[simp] theorem perform_world (m : Machine Tid) (send_data : ArgsData) (w : Word) :
    (m.perform send_data w).world = m.world := by
  unfold perform
  split <;> rfl

@[simp] theorem perform_channel (m : Machine Tid) (send_data : ArgsData) (w : Word) :
    (m.perform send_data w).channel = m.channel := by
  unfold perform
  split <;> rfl

variable [DecidableEq Tid]

/-! ## The process -/

/-- The operations that do not wait for an entry's thread. -/
def plain : Op → Bool
  | .CPART_send_to_thread _ _ | .CPART_recv_from_thread _ | .pthread_join _ => false
  | _ => true

theorem sem_plain {t : Tid} {e : Env} {o : Op} {r : o.Res} (ho : plain o = true)
    (h : m.sem t e o = some (r, m')) :
    Preload.sem t e m.world o = some (r, m'.world) ∧
      m' = { m.after t e o r with world := m'.world } := by
  have hplain : m.sem t e o = (Preload.sem t e m.world o).map fun x =>
      (x.1, { m.after t e o x.1 with world := x.2 }) := by
    cases o with
    | CPART_send_to_thread | CPART_recv_from_thread | pthread_join => cases ho
    | _ => rfl
  rw [hplain] at h
  obtain ⟨⟨r', w⟩, hw, heq⟩ := Option.map_eq_some_iff.mp h
  cases heq
  exact ⟨hw, rfl⟩

theorem sem_send {t : Tid} {e : Env} {args : ArgsData} {p : Ptr} {r : Unit}
    (h : m.sem t e (.CPART_send_to_thread args p) = some (r, m')) :
    ∃ a, (m.channel p).exchange.send_to_thread t args = some a ∧
      m' = m.set p { m.channel p with exchange := a } := by
  obtain ⟨a, ha, heq⟩ := Option.map_eq_some_iff.mp h
  cases heq
  exact ⟨a, ha, rfl⟩

theorem sem_recv {t : Tid} {e : Env} {p : Ptr} {r : RetvalData}
    (h : m.sem t e (.CPART_recv_from_thread p) = some (r, m')) :
    ∃ a, (m.channel p).exchange.recv_from_thread t = some (r, a) ∧
      m' = m.set p { m.channel p with exchange := a } := by
  obtain ⟨x, hx, heq⟩ := Option.map_eq_some_iff.mp h
  cases heq
  exact ⟨x.2, hx, rfl⟩

theorem sem_join {t : Tid} {e : Env} {p : Ptr} {r : Unit}
    (h : m.sem t e (.pthread_join p) = some (r, m')) : (m.channel p).life = .left ∧ m' = m := by
  simp only [sem, Option.ite_none_right_eq_some, Option.some.injEq] at h
  obtain ⟨hl, heq⟩ := h
  cases heq
  exact ⟨hl, rfl⟩

/-- **The machine's operations are the process's.** -/
theorem sem_world {t : Tid} {e : Env} {o : Op} {r : o.Res} (h : m.sem t e o = some (r, m')) :
    ∃ recv_data, Preload.sem t { e with recv_data } m.world o = some (r, m'.world) := by
  cases o with
  | CPART_send_to_thread args p =>
      obtain ⟨a, -, rfl⟩ := sem_send h
      exact ⟨.zero, rfl⟩
  | CPART_recv_from_thread p =>
      obtain ⟨a, -, rfl⟩ := sem_recv h
      exact ⟨r, rfl⟩
  | pthread_join p =>
      obtain ⟨-, rfl⟩ := sem_join h
      exact ⟨.zero, rfl⟩
  | _ => exact ⟨e.recv_data, (sem_plain rfl h).1⟩

/-! ## The threads -/

/-- What a step of a `syscall_thread` can do. -/
inductive Serves (m : Machine Tid) : ThreadStep → Machine Tid → Prop
  | unfound {p : Ptr} (send_data : ArgsData) (recv_data : RetvalData)
      (hl : (m.channel p).life = .created)
      (hs : fdtable_get_by_tid m.world.table (m.channel p).thread = none) :
      Serves m (.start p send_data recv_data) (m.set p { m.channel p with life := .left })
  | start {p : Ptr} (send_data : ArgsData) (recv_data : RetvalData)
      (hl : (m.channel p).life = .created) {sock : ThreadInfo}
      (hs : fdtable_get_by_tid m.world.table (m.channel p).thread = some sock)
      (hp : sock.ptr = p) :
      Serves m (.start p send_data recv_data)
        (m.set p { m.channel p with
          life := if sock.pid = m.world.pid then .running else .left
          send_data := { send_data with request_type := -1 }
          recv_data := recv_data })
  | recv_from_app {p : Ptr} (hl : (m.channel p).life = .running)
      {x : ArgsData × Ipc.Exchange Tid} (hx : (m.channel p).exchange.recv_from_app = some x) :
      Serves m (.recv_from_app p)
        (m.set p { m.channel p with exchange := x.2, send_data := x.1 })
  | switch {p : Ptr} (o : Outcome) (hl : (m.channel p).life = .running)
      {a : Ipc.Exchange Tid}
      (ha : (m.channel p).exchange.produce
        (serve (m.channel p).send_data (m.channel p).recv_data o) = some a) :
      Serves m (.switch p o)
        ((m.set p { m.channel p with
          exchange := a
          recv_data := serve (m.channel p).send_data (m.channel p).recv_data o }).perform
            (m.channel p).send_data o.result)
  | send_to_app {p : Ptr} (hl : (m.channel p).life = .running) {a : Ipc.Exchange Tid}
      (ha : (m.channel p).exchange.send_to_app = some a) :
      Serves m (.send_to_app p)
        (m.set p { m.channel p with
          exchange := a
          life := if (m.channel p).ends then .left else .running })

omit [DecidableEq Tid] in
theorem serves_of_syscall_thread {b : ThreadStep} (h : m.syscall_thread b = some m') :
    m.Serves b m' := by
  cases b with
  | start p send_data recv_data =>
      simp only [syscall_thread, Machine.start, Option.ite_none_right_eq_some] at h
      obtain ⟨hl, h⟩ := h
      split at h
      · rename_i hs
        cases h
        exact .unfound send_data recv_data hl hs
      · rename_i sock hs
        simp only [Option.ite_none_right_eq_some, Option.some.injEq] at h
        obtain ⟨hp, rfl⟩ := h
        exact .start send_data recv_data hl hs hp
  | recv_from_app p =>
      simp only [syscall_thread, Option.ite_none_right_eq_some, Option.map_eq_some_iff] at h
      obtain ⟨hl, x, hx, rfl⟩ := h
      exact .recv_from_app hl hx
  | switch p o =>
      simp only [syscall_thread, Option.ite_none_right_eq_some, Option.map_eq_some_iff] at h
      obtain ⟨hl, a, ha, rfl⟩ := h
      exact .switch o hl ha
  | send_to_app p =>
      simp only [syscall_thread, Option.ite_none_right_eq_some, Option.map_eq_some_iff] at h
      obtain ⟨hl, a, ha, rfl⟩ := h
      exact .send_to_app hl ha

omit [DecidableEq Tid] in
theorem perform_log (m : Machine Tid) (send_data : ArgsData) (w : Word) :
    (dispatch send_data = none ∧ (m.perform send_data w).log = m.log) ∨
      ∃ c, dispatch send_data = some c ∧
        (m.perform send_data w).log = m.log ++ [.performed none c w] := by
  unfold perform
  cases h : dispatch send_data with
  | none => exact .inl ⟨rfl, rfl⟩
  | some c => exact .inr ⟨c, rfl, rfl⟩

omit [DecidableEq Tid] in
/-- What the `switch` does, as its parts. -/
theorem Serves.switch_cases {p : Ptr} {o : Outcome} (h : m.Serves (.switch p o) m') :
    ((dispatch (m.channel p).send_data = none ∧ m'.log = m.log) ∨
        ∃ c, dispatch (m.channel p).send_data = some c ∧
          m'.log = m.log ++ [.performed none c o.result]) ∧
      (m.channel p).exchange.phase = .serving ∧
      ∃ ch : Channel Tid, m'.channel = Function.update m.channel p ch ∧
        ch.exchange.phase =
          .replying (serve (m.channel p).send_data (m.channel p).recv_data o) ∧
        ch.exchange.response = (m.channel p).exchange.response ∧
        ch.exchange.message = (m.channel p).exchange.message := by
  cases h with
  | switch _ hl ha =>
      obtain ⟨hphase, rfl⟩ := Ipc.Exchange.produce_eq_some ha
      exact ⟨perform_log _ _ _, hphase, _, (perform_channel ..).trans (set_channel ..), rfl, rfl,
        rfl⟩

omit [DecidableEq Tid] in
theorem Serves.world {b : ThreadStep} (h : m.Serves b m') : m'.world = m.world := by
  cases h with
  | switch => simp
  | _ => rfl

/-- Another channel, or one with its exchange moved on. -/
theorem set_moves {p q : Ptr} {ch : Channel Tid}
    (h : (m.channel p).exchange.Moves ch.exchange) :
    (m.channel q).exchange.Moves ((m.set p ch).channel q).exchange := by
  apply set_channel_of (P := fun ch => (m.channel q).exchange.Moves ch.exchange)
  · rintro rfl
    exact h
  · intro _
    exact Relation.ReflTransGen.refl

/-- What an operation does to the exchange at `p`. -/
theorem exchange_of_sem {t : Tid} {e : Env} {o : Op} {r : o.Res} (h : m.sem t e o = some (r, m'))
    (p : Ptr) :
    o ≠ .CPART_recv_from_thread p ∧ (m'.channel p).exchange = (m.channel p).exchange ∨
      (o = .fdtable_add ∧ p = m.world.table.nextPtr ∧ m'.channel p = {}) ∨
      (∃ args, o = .CPART_send_to_thread args p ∧
        (m.channel p).exchange.send_to_thread t args = some (m'.channel p).exchange) ∨
      ∃ r', o = .CPART_recv_from_thread p ∧
        (m.channel p).exchange.recv_from_thread t = some (r', (m'.channel p).exchange) := by
  have hother : ∀ {q : Ptr} {ch : Channel Tid}, p ≠ q →
      ((m.set q ch).channel p).exchange = (m.channel p).exchange := by
    intro q ch hpq
    rw [set_channel, Function.update_of_ne hpq]
  cases o with
  | CPART_send_to_thread args q =>
      obtain ⟨a, ha, rfl⟩ := sem_send h
      by_cases hpq : p = q
      · subst hpq
        refine .inr (.inr (.inl ⟨args, rfl, ?_⟩))
        rw [ha, set_channel, Function.update_self]
      · exact .inl ⟨by simp, hother hpq⟩
  | CPART_recv_from_thread q =>
      obtain ⟨a, ha, rfl⟩ := sem_recv h
      by_cases hpq : p = q
      · subst hpq
        refine .inr (.inr (.inr ⟨r, rfl, ?_⟩))
        rw [ha, set_channel, Function.update_self]
      · refine .inl ⟨fun heq => ?_, hother hpq⟩
        cases heq
        exact hpq rfl
  | pthread_join q =>
      obtain ⟨-, rfl⟩ := sem_join h
      exact .inl ⟨by simp, rfl⟩
  | fdtable_add =>
      rw [(sem_plain rfl h).2]
      cases r with
      | none => exact .inl ⟨by simp, rfl⟩
      | some q =>
          by_cases hpq : p = q
          · subst hpq
            refine .inr (.inl ⟨rfl, ?_, Function.update_self ..⟩)
            have hadd := (sem_plain rfl h).1
            simp only [Preload.sem] at hadd
            split at hadd
            · exact (Option.some.inj (Prod.mk.inj (Option.some.inj hadd)).1).symm
            · cases (Prod.mk.inj (Option.some.inj hadd)).1
          · exact .inl ⟨by simp, hother hpq⟩
  | pthread_create tmp =>
      rw [(sem_plain rfl h).2]
      refine .inl ⟨by simp, ?_⟩
      cases tmp with
      | none => rfl
      | some q =>
          simp only [after]
          split
          · by_cases hpq : p = q
            · subst hpq
              rw [set_channel, Function.update_self]
            · exact hother hpq
          · rfl
  | _ =>
      rw [(sem_plain rfl h).2]
      exact .inl ⟨by simp, rfl⟩

/-- A response that is there after an operation was there before, or is
covered by the request that has been sent. -/
theorem response_of_sem {t : Tid} {e : Env} {o : Op} {r : o.Res} (h : m.sem t e o = some (r, m'))
    {p : Ptr} (hr : (m'.channel p).exchange.response = true) :
    ((m.channel p).exchange.response = true ∧ o ≠ .CPART_recv_from_thread p ∧
        (m'.channel p).exchange.message = (m.channel p).exchange.message) ∨
      o = .CPART_send_to_thread (m'.channel p).exchange.message p := by
  obtain ⟨hne, hsame⟩ | ⟨-, -, hnew⟩ | ⟨args, rfl, hsend⟩ | ⟨r', -, hrecv⟩ := exchange_of_sem h p
  · rw [hsame] at hr ⊢
    exact .inl ⟨hr, hne, rfl⟩
  · rw [hnew] at hr
    cases hr
  · rw [(Ipc.Exchange.send_to_thread_eq_some hsend).2.2]
    exact .inr rfl
  · obtain ⟨k, -, -, heq⟩ := Ipc.Exchange.recv_from_thread_eq_some hrecv
    rw [(Prod.mk.inj heq).2] at hr
    cases hr

/-- The phase of an exchange is its thread's business. -/
theorem phase_of_sem {t : Tid} {e : Env} {o : Op} {r : o.Res} (h : m.sem t e o = some (r, m'))
    (p : Ptr) :
    (m'.channel p).exchange.phase = (m.channel p).exchange.phase ∨ m'.channel p = {} := by
  obtain ⟨-, hsame⟩ | ⟨-, -, hnew⟩ | ⟨args, -, hsend⟩ | ⟨r', -, hrecv⟩ := exchange_of_sem h p
  · rw [hsame]
    exact .inl rfl
  · exact .inr hnew
  · rw [(Ipc.Exchange.send_to_thread_eq_some hsend).2.2]
    exact .inl rfl
  · obtain ⟨k, -, -, heq⟩ := Ipc.Exchange.recv_from_thread_eq_some hrecv
    rw [(Prod.mk.inj heq).2]
    exact .inl rfl

/-- Only an original call is recorded. -/
theorem log_of_sem {t : Tid} {e : Env} {o : Op} {r : o.Res} (h : m.sem t e o = some (r, m'))
    (ho : ∀ c, o ≠ .original c) : m'.log = m.log := by
  cases o with
  | original c => exact absurd rfl (ho c)
  | CPART_send_to_thread args p =>
      obtain ⟨a, -, rfl⟩ := sem_send h
      rfl
  | CPART_recv_from_thread p =>
      obtain ⟨a, -, rfl⟩ := sem_recv h
      rfl
  | pthread_join p =>
      obtain ⟨-, rfl⟩ := sem_join h
      rfl
  | fdtable_add =>
      rw [(sem_plain rfl h).2]
      cases r <;> rfl
  | pthread_create tmp =>
      rw [(sem_plain rfl h).2]
      cases tmp with
      | none => rfl
      | some p =>
          simp only [after]
          split <;> rfl
  | _ =>
      rw [(sem_plain rfl h).2]
      rfl

theorem sem_original {t : Tid} {e : Env} {c : Syscall} {w : Word}
    (h : m.sem t e (.original c) = some (w, m')) :
    w = e.result ∧ m'.log = m.log ++ [.performed (some t) c w] ∧ m'.channel = m.channel ∧
      m'.world.table = m.world.table := by
  obtain ⟨hw, heq⟩ := sem_plain rfl h
  obtain ⟨hresult, hworld⟩ := Prod.mk.inj (Option.some.inj hw)
  refine ⟨hresult.symm, ?_, ?_, ?_⟩
  · rw [heq]
    rfl
  · rw [heq]
    rfl
  · rw [← hworld]

/-- **Every channel moves as an exchange**; `fdtable_add` makes a new one. -/
theorem sem_moves {t : Tid} {e : Env} {o : Op} {r : o.Res} (h : m.sem t e o = some (r, m'))
    (p : Ptr) : (m.channel p).exchange.Moves (m'.channel p).exchange ∨ m'.channel p = {} := by
  obtain ⟨-, heq⟩ | ⟨-, -, hnew⟩ | ⟨args, -, ha⟩ | ⟨r', -, ha⟩ := exchange_of_sem h p
  · rw [heq]
    exact .inl Relation.ReflTransGen.refl
  · exact .inr hnew
  · exact .inl (Ipc.Exchange.send_to_thread_moves ha)
  · exact .inl (Ipc.Exchange.recv_from_thread_moves ha)

theorem Serves.moves {b : ThreadStep} (h : m.Serves b m') (q : Ptr) :
    (m.channel q).exchange.Moves (m'.channel q).exchange := by
  cases h with
  | unfound | start => exact set_moves Relation.ReflTransGen.refl
  | recv_from_app hl hx => exact set_moves (Ipc.Exchange.recv_from_app_moves hx)
  | switch o hl ha =>
      rw [perform_channel]
      exact set_moves (Ipc.Exchange.produce_moves ha)
  | send_to_app hl ha => exact set_moves (Ipc.Exchange.send_to_app_moves ha)

end Machine

end CorePartitioning.Preload
