import CorePartitioning.Preload.IpcRefines

/-!
# ipc.c — integrity of the requests

`CPART_recv_from_app` posts `empty` before the system call is executed, so
a second client can put its request into the message while the thread still
owes the response to the first, and `CPART_send_to_app`, which waits on
`empty2` and `mutex2` only, then writes over it. Requests survive exactly
as long as no client copies one in during that time.
-/

namespace CorePartitioning.Preload.Ipc

variable {Client : Type} [DecidableEq Client]

/-- A request was sent and not received: some client has copied it in and
not posted `full`, or `full` is posted, or the thread has passed its wait
and not copied it out. -/
def RequestOutstanding (s : Sys Client) : Prop :=
  (∃ c r, s.client c = some r ∧ (r.pc = 3 ∨ r.pc = 4)) ∨ 0 < s.sem .full ∨
    s.thread.pc = 1 ∨ s.thread.pc = 2

/-- **Request integrity.** The requests delivered are the requests sent, each
once and in order, up to the one outstanding, and that one stands in the
message untouched. -/
def RequestsIntact (s : Sys Client) : Prop :=
  ∃ outstanding : Option ArgsData,
    s.hist.sent = s.hist.delivered ++ outstanding.toList ∧
    (∀ args ∈ outstanding, s.message = args) ∧
    (outstanding.isSome ↔ RequestOutstanding s)

/-- The thread has copied a request out and its response not yet in. -/
def OwesResponse (t : Thread) : Prop := 3 ≤ t.pc ∧ t.pc ≤ 8

/-- No client copies a request into the message (statement 2) while the
thread owes a response. -/
def NoCopyWhileServing (s : Sys Client) : Label Client → Prop
  | .client c => ∀ r ∈ s.client c, r.pc = 2 → ¬ OwesResponse s.thread
  | _ => True

instance (t : Thread) : Decidable (OwesResponse t) :=
  inferInstanceAs (Decidable (_ ∧ _))

instance (s : Sys Client) (l : Label Client) : Decidable (NoCopyWhileServing s l) :=
  match l with
  | .client _ => inferInstanceAs (Decidable (∀ _ ∈ _, _))
  | .call _ _ | .thread _ => inferInstanceAs (Decidable True)

/-! ## The invariant of the exchange -/

/-- While the thread owes a response no request is in the message; the
request that is there is the one sent last. -/
structure Exchange.Intact (a : Exchange Client) : Prop where
  quiet : a.phase ≠ .waiting → a.request = false
  empty : a.request = false → a.hist.sent = a.hist.delivered
  loaded : a.request = true → a.hist.sent = a.hist.delivered ++ [a.message]

/-- The guard, in terms of the exchange. -/
def Exchange.RequestWhenWaiting (a : Exchange Client) (b : Action Client) : Prop :=
  ∀ c, b = .request c → a.phase = .waiting

theorem Exchange.Intact.step {a a' : Exchange Client} {b : Action Client} (hi : a.Intact)
    (hg : a.RequestWhenWaiting b) (hs : a.Step b a') : a'.Intact := by
  cases hs with
  | start args hc => exact ⟨hi.quiet, hi.empty, hi.loaded⟩
  | request hc hr =>
      refine ⟨fun hp => absurd (hg _ rfl) hp, by simp, fun _ => ?_⟩
      show a.hist.sent ++ _ = a.hist.delivered ++ _
      rw [hi.empty hr]
  | deliver hp hr =>
      exact ⟨by simp, fun _ => hi.loaded hr, by simp⟩
  | produce r hp =>
      have hr : a.request = false := hi.quiet (by simp [hp])
      exact ⟨fun _ => hr, hi.empty, hi.loaded⟩
  | respond hp hr =>
      -- the only step that writes over the message: nothing is in it
      have hreq : a.request = false := hi.quiet (by simp [hp])
      exact ⟨fun _ => hreq, hi.empty, fun h => by simp [hreq] at h⟩
  | receive hc hr => exact ⟨hi.quiet, hi.empty, hi.loaded⟩
  | finish hc => exact ⟨hi.quiet, hi.empty, hi.loaded⟩

/-! ## Back to the code -/

omit [DecidableEq Client] in
theorem phase_ne_waiting_iff {t : Thread} : phase t ≠ .waiting ↔ OwesResponse t := by
  unfold phase OwesResponse
  split
  · simp; omega
  · split
    · simp; omega
    · simp; omega

omit [DecidableEq Client] in
theorem NoCopyWhileServing.exchange {s : Sys Client} {a : Exchange Client} {l : Label Client}
    {b : Action Client} (sim : Sim s a) (hg : NoCopyWhileServing s l) (hm : Matches s l b) :
    a.RequestWhenWaiting b := by
  intro c hb
  obtain ⟨rfl, k, hc⟩ := hm c hb
  have howes := hg _ hc rfl
  rw [← phase_ne_waiting_iff, ← sim.phase] at howes
  exact not_not.mp howes

theorem placeFrom_before_iff {n pc : Nat} :
    placeFrom n pc = .before ↔ pc = n + 1 ∨ pc = n + 2 := by
  unfold placeFrom
  split
  · simpa
  · split <;> simp_all

theorem clientPlace_after_iff {m : Nat} {x : Option Running} :
    clientPlace m x = .after ↔ ∃ r, x = some r ∧ (r.pc = m + 3 ∨ r.pc = m + 4) := by
  cases x with
  | none => simp [clientPlace]
  | some r =>
      simp only [clientPlace, Option.elim_some, placeFrom, Option.some.injEq, exists_eq_left']
      split
      · simp; omega
      · split <;> simp_all

omit [DecidableEq Client] in
theorem Sim.request_iff {s : Sys Client} {a : Exchange Client} (sim : Sim s a) :
    a.request = true ↔ RequestOutstanding s := by
  obtain ⟨h, rep, hl⟩ := sim.request
  rw [← hl, rep.loaded_iff]
  unfold RequestOutstanding
  simp only [Function.comp_apply, clientPlace_after_iff, placeFrom_before_iff, zero_add,
    exists_const]

omit [DecidableEq Client] in
theorem Exchange.Intact.requestsIntact {s : Sys Client} {a : Exchange Client} (hi : a.Intact)
    (sim : Sim s a) : RequestsIntact s := by
  cases hr : a.request with
  | false =>
      refine ⟨none, ?_, by simp, ?_⟩
      · simpa [sim.hist] using hi.empty hr
      · simp [← sim.request_iff, hr]
  | true =>
      refine ⟨some s.message, ?_, by simp, ?_⟩
      · simpa [sim.hist, sim.message] using hi.loaded hr
      · simp [← sim.request_iff, hr]

/-- **Requests survive when nobody copies one in while the thread owes a
response**, for any number of clients and in every state of every such run. -/
theorem requests_intact_of_no_copy_while_serving (send_data : ArgsData)
    (recv_data : RetvalData) {s : Sys Client}
    (h : Run.Reachable step NoCopyWhileServing (newEntry send_data recv_data) s) :
    RequestsIntact s := by
  obtain ⟨a, sim, hi⟩ := reachable_exchange (J := Exchange.Intact) h
    ⟨by simp [Exchange.init], fun _ => rfl, by simp [Exchange.init]⟩
    (fun sim hg hm => hg.exchange sim hm) (fun hi hg hs => hi.step hg hs)
  exact hi.requestsIntact sim

/-! ## Two runs -/

/-- `read(7, buf, n)` and `write(7, buf, n)` as the wrappers fill them in, up
to the buffer and the count. -/
def readRequest : ArgsData :=
  { ArgsData.zero with msgtype := 1, request_type := RequestType.TYPE_READ.code, word16 := 7 }
def writeRequest : ArgsData :=
  { ArgsData.zero with msgtype := 1, request_type := RequestType.TYPE_WRITE.code, word16 := 7 }

/-- One whole exchange. -/
def singleExchange : List (Label Bool) :=
  [.call false readRequest]
    ++ List.replicate 5 (.client false)
    ++ List.replicate 12 (.thread ⟨100, 0⟩)
    ++ List.replicate 5 (.client false)

theorem requests_intact_of_single_exchange :
    ∃ s : Sys Bool,
      Run.Reachable step NoCopyWhileServing (newEntry .zero .zero) s ∧
      s.hist.delivered = [readRequest] ∧ RequestsIntact s := by
  have hrun : ((Run.exec step NoCopyWhileServing (newEntry .zero .zero)
      singleExchange).map fun s => s.hist.delivered) = some [readRequest] := by
    decide
  obtain ⟨s, hs, hdel⟩ := Option.map_eq_some_iff.mp hrun
  have hreach := Run.reachable_of_exec hs
  exact ⟨s, hreach, hdel, requests_intact_of_no_copy_while_serving _ _ hreach⟩

/-- The first client's `read` is received and served; the second client's
`write` is sent before the thread writes the response. -/
def overlappingSends : List (Label Bool) :=
  [.call false readRequest, .call true writeRequest]
    ++ List.replicate 5 (.client false)
    ++ List.replicate 6 (.thread ⟨100, 0⟩)
    ++ List.replicate 5 (.client true)

/-- ... and after the response the thread receives what is left of it. -/
def clobberedRequest : List (Label Bool) :=
  overlappingSends ++ List.replicate 9 (.thread ⟨200, 0⟩)

/-- The second request delivered is the response to the first. -/
theorem requests_clobbered :
    ¬ ∀ s : Sys Bool,
      Run.Reachable step Run.free (newEntry .zero .zero) s →
      RequestsIntact s := by
  intro h
  have hrun : ((Run.exec step Run.free (newEntry .zero .zero)
      clobberedRequest).map fun s => (s.hist.sent, s.hist.delivered)) =
      some ([readRequest, writeRequest],
        [readRequest, writeRequest.overwrite (serve readRequest .zero ⟨100, 0⟩)]) := by
    decide
  obtain ⟨s, hs, hhist⟩ := Option.map_eq_some_iff.mp hrun
  simp only [Prod.mk.injEq] at hhist
  obtain ⟨outstanding, hsent, -⟩ := h s (Run.reachable_of_exec hs)
  rw [hhist.1, hhist.2] at hsent
  cases outstanding with
  | none => revert hsent; decide
  | some args => simp at hsent

end CorePartitioning.Preload.Ipc
