import CorePartitioning.Preload.IpcRequests
import Mathlib.Data.Fintype.Basic

/-!
# ipc.c — routing of the responses

`full2` counts responses; it does not say whose. Every client that has sent
its request waits on the same `full2`, so when two of them are between
their own request and their own response at the same time, either may take
the one response there is. Responses reach their callers exactly as long as
at most one client at a time is in that stretch, which is what the disabled
`sem_wait(&(tmp->at))` at the head of `CPART_send_to_thread` and
`sem_post(&(tmp->at))` at the end of `CPART_recv_from_thread` would enforce.
-/

namespace CorePartitioning.Preload.Ipc

variable {Client : Type} [DecidableEq Client]

/-- **Response routing.** What a caller obtained is what the thread produced
for the caller's own request, and nothing else was produced for it. -/
def ResponsesRouted (s : Sys Client) : Prop :=
  ∀ id r, (id, r) ∈ s.hist.obtained → ∀ r', (some id, r') ∈ s.hist.produced ↔ r' = r

/-- The client has copied its request in and its response not yet out. -/
def AwaitsResponse (r : Running) : Prop := 3 ≤ r.pc ∧ r.pc ≤ 7

/-- No client copies a request into the message (statement 2) while another
one awaits its response. -/
def NoCopyWhileAwaiting (s : Sys Client) : Label Client → Prop
  | .client c =>
      ∀ r ∈ s.client c, r.pc = 2 → ∀ c', ∀ r' ∈ s.client c', ¬ AwaitsResponse r'
  | _ => True

instance (r : Running) : Decidable (AwaitsResponse r) :=
  inferInstanceAs (Decidable (_ ∧ _))

instance [Fintype Client] (s : Sys Client) (l : Label Client) :
    Decidable (NoCopyWhileAwaiting s l) :=
  match l with
  | .client _ => inferInstanceAs (Decidable (∀ _ ∈ _, _))
  | .call _ _ | .thread _ => inferInstanceAs (Decidable True)

/-! ## The invariant of the exchange -/

/-- The call a client has not finished. -/
def Stage.call? : Stage → Option Call
  | .calling k | .pending k => some k
  | .idle | .done => none

namespace Exchange

/-- Call numbers: every unfinished call has its own, not answered yet, and
nothing is produced for a call whose request is not written yet. -/
structure Ids (client : Client → Stage) (hist : History) : Prop where
  lt : ∀ c k, (client c).call? = some k → k.id < hist.nextId
  inj : ∀ c c' k k', (client c).call? = some k → (client c').call? = some k' →
    k.id = k'.id → c = c'
  produced_lt : ∀ i r, (some i, r) ∈ hist.produced → i < hist.nextId
  obtained_lt : ∀ i r, (i, r) ∈ hist.obtained → i < hist.nextId
  fresh : ∀ c k, client c = .calling k → ∀ r, (some k.id, r) ∉ hist.produced
  unanswered : ∀ c k, (client c).call? = some k → ∀ r, (k.id, r) ∉ hist.obtained

/-- `c` is the one client between its request and its response. -/
def Only (a : Exchange Client) (c : Client) (k : Call) : Prop :=
  ∀ c' k', a.client c' = .pending k' ↔ c' = c ∧ k' = k

/-- `r` is the one response produced for call `k`. -/
def ProducedFor (a : Exchange Client) (k : Call) (r : RetvalData) : Prop :=
  ∀ r', (some k.id, r') ∈ a.hist.produced ↔ r' = r

/-- Whose turn it is: nobody's, or one call's, and how far it has come. -/
inductive Turn (a : Exchange Client) : Prop
  | quiet (hp : a.phase = .waiting) (hq : a.request = false) (hr : a.response = false)
      (hc : ∀ c k, a.client c ≠ .pending k)
  | requested (c : Client) (k : Call) (hp : a.phase = .waiting) (hq : a.request = true)
      (hr : a.response = false) (hc : a.Only c k) (hh : a.hist.holds = some k.id)
      (hn : ∀ r, (some k.id, r) ∉ a.hist.produced)
  | serving (c : Client) (k : Call) (hp : a.phase = .serving) (hq : a.request = false)
      (hr : a.response = false) (hc : a.Only c k) (hs : a.hist.serving = some k.id)
      (hn : ∀ r, (some k.id, r) ∉ a.hist.produced)
  | replying (c : Client) (k : Call) (r : RetvalData) (hp : a.phase = .replying r)
      (hq : a.request = false) (hr : a.response = false) (hc : a.Only c k)
      (hprod : a.ProducedFor k r)
  | answered (c : Client) (k : Call) (r : RetvalData) (hp : a.phase = .waiting)
      (hq : a.request = false) (hr : a.response = true) (hc : a.Only c k)
      (hprod : a.ProducedFor k r) (hm : a.message.retval = r)

structure Routed (a : Exchange Client) : Prop where
  ids : Ids a.client a.hist
  turn : a.Turn
  routed : ∀ i r, (i, r) ∈ a.hist.obtained → ∀ r', (some i, r') ∈ a.hist.produced ↔ r' = r

/-- The guard, in terms of the exchange. -/
def RequestWhenNonePending (a : Exchange Client) (b : Action Client) : Prop :=
  ∀ c, b = .request c → ∀ c' k, a.client c' ≠ .pending k

variable {a a' : Exchange Client} {b : Action Client}

/-! ### Call numbers -/

section Ids

variable {client : Client → Stage} {hist : History} {c : Client} {k : Call}

theorem Ids.start (hi : Ids client hist) (c : Client) (args : ArgsData) :
    Ids (Function.update client c (.calling ⟨hist.nextId, args⟩)) hist.start := by
  obtain ⟨h1, h2, h3, h4, h5, h6⟩ := hi
  constructor <;> grind [History.start, Stage.call?, Function.update_apply]

theorem Ids.request (hi : Ids client hist) (hc : client c = .calling k) :
    Ids (Function.update client c (.pending k)) (hist.request k) := by
  obtain ⟨h1, h2, h3, h4, h5, h6⟩ := hi
  constructor <;> grind [History.request, Stage.call?, Function.update_apply]

omit [DecidableEq Client] in
theorem Ids.produce (hi : Ids client hist) (hc : client c = .pending k)
    (hs : hist.serving = some k.id) (r : RetvalData) : Ids client (hist.produce r) := by
  obtain ⟨h1, h2, h3, h4, h5, h6⟩ := hi
  constructor <;> grind [History.produce, Stage.call?]

theorem Ids.receive (hi : Ids client hist) (hc : client c = .pending k) (r : RetvalData) :
    Ids (Function.update client c .done) (hist.receive k r) := by
  obtain ⟨h1, h2, h3, h4, h5, h6⟩ := hi
  constructor <;> grind [History.receive, Stage.call?, Function.update_apply]

theorem Ids.finish (hi : Ids client hist) (c : Client) :
    Ids (Function.update client c .idle) hist := by
  obtain ⟨h1, h2, h3, h4, h5, h6⟩ := hi
  constructor <;> grind [Stage.call?, Function.update_apply]

end Ids

omit [DecidableEq Client] in
/-- The thread serves the call of a client that awaits its response. -/
theorem Turn.serving_call (ht : a.Turn) (hp : a.phase = .serving) :
    ∃ c k, a.client c = .pending k ∧ a.hist.serving = some k.id := by
  cases ht with
  | serving c k _ _ _ hc hs _ => exact ⟨c, k, (hc c k).mpr ⟨rfl, rfl⟩, hs⟩
  | _ => simp_all

omit [DecidableEq Client] in
/-- The client that reads a response is the one it was produced for. -/
theorem Turn.answer (ht : a.Turn) {c : Client} {k : Call} (hc : a.client c = .pending k)
    (hr : a.response = true) :
    a.Only c k ∧ a.phase = .waiting ∧ a.request = false ∧
      a.ProducedFor k a.message.retval := by
  cases ht with
  | answered c₀ k₀ r hp hq _ ho hprod hm =>
      obtain ⟨rfl, rfl⟩ := (ho c k).mp hc
      exact ⟨ho, hp, hq, by rwa [hm]⟩
  | _ => simp_all

theorem Ids.step (hi : Ids a.client a.hist) (ht : a.Turn) (hs : a.Step b a') :
    Ids a'.client a'.hist := by
  cases hs with
  | start args hc => exact hi.start _ args
  | request hc hr => exact hi.request hc
  | deliver hp hr => exact ⟨hi.lt, hi.inj, hi.produced_lt, hi.obtained_lt, hi.fresh, hi.unanswered⟩
  | produce r hp =>
      obtain ⟨c, k, hc, hs⟩ := ht.serving_call hp
      exact hi.produce hc hs r
  | respond hp hr => exact ⟨hi.lt, hi.inj, hi.produced_lt, hi.obtained_lt, hi.fresh, hi.unanswered⟩
  | receive hc hr => exact hi.receive hc _
  | finish hc => exact hi.finish _

/-! ### The turn -/

theorem only_update {a : Exchange Client} {c c₀ : Client} {k₀ : Call} {x : Stage}
    (ho : a.Only c₀ k₀) (hc : ∀ k, a.client c ≠ .pending k) (hx : ∀ k, x ≠ .pending k)
    (c' : Client) (k' : Call) :
    Function.update a.client c x c' = .pending k' ↔ c' = c₀ ∧ k' = k₀ := by
  by_cases h : c' = c
  · subst h
    rw [Function.update_self]
    constructor
    · intro hxk
      exact absurd hxk (hx k')
    · intro hck
      exact absurd ((ho c' k').mpr hck) (hc k')
  · rw [Function.update_of_ne h]
    exact ho c' k'

/-- Entering or leaving a call changes nobody's turn. -/
theorem Turn.move (ht : a.Turn) {c : Client} {x : Stage} {hist : History}
    (hc : ∀ k, a.client c ≠ .pending k) (hx : ∀ k, x ≠ .pending k)
    (hh : hist.holds = a.hist.holds) (hs : hist.serving = a.hist.serving)
    (hp : hist.produced = a.hist.produced) :
    Turn { a with client := Function.update a.client c x, hist := hist } := by
  cases ht with
  | quiet h1 h2 h3 h4 =>
      refine .quiet h1 h2 h3 ?_
      intro c' k
      by_cases h : c' = c
      · subst h
        simpa using hx k
      · simpa [h] using h4 c' k
  | requested c₀ k h1 h2 h3 h4 h5 h6 =>
      exact .requested c₀ k h1 h2 h3 (only_update h4 hc hx) (hh.trans h5) (by rwa [hp])
  | serving c₀ k h1 h2 h3 h4 h5 h6 =>
      exact .serving c₀ k h1 h2 h3 (only_update h4 hc hx) (hs.trans h5) (by rwa [hp])
  | replying c₀ k r h1 h2 h3 h4 h5 =>
      exact .replying c₀ k r h1 h2 h3 (only_update h4 hc hx) (by unfold ProducedFor; rwa [hp])
  | answered c₀ k r h1 h2 h3 h4 h5 h6 =>
      exact .answered c₀ k r h1 h2 h3 (only_update h4 hc hx) (by unfold ProducedFor; rwa [hp]) h6

theorem Turn.step (hi : Ids a.client a.hist) (ht : a.Turn) (hg : a.RequestWhenNonePending b)
    (hs : a.Step b a') : a'.Turn := by
  cases hs with
  | start args hc => exact ht.move (by simp [hc]) (by simp) rfl rfl rfl
  | finish hc => exact ht.move (by simp [hc]) (by simp) rfl rfl rfl
  | @request c k hc hr =>
      have hnone := hg c rfl
      cases ht with
      | quiet hp hq hr' _ =>
          refine .requested c k hp rfl hr' ?_ rfl (hi.fresh c k hc)
          intro c' k'
          by_cases h : c' = c
          · simp [h, eq_comm]
          · simpa [h] using hnone c' k'
      | requested c₀ k₀ _ _ _ ho => exact absurd ((ho c₀ k₀).mpr ⟨rfl, rfl⟩) (hnone c₀ k₀)
      | serving c₀ k₀ _ _ _ ho => exact absurd ((ho c₀ k₀).mpr ⟨rfl, rfl⟩) (hnone c₀ k₀)
      | replying c₀ k₀ _ _ _ _ ho => exact absurd ((ho c₀ k₀).mpr ⟨rfl, rfl⟩) (hnone c₀ k₀)
      | answered c₀ k₀ _ _ _ _ ho => exact absurd ((ho c₀ k₀).mpr ⟨rfl, rfl⟩) (hnone c₀ k₀)
  | deliver hp hr =>
      cases ht with
      | requested c k _ _ hr hc hh hn => exact .serving c k rfl rfl hr hc hh hn
      | _ => simp_all
  | produce r hp =>
      cases ht with
      | serving c k _ hq hr hc hs hn =>
          refine .replying c k r rfl hq hr hc ?_
          intro r'
          simp [History.produce, hn, hs]
      | _ => simp_all
  | respond hp hr =>
      cases ht with
      | replying c k r' hp' hq _ hc hprod =>
          obtain rfl : r' = _ := Phase.replying.inj (hp'.symm.trans hp)
          exact .answered c k r' rfl hq rfl hc hprod (a.message.retval_overwrite r')
      | _ => simp_all
  | @receive c k hc hr =>
      obtain ⟨ho, hp, hq, -⟩ := ht.answer hc hr
      refine .quiet hp hq rfl ?_
      intro c' k'
      by_cases h : c' = c
      · simp [h]
      · simpa [h] using (ho c' k').not

theorem Routed.step (h : a.Routed) (hg : a.RequestWhenNonePending b) (hs : a.Step b a') :
    a'.Routed := by
  refine ⟨h.ids.step h.turn hs, h.turn.step h.ids hg hs, ?_⟩
  cases hs with
  | produce r hp =>
      obtain ⟨c, k, hc, hs⟩ := h.turn.serving_call hp
      intro i r₀ hi r'
      have hne : i ≠ k.id := by
        rintro rfl
        exact h.ids.unanswered c k (by simp [hc, Stage.call?]) r₀ hi
      have hold := h.routed i r₀ hi r'
      simpa [History.produce, hs, hne] using hold
  | @receive c k hc hr =>
      obtain ⟨-, -, -, hprod⟩ := h.turn.answer hc hr
      intro i r hi r'
      rcases List.mem_append.mp hi with hold | hnew
      · exact h.routed i r hold r'
      · simp only [List.mem_singleton, Prod.mk.injEq] at hnew
        obtain ⟨rfl, rfl⟩ := hnew
        exact hprod r'
  | start | request | deliver | respond | finish => exact h.routed

end Exchange

/-! ## Back to the code -/

omit [DecidableEq Client] in
theorem stage_eq_pending {x : Option Running} {k : Call} (h : stage x = .pending k) :
    ∃ r, x = some r ∧ AwaitsResponse r := by
  cases x with
  | none => cases h
  | some r =>
      refine ⟨r, rfl, ?_⟩
      unfold stage at h
      unfold AwaitsResponse
      simp only at h
      split at h
      · cases h
      · split at h
        · omega
        · cases h

omit [DecidableEq Client] in
theorem NoCopyWhileAwaiting.exchange {s : Sys Client} {a : Exchange Client}
    {l : Label Client} {b : Action Client} (sim : Sim s a) (hg : NoCopyWhileAwaiting s l)
    (hm : Matches s l b) : a.RequestWhenNonePending b := by
  intro c hb c' k' hpend
  obtain ⟨rfl, k, hc⟩ := hm c hb
  rw [sim.client] at hpend
  obtain ⟨r, hr, haw⟩ := stage_eq_pending hpend
  exact hg _ hc rfl c' r hr haw

/-- **Responses reach their callers when nobody copies a request in while
another caller awaits its response**, for any number of clients and in every
state of every such run. -/
theorem responses_routed_of_no_copy_while_awaiting (send_data : ArgsData)
    (recv_data : RetvalData) {s : Sys Client}
    (h : Run.Reachable step NoCopyWhileAwaiting (newEntry send_data recv_data) s) :
    ResponsesRouted s := by
  have hinit : (Exchange.init : Exchange Client).Routed := by
    refine ⟨?_, .quiet rfl rfl rfl (by simp [Exchange.init]), by simp [Exchange.init]⟩
    constructor <;> simp [Exchange.init, Stage.call?]
  obtain ⟨a, sim, hr⟩ := reachable_exchange (J := Exchange.Routed) h hinit
    (fun sim hg hm => hg.exchange sim hm) (fun hr hg hs => hr.step hg hs)
  unfold ResponsesRouted
  rw [← sim.hist]
  exact hr.routed

theorem responses_routed_of_single_exchange :
    ∃ s : Sys Bool,
      Run.Reachable step NoCopyWhileAwaiting (newEntry .zero .zero) s ∧
      s.hist.obtained = [(0, serve readRequest .zero ⟨100, 0⟩)] ∧
      ResponsesRouted s := by
  have hrun : ((Run.exec step NoCopyWhileAwaiting (newEntry .zero .zero)
      singleExchange).map fun s => s.hist.obtained) =
      some [(0, serve readRequest .zero ⟨100, 0⟩)] := by
    decide
  obtain ⟨s, hs, hobt⟩ := Option.map_eq_some_iff.mp hrun
  have hreach := Run.reachable_of_exec hs
  exact ⟨s, hreach, hobt, responses_routed_of_no_copy_while_awaiting _ _ hreach⟩

/-- The two sends overlap, the thread answers the `read`, and the client that
called `write` takes the answer. -/
def stolenResponse : List (Label Bool) :=
  overlappingSends ++ List.replicate 5 (.thread ⟨100, 0⟩) ++ List.replicate 5 (.client true)

theorem responses_misrouted :
    ¬ ∀ s : Sys Bool,
      Run.Reachable step Run.free (newEntry .zero .zero) s →
      ResponsesRouted s := by
  intro h
  have hrun : ((Run.exec step Run.free (newEntry .zero .zero)
      stolenResponse).map fun s => (s.hist.produced, s.hist.obtained)) =
      some ([(some 0, serve readRequest .zero ⟨100, 0⟩)],
        [(1, serve readRequest .zero ⟨100, 0⟩)]) := by
    decide
  obtain ⟨s, hs, hhist⟩ := Option.map_eq_some_iff.mp hrun
  simp only [Prod.mk.injEq] at hhist
  have hrouted := h s (Run.reachable_of_exec hs)
  unfold ResponsesRouted at hrouted
  rw [hhist.1, hhist.2] at hrouted
  have hown := (hrouted 1 _ (List.mem_singleton.mpr rfl) _).mpr rfl
  simp at hown

end CorePartitioning.Preload.Ipc
