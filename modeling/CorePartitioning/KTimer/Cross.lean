import CorePartitioning.KTimer.Sockets

/-!
# simple_proc — the CROSS tick

`kerneltimer_timeover` under `#define CROSS`: a pass over the active
sockets, the scaling decision, and the shared rest on the sockets that are
active then.

The scaling decision is meant to compare the mean of the averages with the
thresholds. It does while one socket is active; with two, what is past the
end of the arrays goes into the sum in place of socket 0's averages.
-/

namespace CorePartitioning.KTimer.Cross

open Sockets

/-- The new `socket_number`. -/
def scale (sum_avg socket_number : Int) : Int :=
  if T_HIGH < sum_avg then
    if socket_number < NUMBER_OF_SOCKETS then socket_number + 1 else socket_number
  else if T_LOW > sum_avg then
    if socket_number > 1 then socket_number - 1 else socket_number
  else socket_number

/-- `sum_avg` is the value compared with the thresholds. -/
structure Tick extends Sockets.Tick where
  sum_avg : Int

/-- `kerneltimer_timeover` in CROSS mode; `none` is a division by zero or a
socket that does not exist. -/
def kerneltimer_timeover (par : Params) (inp : Input) (st : State) : Option Tick := do
  let a ← averagePass inp.p_dynamic inp.scaling st.per st.socket_number st.avgs
  let t ← finishTick par inp
    { st with socket_number := scale a.sum_avg st.socket_number, avgs := a.avgs }
  return { t with used := a.used ++ t.used, sum_avg := a.sum_avg }

def run (par : Params) : List Input → Option (State × List Hint) :=
  Ticks.run (fun inp st => (kerneltimer_timeover par inp st).map fun t => (t.state, t.hints))
    init_simpleproc

/-! ## The tick -/

theorem scale_counts (sum_avg : Int) {n : Int} (h : Counts n) : Counts (scale sum_avg n) := by
  obtain ⟨hlo, hhi⟩ := h
  simp only [Counts, scale, NUMBER_OF_SOCKETS] at *
  split_ifs <;> omega

/-- What a tick does. The moves and the redistribution are those of the new
`socket_number`. -/
structure TickSpec (par : Params) (inp : Input) (st : State) (t : Tick) : Prop where
  rest : FinishSpec par inp { st with socket_number := t.state.socket_number } t.toTick
  socket_number : t.state.socket_number = scale t.sum_avg st.socket_number
  sum : st.socket_number = 1 → t.sum_avg = mean inp.p_dynamic st.per 1
  used : (∀ i ∈ t.used, InArrays i) ↔ st.socket_number = 1 ∧ t.state.socket_number = 1

theorem tick_spec (par : Params) (inp : Input) {st : State} (h : Sound st) :
    ∃ t, kerneltimer_timeover par inp st = some t ∧ TickSpec par inp st t := by
  obtain ⟨a, ha, hpass⟩ := averagePass_spec inp.p_dynamic inp.scaling h.inv
    h.counts st.avgs
  obtain ⟨n, hn⟩ : ∃ n, n = scale a.sum_avg st.socket_number := ⟨_, rfl⟩
  have hcounts : Counts n := by
    rw [hn]
    exact scale_counts _ h.counts
  obtain ⟨t, ht, hrest, hused⟩ := finishTick_spec par inp
    { st with socket_number := n, avgs := a.avgs } ⟨hcounts, h.inv⟩
  have hnumber : t.state.socket_number = n := hrest.socket_number
  have htick : kerneltimer_timeover par inp st
      = some { t with used := a.used ++ t.used, sum_avg := a.sum_avg } := by
    rw [hn] at ht
    simp only [kerneltimer_timeover, ha, ht, Option.bind_eq_bind, Option.bind_some]
    rfl
  refine ⟨_, htick, ?_, hnumber.trans hn, hpass.sum, ?_⟩
  · show FinishSpec par inp { st with socket_number := t.state.socket_number } _
    rw [hnumber]
    exact ⟨hrest.sound, hrest.socket_number, hrest.turn, hrest.per, hrest.hints⟩
  · show (∀ i ∈ a.used ++ t.used, InArrays i) ↔ _ ∧ t.state.socket_number = 1
    rw [hnumber, ← hpass.used, ← hused]
    simp only [List.mem_append, or_imp, forall_and]

/-- Every run returns, and keeps the partition and the placement. -/
theorem run_placed (par : Params) (is : List Input) :
    ∃ st log, run par is = some (st, log) ∧ Placed par is st log := by
  refine Ticks.run_invariant (P := Placed par) (placed_init par) ?_ is
  intro inp is st log h
  obtain ⟨t, ht, hspec⟩ := tick_spec par inp h.sound
  exact ⟨t.state, t.hints, by rw [ht]; rfl, hspec.rest.placed is log⟩

/-! ## The scaling decision -/

/-- The value compared with the thresholds is the mean of the active
sockets' averages, and every index used on the arrays is one of theirs. -/
def ScalesByMean (inp : Input) (st : State) (t : Tick) : Prop :=
  t.sum_avg = mean inp.p_dynamic st.per st.socket_number ∧ ∀ i ∈ t.used, InArrays i

/-- **Scaling by the mean** is what a tick does exactly when one socket is
active and stays the only one. -/
theorem cross_scales_by_mean_iff (par : Params) (is : List Input) (inp : Input) :
    ∃ st log t, run par is = some (st, log) ∧ kerneltimer_timeover par inp st = some t ∧
      (ScalesByMean inp st t ↔
        st.socket_number = 1 ∧ mean inp.p_dynamic st.per 1 ≤ T_HIGH) := by
  obtain ⟨st, log, hrun, hplaced⟩ := run_placed par is
  obtain ⟨t, ht, hspec⟩ := tick_spec par inp hplaced.sound
  refine ⟨st, log, t, hrun, ht, ?_⟩
  have hscale : st.socket_number = 1 →
      (t.state.socket_number = 1 ↔ mean inp.p_dynamic st.per 1 ≤ T_HIGH) := by
    intro hone
    rw [hspec.socket_number, hspec.sum hone, hone]
    simp only [scale, NUMBER_OF_SOCKETS, T_HIGH, T_LOW]
    split_ifs <;> omega
  constructor
  · rintro ⟨-, hused⟩
    obtain ⟨hone, hstays⟩ := hspec.used.mp hused
    exact ⟨hone, (hscale hone).mp hstays⟩
  · rintro ⟨hone, hmean⟩
    refine ⟨?_, hspec.used.mpr ⟨hone, (hscale hone).mpr hmean⟩⟩
    rw [hspec.sum hone, hone]

/-- Full load, with zeros past the end of the arrays. -/
def fullLoad : Input where
  p_dynamic _ := 100
  scaling := .const 0
  averages := .const 0
  moves := .const 0

/-- Under full load the second tick, on two sockets, takes 50 for the mean. -/
theorem cross_scales_by_less :
    ∃ st log t, run .unset [fullLoad] = some (st, log) ∧
      kerneltimer_timeover .unset fullLoad st = some t ∧
      t.sum_avg = 50 ∧ mean fullLoad.p_dynamic st.per st.socket_number = 100 ∧
      ¬ ScalesByMean fullLoad st t := by
  have hvals : ((run .unset [fullLoad]).bind fun x =>
      (kerneltimer_timeover .unset fullLoad x.1).map fun t =>
        (t.sum_avg, mean fullLoad.p_dynamic x.1.per x.1.socket_number)) = some (50, 100) := by
    decide
  obtain ⟨x, hrun, hx⟩ := Option.bind_eq_some_iff.mp hvals
  obtain ⟨t, ht, hproj⟩ := Option.map_eq_some_iff.mp hx
  obtain ⟨hsum, hmean⟩ := Prod.mk.inj hproj
  refine ⟨x.1, x.2, t, hrun, ht, hsum, hmean, ?_⟩
  rintro ⟨heq, -⟩
  rw [hsum, hmean] at heq
  cases heq

/-! ## Where the queues are -/

/-- Every queue is on an active socket, in the current range of its kind. -/
def OnActive (par : Params) (st : State) (log : List Hint) : Prop :=
  ∀ queue, HintedIn par log queue (activeRange queue.turn st.per st.socket_number)

/-- **IRQs follow the active sockets, one kind a tick.** After every tick
from the second on, the queues redistributed in it are on the active
sockets, and those of the other kind on the sockets that were active before
it. So all are on active sockets unless the tick has given one up. -/
theorem cross_irqs_follow_sockets (par : Params) (inp before : Input) (is : List Input) :
    ∃ st log st' log', run par (before :: is) = some (st, log) ∧
      run par (inp :: before :: is) = some (st', log') ∧
      (∀ queue : Queue, queue.turn = st.dynamic_turn →
        HintedIn par log' queue (activeRange queue.turn st'.per st'.socket_number)) ∧
      (∀ queue : Queue, queue.turn ≠ st.dynamic_turn →
        HintedIn par log' queue (activeRange queue.turn st'.per st.socket_number)) ∧
      (st.socket_number ≤ st'.socket_number → OnActive par st' log') := by
  obtain ⟨st, log, hrun, hplaced⟩ := run_placed par (before :: is)
  obtain ⟨t, ht, hspec⟩ := tick_spec par inp hplaced.sound
  have hown : ∀ queue : Queue, queue.turn = st.dynamic_turn →
      HintedIn par (log ++ t.hints) queue
        (activeRange queue.turn t.state.per t.state.socket_number) :=
    fun queue hturn => hspec.rest.hintedIn hturn
  have hother : ∀ queue : Queue, queue.turn ≠ st.dynamic_turn →
      HintedIn par (log ++ t.hints) queue (activeRange queue.turn t.state.per st.socket_number) :=
    fun queue hturn => hspec.rest.keeps hturn (hplaced.last (by simp) queue hturn)
  refine ⟨st, log, t.state, log ++ t.hints, hrun, ?_, hown, hother, fun hle queue => ?_⟩
  · exact Ticks.run_cons hrun (by rw [ht]; rfl)
  · by_cases hturn : queue.turn = st.dynamic_turn
    · exact hown queue hturn
    · exact (hother queue hturn).mono fun core hcore => activeRange_mono hle hcore

/-- No load anywhere. -/
def idle : Input where
  p_dynamic _ := 0
  scaling := .const 0
  averages := .const 0
  moves := .const 0

/-- Two ticks under full load, then an idle one: it gives socket 0 up in a
turn for blk, and net queue 3 is still on core 0. -/
theorem cross_irqs_left_behind :
    ∃ st log, run ⟨fun j => j, fun j => 20 + j⟩ [idle, fullLoad, fullLoad] = some (st, log) ∧
      ¬ OnActive ⟨fun j => j, fun j => 20 + j⟩ st log := by
  have hvals : (run ⟨fun j => j, fun j => 20 + j⟩ [idle, fullLoad, fullLoad]).map
      (fun x => (x.1.socket_number, (x.1.per 1).net_start, lastQueueHint x.2 (.net 3)))
        = some (1, 10, some 0) := by
    decide
  obtain ⟨x, hrun, hproj⟩ := Option.map_eq_some_iff.mp hvals
  simp only [Prod.mk.injEq] at hproj
  obtain ⟨hnumber, hstart, hlast⟩ := hproj
  refine ⟨x.1, x.2, hrun, fun hon => ?_⟩
  obtain ⟨core, hcore, s, hs, hlo, -⟩ := (hon (.net 3)).last
  rw [hlast] at hcore
  obtain rfl : 0 = core := Option.some.inj hcore
  rw [hnumber] at hs
  have hsocket : s = 1 := by
    fin_cases s
    · exact absurd hs (by decide)
    · rfl
  rw [hsocket, hstart] at hlo
  cases hlo

end CorePartitioning.KTimer.Cross
