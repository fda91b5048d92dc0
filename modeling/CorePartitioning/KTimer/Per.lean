import CorePartitioning.KTimer.Cross

/-!
# simple_proc — the PER tick

`kerneltimer_timeover` under `#define PER`: both sockets are always active,
and each is meant to be partitioned by its own load. Socket 1 is. On socket
0 the turn for blk compares with `T_HIGH` what is past the end of
`blk_queue_util_avg`.
-/

namespace CorePartitioning.KTimer.Per

open Sockets

/-- `kerneltimer_timeover` in PER mode. -/
def kerneltimer_timeover (par : Params) (inp : Input) (st : State) : Option Tick :=
  finishTick par inp { st with socket_number := NUMBER_OF_SOCKETS }

def run (par : Params) : List Input → Option (State × List Hint) :=
  Ticks.run (fun inp st => (kerneltimer_timeover par inp st).map fun t => (t.state, t.hints))
    init_simpleproc

theorem tick_spec (par : Params) (inp : Input) {st : State} (h : Sound st) :
    ∃ t, kerneltimer_timeover par inp st = some t ∧
      FinishSpec par inp { st with socket_number := NUMBER_OF_SOCKETS } t := by
  obtain ⟨t, ht, hspec, -⟩ := finishTick_spec par inp
    { st with socket_number := NUMBER_OF_SOCKETS }
    ⟨(by decide : Counts NUMBER_OF_SOCKETS), h.inv⟩
  exact ⟨t, ht, hspec⟩

/-- Every run returns, and keeps the partition and the placement. -/
theorem run_placed (par : Params) (is : List Input) :
    ∃ st log, run par is = some (st, log) ∧ Placed par is st log := by
  refine Ticks.run_invariant (P := Placed par) (placed_init par) ?_ is
  intro inp is st log h
  obtain ⟨t, ht, hspec⟩ := tick_spec par inp h.sound
  exact ⟨t.state, t.hints, by rw [ht]; rfl, hspec.placed is log⟩

/-! ## The partition, in both modes -/

/-- The divisors of a socket's averages. -/
def divisors (p_dynamic : Int → Int) (b : Bounds) : List Int :=
  [(accumulate p_dynamic b.blk_start (b.blk_end + 1)).core_counter,
   (accumulate p_dynamic b.net_start (b.net_end + 1)).core_counter,
   (accumulate p_dynamic (b.net_end + 1) b.blk_start).core_counter]

/-- All the divisors of a tick are positive. -/
def DivisorsPos (st : State) : Prop :=
  0 < st.socket_number * 3 ∧ ∀ p_dynamic s, ∀ d ∈ divisors p_dynamic (st.per s), 0 < d

theorem divisorsPos {st : State} (h : Sound st) : DivisorsPos st := by
  refine ⟨?_, fun p_dynamic s d hd => ?_⟩
  · have hlo := h.counts.1
    omega
  · obtain ⟨-, -, hnet, hgap, hblk⟩ := h.inv s
    simp only [divisors, List.mem_cons, List.not_mem_nil, or_false] at hd
    rcases hd with rfl | rfl | rfl
    all_goals
      rw [accumulate_eq p_dynamic (by omega)]
      dsimp only
      omega

/-- **The partition holds up in CROSS and in PER.** After any number of
ticks, whatever the utilisations and whatever is read for the averages, the
sockets are partitioned, the number of active ones is right, every divisor
is positive, and the next tick returns. -/
theorem cross_per_partition_invariant (par : Params) (is : List Input) :
    (∃ st log, Cross.run par is = some (st, log) ∧ Sound st ∧ DivisorsPos st ∧
      ∀ inp, ∃ t, Cross.kerneltimer_timeover par inp st = some t) ∧
    ∃ st log, run par is = some (st, log) ∧ Sound st ∧ DivisorsPos st ∧
      ∀ inp, ∃ t, kerneltimer_timeover par inp st = some t := by
  constructor
  · obtain ⟨st, log, hrun, hplaced⟩ := Cross.run_placed par is
    refine ⟨st, log, hrun, hplaced.sound, divisorsPos hplaced.sound, fun inp => ?_⟩
    obtain ⟨t, ht, -⟩ := Cross.tick_spec par inp hplaced.sound
    exact ⟨t, ht⟩
  · obtain ⟨st, log, hrun, hplaced⟩ := run_placed par is
    refine ⟨st, log, hrun, hplaced.sound, divisorsPos hplaced.sound, fun inp => ?_⟩
    obtain ⟨t, ht, -⟩ := tick_spec par inp hplaced.sound
    exact ⟨t, ht⟩

/-! ## Where the queues are -/

/-- **IRQ freshness in PER mode.** After every tick from the second on,
every queue is in the current range of its kind on some socket. -/
theorem per_irqs_fresh (par : Params) (inp before : Input) (is : List Input) :
    ∃ st log, run par (inp :: before :: is) = some (st, log) ∧
      ∀ queue, HintedIn par log queue fun core => ∃ s, range queue.turn (st.per s) core := by
  obtain ⟨st, log, hrun, hplaced⟩ := run_placed par (before :: is)
  obtain ⟨t, ht, hspec⟩ := tick_spec par inp hplaced.sound
  refine ⟨t.state, log ++ t.hints, Ticks.run_cons hrun (by rw [ht]; rfl), fun queue => ?_⟩
  have hon : ∃ n, HintedIn par (log ++ t.hints) queue (activeRange queue.turn t.state.per n) := by
    by_cases hturn : queue.turn = st.dynamic_turn
    · exact ⟨_, hspec.hintedIn hturn⟩
    · exact ⟨_, hspec.keeps hturn (hplaced.last (by simp) queue hturn)⟩
  obtain ⟨n, hon⟩ := hon
  refine hon.mono fun core hcore => ?_
  obtain ⟨s, -, hrange⟩ := hcore
  exact ⟨s, hrange⟩

/-! ## Independence -/

/-- Core `j` is one of socket `s`. -/
def OnSocket (s : Socket) (j : Int) : Prop :=
  (initBounds s).net_start ≤ j ∧ j ≤ (initBounds s).blk_end

/-- What else than socket `s` and the turn another state and another input
may differ in changes nothing about the boundaries of `s` after the tick. -/
def Independent (inp : Input) (st : State) (t : Tick) (s : Socket) : Prop :=
  ∀ (par : Params) (is : List Input) (inp' : Input) (st' : State) (log' : List Hint) (t' : Tick),
    run par is = some (st', log') → kerneltimer_timeover par inp' st' = some t' →
    st'.dynamic_turn = st.dynamic_turn → st'.per s = st.per s →
    (∀ j, OnSocket s j → inp'.p_dynamic j = inp.p_dynamic j) →
    (t'.state.per s).net_end = (t.state.per s).net_end ∧
      (t'.state.per s).blk_start = (t.state.per s).blk_start

/-- In the turn for blk `blk_start` moves the same way whether or not the
block group counts as highly loaded. -/
def SameEitherWay (p_dynamic : Int → Int) (b : Bounds) : Prop :=
  if blkAvg p_dynamic b < T_LOW ∧ b.blk_end ≠ b.blk_start then
    blkAvg p_dynamic b < sysAvg p_dynamic b
  else
    ¬ (sysAvg p_dynamic b < blkAvg p_dynamic b ∧ 3 < b.blk_start - b.net_end) ∧
      ¬ (blkAvg p_dynamic b < sysAvg p_dynamic b ∧ b.blk_start ≠ b.blk_end)

theorem loadAvg_congr {p p' : Int → Int} {lo hi : Int} (hle : lo ≤ hi)
    (h : ∀ j, lo ≤ j → j < hi → p' j = p j) : loadAvg p' lo hi = loadAvg p lo hi := by
  have hsum : ∑ j ∈ Finset.Ico lo hi, p' j = ∑ j ∈ Finset.Ico lo hi, p j := by
    refine Finset.sum_congr rfl fun j hj => ?_
    obtain ⟨hlo, hhi⟩ := Finset.mem_Ico.mp hj
    exact h j hlo hhi
  rw [loadAvg, loadAvg, accumulate_eq p' hle, accumulate_eq p hle, hsum]

/-- The averages of a socket depend on its own cores only. -/
theorem avgs_congr {p p' : Int → Int} {s : Socket} {b : Bounds} (hb : Inv s b)
    (h : ∀ j, OnSocket s j → p' j = p j) :
    blkAvg p' b = blkAvg p b ∧ netAvg p' b = netAvg p b ∧ sysAvg p' b = sysAvg p b := by
  obtain ⟨hstart, hend, hnet, hgap, hblk⟩ := hb
  refine ⟨loadAvg_congr (by omega) ?_, loadAvg_congr (by omega) ?_, loadAvg_congr (by omega) ?_⟩
  all_goals
    intro j hlo hhi
    refine h j ⟨?_, ?_⟩ <;> omega

/-- The moves of the turn for net irq do not ask for `blk_queue_util_avg[i]`. -/
theorem moveBounds_net (high high' blk net sys : Int) (b : Bounds) :
    moveBounds .net high blk net sys b = moveBounds .net high' blk net sys b := rfl

theorem moveBounds_blk_high {high high' : Int} (h : T_HIGH < high ↔ T_HIGH < high')
    (blk net sys : Int) (b : Bounds) :
    moveBounds .blk high blk net sys b = moveBounds .blk high' blk net sys b := by
  simp only [moveBounds, h]

/-- `SameEitherWay` says what it should. -/
theorem sameEitherWay_iff (p_dynamic : Int → Int) (net : Int) (b : Bounds) {high low : Int}
    (hhigh : T_HIGH < high) (hlow : ¬ T_HIGH < low) :
    SameEitherWay p_dynamic b ↔
      (moveBounds .blk high (blkAvg p_dynamic b) net (sysAvg p_dynamic b) b).blk_start =
        (moveBounds .blk low (blkAvg p_dynamic b) net (sysAvg p_dynamic b) b).blk_start := by
  simp only [SameEitherWay, moveBounds, if_pos hhigh, if_neg hlow]
  split_ifs
  all_goals
    dsimp -failIfUnchanged only
    omega

theorem SameEitherWay.blk_start_eq {p_dynamic : Int → Int} {b : Bounds}
    (h : SameEitherWay p_dynamic b) (net high high' : Int) :
    (moveBounds .blk high (blkAvg p_dynamic b) net (sysAvg p_dynamic b) b).blk_start =
      (moveBounds .blk high' (blkAvg p_dynamic b) net (sysAvg p_dynamic b) b).blk_start := by
  by_cases hhigh : T_HIGH < high
  · by_cases hhigh' : T_HIGH < high'
    · rw [moveBounds_blk_high (iff_of_true hhigh hhigh')]
    · exact (sameEitherWay_iff p_dynamic net b hhigh hhigh').mp h
  · by_cases hhigh' : T_HIGH < high'
    · exact ((sameEitherWay_iff p_dynamic net b hhigh' hhigh).mp h).symm
    · rw [moveBounds_blk_high (iff_of_false hhigh hhigh')]

/-- Both sockets move. -/
theorem per_eq {par : Params} {inp : Input} {st : State} {t : Tick}
    (h : FinishSpec par inp { st with socket_number := NUMBER_OF_SOCKETS } t) (s : Socket) :
    t.state.per s = nextBounds inp st.dynamic_turn st.per s := by
  have hactive : Active NUMBER_OF_SOCKETS s := by
    fin_cases s <;> decide
  rw [h.per s, if_pos hactive]

/-- **Sockets are independent in PER mode** but for socket 0 in the turn for
blk, which is independent exactly when the comparison with the memory past
the end of `blk_queue_util_avg` makes no difference. -/
theorem per_sockets_independent_iff (par : Params) (is : List Input) (inp : Input) (s : Socket) :
    ∃ st log t, run par is = some (st, log) ∧ kerneltimer_timeover par inp st = some t ∧
      (Independent inp st t s ↔
        s = 1 ∨ st.dynamic_turn = .net ∨ SameEitherWay inp.p_dynamic (st.per s)) := by
  obtain ⟨st, log, hrun, hplaced⟩ := run_placed par is
  obtain ⟨t, ht, hspec⟩ := tick_spec par inp hplaced.sound
  refine ⟨st, log, t, hrun, ht, ?_, ?_⟩
  · intro hind
    by_contra hno
    simp only [not_or] at hno
    obtain ⟨hs, hturn, hways⟩ := hno
    obtain rfl : s = 0 := by
      fin_cases s
      · rfl
      · exact absurd rfl hs
    have hblk : st.dynamic_turn = .blk := by
      cases hcase : st.dynamic_turn with
      | blk => rfl
      | net => exact absurd hcase hturn
    -- the same tick, with other memory past the end of the array
    have hother : ∀ x, (t.state.per 0).blk_start =
        (moveBounds .blk x (blkAvg inp.p_dynamic (st.per 0)) (netAvg inp.p_dynamic (st.per 0))
          (sysAvg inp.p_dynamic (st.per 0)) (st.per 0)).blk_start := by
      intro x
      obtain ⟨t', ht', hspec'⟩ := tick_spec par { inp with moves := .const x } hplaced.sound
      obtain ⟨-, heq⟩ := hind par is _ st log t' hrun ht' rfl rfl fun _ _ => rfl
      rw [← heq, per_eq hspec' 0, nextBounds, hblk]
      rfl
    refine hways ((sameEitherWay_iff inp.p_dynamic (netAvg inp.p_dynamic (st.per 0)) (st.per 0)
      (show T_HIGH < T_HIGH + 1 by decide) (show ¬ T_HIGH < T_HIGH by decide)).mpr ?_)
    rw [← hother, ← hother]
  · intro hcond par' is' inp' st' log' t' hrun' ht' hturn hper hload
    obtain ⟨st₂, log₂, hrun₂, hplaced'⟩ := run_placed par' is'
    obtain ⟨rfl, rfl⟩ : st₂ = st' ∧ log₂ = log' := by
      rw [hrun₂] at hrun'
      exact Prod.mk.inj (Option.some.inj hrun')
    obtain ⟨t₂, ht₂, hspec'⟩ := tick_spec par' inp' hplaced'.sound
    obtain rfl : t₂ = t' := by
      rw [ht₂] at ht'
      exact Option.some.inj ht'
    obtain ⟨hblk, hnet, hsys⟩ := avgs_congr (hplaced.sound.inv s) hload
    rw [per_eq hspec s, per_eq hspec' s, nextBounds, nextBounds, hturn, hper, hblk, hnet, hsys]
    rcases hcond with rfl | hcond | hcond
    · have hhigh : highRead inp' st₂.per 1 = highRead inp st.per 1 := by
        show blkAvg inp'.p_dynamic (st₂.per 1) = blkAvg inp.p_dynamic (st.per 1)
        rw [hper, hblk]
      rw [hhigh]
      exact ⟨rfl, rfl⟩
    · rw [hcond, moveBounds_net]
      exact ⟨rfl, rfl⟩
    · cases hcase : st.dynamic_turn with
      | blk =>
          refine ⟨?_, hcond.blk_start_eq _ _ _⟩
          rw [(moveBounds_moved ..).net_end rfl, (moveBounds_moved ..).net_end rfl]
      | net =>
          rw [moveBounds_net]
          exact ⟨rfl, rfl⟩

/-- Block cores at full load, the rest idle, and zeros past the arrays. -/
def blkBusy : Input where
  p_dynamic j := if 6 ≤ j ∧ j ≤ 9 ∨ 16 ≤ j then 100 else 0
  scaling := .const 0
  averages := .const 0
  moves := .const 0

/-- Two first ticks with the same load; what differs is the memory past the
end of `blk_queue_util_avg`, and socket 0 gets a block core or does not. -/
theorem per_socket_zero_depends :
    ∃ t, kerneltimer_timeover .unset blkBusy init_simpleproc = some t ∧
      ¬ Independent blkBusy init_simpleproc t 0 := by
  have hvals : ∀ x : Bool, (kerneltimer_timeover .unset
      { blkBusy with moves := .const (if x then 100 else 0) } init_simpleproc).map
        (fun t => (t.state.per 0).blk_start) = some (if x then 5 else 6) := by
    decide
  obtain ⟨t, ht, hstart⟩ := Option.map_eq_some_iff.mp (hvals false)
  obtain ⟨t', ht', hstart'⟩ := Option.map_eq_some_iff.mp (hvals true)
  refine ⟨t, ht, fun hind => ?_⟩
  obtain ⟨-, heq⟩ := hind .unset [] _ init_simpleproc [] t' rfl ht' rfl rfl fun _ _ => rfl
  rw [hstart, hstart'] at heq
  cases heq

end CorePartitioning.KTimer.Per
