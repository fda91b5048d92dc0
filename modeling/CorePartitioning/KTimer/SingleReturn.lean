import CorePartitioning.KTimer.Single

/-!
# simple_proc — block cores given back in SINGLE mode

In the turn for blk a busy block group that is less loaded than net sys is
to give a core back. The comparison before has the average of net sys with
its own number of cores, this one divides by the number of cores between
`NET_START` and `blk_start`: with more than one core for the net queues
that is too many, and the quotient too small.
-/

namespace CorePartitioning.KTimer.Single

/-- The block group is to give a core back. -/
structure ReturnDue (u : Utils) (st : State) : Prop where
  high : T_HIGH * (BLK_END - st.blk_start + 1) < u.blk_queue_util
  busier : blkAvg u st < sysAvg u st
  room : st.blk_start ≠ BLK_END

/-- The load of net sys is above the block average for each of the cores
between `NET_START` and `blk_start`. -/
def SysOutweighs (u : Utils) (st : State) : Prop :=
  (blkAvg u st + 1) * (st.blk_start - NET_START - 1) ≤ u.net_sys_util

variable {u : Utils} {st : State}

/-- A block group above the threshold has no negative average. -/
theorem Inv.blkAvg_nonneg (h : Inv st)
    (hhigh : T_HIGH * (BLK_END - st.blk_start + 1) < u.blk_queue_util) : 0 ≤ blkAvg u st := by
  have hpos := h.divisors_pos (BLK_END - st.blk_start + 1) (by simp [divisors])
  refine Int.tdiv_nonneg ?_ hpos.le
  simp only [T_HIGH] at hhigh
  omega

/-- The quotient with the wrong divisor. -/
theorem lt_tdiv_iff {a x d : Int} (ha : 0 ≤ a) (hd : 0 < d) :
    a < x.tdiv d ↔ (a + 1) * d ≤ x := by
  rcases Int.le_total 0 x with hx | hx
  · rw [Int.tdiv_eq_ediv_of_nonneg hx, ← Int.add_one_le_iff]
    exact Int.le_ediv_iff_mul_le hd
  · have hquot := Int.tdiv_nonneg (show 0 ≤ -x by omega) hd.le
    rw [Int.neg_tdiv] at hquot
    have hprod : 0 < (a + 1) * d := by positivity
    omega

/-- What the turn for blk does when a core is to be given back. -/
theorem moveBlk_of_due (h : Inv st) (hdue : ReturnDue u st) :
    moveBlk u st = some
      (if blkAvg u st < u.net_sys_util.tdiv (st.blk_start - NET_START - 1) then
        { st with blk_start := st.blk_start + 1 } else st) := by
  have hblk := fun x => h.cdiv_eq x (d := BLK_END - st.blk_start + 1) (by simp [divisors])
  have hsys := fun x => h.cdiv_eq x (d := st.blk_start - st.net_end - 1) (by simp [divisors])
  have hstart := fun x => h.cdiv_eq x (d := st.blk_start - NET_START - 1) (by simp [divisors])
  obtain ⟨hhigh, hless, hroom⟩ := hdue
  have hnot : ¬ blkAvg u st > sysAvg u st := by omega
  unfold blkAvg sysAvg at hnot
  simp only [moveBlk, hblk, hsys, hstart, Option.bind_eq_bind, Option.bind_some]
  rw [if_pos hhigh, if_neg hnot]
  show (if blkAvg u st < _ then _ else _) = _
  simp only [if_pos hroom]
  split <;> rfl

/-- **A core is given back exactly when net sys outweighs the block group
with the wrong number of cores**, in the turn for blk of every state of
every run. -/
theorem single_returns_blk_core_iff (par : Params) (turn : Turn) (ps : List (Int → Int)) :
    ∃ st log, run par turn ps = some (st, log) ∧ (st.dynamic_turn = .blk → ∀ p_dynamic,
      ∃ st' hints, kerneltimer_timeover par p_dynamic st = some (st', hints) ∧
        (ReturnDue (utils p_dynamic st) st →
          (st'.blk_start = st.blk_start + 1 ↔ SysOutweighs (utils p_dynamic st) st))) := by
  obtain ⟨st, log, hrun, hinv, -⟩ := run_inv par turn ps
  refine ⟨st, log, hrun, fun hturn p_dynamic => ?_⟩
  obtain ⟨st₁, hmove, hinv₁, -⟩ := moveBlk_spec (utils p_dynamic st) hinv
  refine ⟨{ st₁ with dynamic_turn := .net }, hintAll par .blk (blkCore st₁), ?_, fun hdue => ?_⟩
  · simp only [kerneltimer_timeover, hturn, hmove, Option.bind_eq_bind, Option.bind_some,
      hinv₁.redistributeBlk_eq]
    rfl
  · have hpos := hinv.divisors_pos (st.blk_start - NET_START - 1) (by simp [divisors])
    rw [moveBlk_of_due hinv hdue, Option.some_inj] at hmove
    rw [SysOutweighs, ← lt_tdiv_iff (hinv.blkAvg_nonneg hdue.high) hpos]
    subst hmove
    dsimp only
    split
    · rename_i hlt
      exact iff_of_true rfl hlt
    · rename_i hge
      exact iff_of_false (by omega) hge

/-- Block cores at 80 percent, net sys at 100. -/
def sysBusier (j : Int) : Int := if 16 ≤ j then 80 else if 13 ≤ j then 100 else 0

/-- At the start a core is to be given back under `sysBusier`, and is not:
300 by five is 60. -/
theorem single_keeps_blk_core :
    ¬ ∀ (par : Params) (ps : List (Int → Int)) (st : State) (log : List Hint),
      run par .blk ps = some (st, log) → st.dynamic_turn = .blk → ∀ p_dynamic st' hints,
        kerneltimer_timeover par p_dynamic st = some (st', hints) →
        ReturnDue (utils p_dynamic st) st → st'.blk_start = st.blk_start + 1 := by
  intro h
  have hvals : (kerneltimer_timeover .unset sysBusier init_simpleproc).map
      (fun t => t.1.blk_start) = some 16 := by decide
  obtain ⟨t, ht, hstart⟩ := Option.map_eq_some_iff.mp hvals
  have hmoved := h .unset [] init_simpleproc [] rfl rfl sysBusier t.1 t.2 ht
    ⟨by decide, by decide, by decide⟩
  rw [hstart] at hmoved
  cases hmoved

end CorePartitioning.KTimer.Single
