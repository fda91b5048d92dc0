import CorePartitioning.KTimer.Placement
import CorePartitioning.Lib.Ticks

/-!
# simple_proc — the SINGLE tick

`kerneltimer_timeover` under `#define SINGLE`. One socket, cores
`NET_START` to `BLK_END`, and two boundaries: net queues up to `net_end`,
block queues from `blk_start`, net sys between them. The turns alternate;
each moves its boundary and then redistributes its queues.

The partition invariant is the gap of two cores in the middle. The block
turn never touches `net_end`. The net turn touches `blk_start` in one
branch, `MovesBoth`, and that is where block queues are left behind.
-/

namespace CorePartitioning.KTimer.Single

/-- The globals that a tick reads and leaves behind. -/
structure State where
  blk_start : Int
  net_end : Int
  dynamic_turn : Turn
  deriving DecidableEq

def init_simpleproc : State := { blk_start := 16, net_end := 12, dynamic_turn := .blk }

structure Utils where
  blk_queue_util : Int
  net_queue_util : Int
  net_sys_util : Int

/-- The three loops over `p_dynamic`. -/
def utils (p_dynamic : Int → Int) (st : State) : Utils where
  blk_queue_util := (accumulate p_dynamic st.blk_start (BLK_END + 1)).util
  net_queue_util := (accumulate p_dynamic NET_START (st.net_end + 1)).util
  net_sys_util := (accumulate p_dynamic (st.net_end + 1) st.blk_start).util

/-! ## The turns -/

/-- The moves of the turn for blk. -/
def moveBlk (u : Utils) (st : State) : Option State := do
  if u.blk_queue_util > T_HIGH * (BLK_END - st.blk_start + 1) then
    let blk ← cdiv u.blk_queue_util (BLK_END - st.blk_start + 1)
    let sys ← cdiv u.net_sys_util (st.blk_start - st.net_end - 1)
    if blk > sys then
      if st.blk_start - st.net_end > 3 then
        return { st with blk_start := st.blk_start - 1 }
      else return st
    else
      -- the divisor has `NET_START` here, not `net_end`
      let sys ← cdiv u.net_sys_util (st.blk_start - NET_START - 1)
      if blk < sys then
        if st.blk_start ≠ BLK_END then
          return { st with blk_start := st.blk_start + 1 }
        else return st
      else return st
  else if u.blk_queue_util < T_LOW * (BLK_END - st.blk_start + 1) ∧ BLK_END ≠ st.blk_start then
    return { st with blk_start := st.blk_start + 1 }
  else return st

/-- The moves of the turn for net irq. -/
def moveNet (u : Utils) (st : State) : Option State := do
  if u.net_queue_util > T_HIGH * (st.net_end - NET_START + 1) then
    let net ← cdiv u.net_queue_util (st.net_end - NET_START + 1)
    let sys ← cdiv u.net_sys_util (st.blk_start - st.net_end - 1)
    if net > sys then
      if st.blk_start - st.net_end > 3 then
        return { st with net_end := st.net_end + 1 }
      else
        let blk ← cdiv u.blk_queue_util (BLK_END - st.blk_start + 1)
        if sys > blk then
          if BLK_END ≠ st.blk_start then
            return { st with blk_start := st.blk_start + 1, net_end := st.net_end + 1 }
          else return st
        else return st
    else if net < sys then
      if NET_START ≠ st.net_end then
        return { st with net_end := st.net_end - 1 }
      else return st
    else return st
  else if u.net_queue_util < T_LOW * (st.net_end - NET_START + 1) then
    let net ← cdiv u.net_queue_util (st.net_end - NET_START + 1)
    let sys ← cdiv u.net_sys_util (st.blk_start - st.net_end - 1)
    if net < sys then
      if NET_START ≠ st.net_end then
        return { st with net_end := st.net_end - 1 }
      else return st
    else return st
  else return st

def redistributeBlk (par : Params) (st : State) : Option (List Hint) :=
  (List.finRange BLK_QUEUES).mapM fun (j : Fin BLK_QUEUES) => do
    let core ← cmod (j : Nat) (BLK_END - st.blk_start + 1)
    return { queue := .blk j, irq := par.irq_blk j, core := core + st.blk_start }

def redistributeNet (par : Params) (st : State) : Option (List Hint) :=
  (List.finRange NET_QUEUES).mapM fun (j : Fin NET_QUEUES) => do
    let core ← cmod (j : Nat) (st.net_end - NET_START + 1)
    return { queue := .net j, irq := par.irq_net j, core := core + NET_START }

/-- `kerneltimer_timeover` in SINGLE mode: the state it leaves and the hints
it gives; `none` is a division by zero. -/
def kerneltimer_timeover (par : Params) (p_dynamic : Int → Int) (st : State) :
    Option (State × List Hint) := do
  let u := utils p_dynamic st
  match st.dynamic_turn with
  | .blk =>
      let st ← moveBlk u st
      let hints ← redistributeBlk par st
      return ({ st with dynamic_turn := .net }, hints)
  | .net =>
      let st ← moveNet u st
      let hints ← redistributeNet par st
      return ({ st with dynamic_turn := .blk }, hints)

/-- Ticks from the boundaries of `init_simpleproc`, with `turn` first. -/
def run (par : Params) (turn : Turn) :
    List (Int → Int) → Option (State × List Hint) :=
  Ticks.run (kerneltimer_timeover par) { init_simpleproc with dynamic_turn := turn }

/-! ## The invariant -/

structure Inv (st : State) : Prop where
  net : NET_START ≤ st.net_end
  gap : st.net_end + 3 ≤ st.blk_start
  blk : st.blk_start ≤ BLK_END

/-- With the macros' values. -/
theorem inv_iff {st : State} :
    Inv st ↔ 10 ≤ st.net_end ∧ st.net_end + 3 ≤ st.blk_start ∧ st.blk_start ≤ 19 := by
  constructor
  · rintro ⟨hnet, hgap, hblk⟩
    exact ⟨hnet, hgap, hblk⟩
  · rintro ⟨hnet, hgap, hblk⟩
    exact ⟨hnet, hgap, hblk⟩

theorem Inv.withTurn {st : State} (h : Inv st) (turn : Turn) :
    Inv { st with dynamic_turn := turn } := ⟨h.net, h.gap, h.blk⟩

theorem inv_init (turn : Turn) : Inv { init_simpleproc with dynamic_turn := turn } := by
  rw [inv_iff]
  show (10 : Int) ≤ 12 ∧ (12 : Int) + 3 ≤ 16 ∧ (16 : Int) ≤ 19
  decide

/-- The divisors of a tick. -/
def divisors (st : State) : List Int :=
  [BLK_END - st.blk_start + 1, st.net_end - NET_START + 1, st.blk_start - st.net_end - 1,
   st.blk_start - NET_START - 1]

theorem Inv.divisors_pos {st : State} (h : Inv st) : ∀ d ∈ divisors st, 0 < d := by
  rw [inv_iff] at h
  intro d hd
  simp only [divisors, NET_START, BLK_END, List.mem_cons, List.not_mem_nil, or_false] at hd
  rcases hd with rfl | rfl | rfl | rfl <;> omega

/-- The averages the branches compare. -/
def blkAvg (u : Utils) (st : State) : Int := u.blk_queue_util.tdiv (BLK_END - st.blk_start + 1)

def netAvg (u : Utils) (st : State) : Int := u.net_queue_util.tdiv (st.net_end - NET_START + 1)

def sysAvg (u : Utils) (st : State) : Int := u.net_sys_util.tdiv (st.blk_start - st.net_end - 1)

/-- The branch of the turn for net irq that moves both boundaries: the net
queues are the busiest, and the middle group, already minimal, is busier
than the block queues. -/
def MovesBoth (u : Utils) (st : State) : Prop :=
  T_HIGH * (st.net_end - NET_START + 1) < u.net_queue_util ∧ sysAvg u st < netAvg u st ∧
    st.blk_start - st.net_end ≤ 3 ∧ blkAvg u st < sysAvg u st ∧ st.blk_start ≠ BLK_END

section Moves

variable {u : Utils} {st : State}

theorem Inv.cdiv_eq (h : Inv st) (x : Int) {d : Int} (hd : d ∈ divisors st) :
    cdiv x d = some (x.tdiv d) := by
  have hpos := h.divisors_pos d hd
  exact cdiv_eq_some (by omega)

/-- The turn for blk keeps the invariant and `net_end`. -/
theorem moveBlk_spec (u : Utils) (h : Inv st) :
    ∃ st', moveBlk u st = some st' ∧ Inv st' ∧ st'.net_end = st.net_end := by
  have hblk := fun x => h.cdiv_eq x (d := BLK_END - st.blk_start + 1) (by simp [divisors])
  have hsys := fun x => h.cdiv_eq x (d := st.blk_start - st.net_end - 1) (by simp [divisors])
  have hstart := fun x => h.cdiv_eq x (d := st.blk_start - NET_START - 1) (by simp [divisors])
  rw [inv_iff] at h
  simp only [moveBlk, hblk, hsys, hstart, Option.bind_eq_bind, Option.bind_some]
  simp only [NET_START, BLK_END, T_HIGH, T_LOW]
  split_ifs
  all_goals
    refine ⟨_, rfl, inv_iff.mpr ?_, rfl⟩
    dsimp -failIfUnchanged only
    omega

/-- The turn for net irq keeps the invariant, and moves `blk_start` in
`MovesBoth` and nowhere else. -/
theorem moveNet_spec (u : Utils) (h : Inv st) :
    ∃ st', moveNet u st = some st' ∧ Inv st' ∧
      (MovesBoth u st → st'.blk_start = st.blk_start + 1) ∧
      (¬ MovesBoth u st → st'.blk_start = st.blk_start) := by
  have hblk := fun x => h.cdiv_eq x (d := BLK_END - st.blk_start + 1) (by simp [divisors])
  have hnet := fun x => h.cdiv_eq x (d := st.net_end - NET_START + 1) (by simp [divisors])
  have hsys := fun x => h.cdiv_eq x (d := st.blk_start - st.net_end - 1) (by simp [divisors])
  rw [inv_iff] at h
  simp only [moveNet, hblk, hnet, hsys, Option.bind_eq_bind, Option.bind_some]
  simp only [MovesBoth, blkAvg, netAvg, sysAvg, NET_START, BLK_END, T_HIGH, T_LOW]
  split_ifs
  all_goals
    refine ⟨_, rfl, inv_iff.mpr ?_, ?_, ?_⟩
    all_goals
      dsimp -failIfUnchanged only
      omega

end Moves

/-! ## The tick -/

/-- The core of block queue `j`. -/
def blkCore (st : State) (j : Fin BLK_QUEUES) : Int :=
  (j : Int).tmod (BLK_END - st.blk_start + 1) + st.blk_start

def netCore (st : State) (j : Fin NET_QUEUES) : Int :=
  (j : Int).tmod (st.net_end - NET_START + 1) + NET_START

section Tick

variable {st : State}

theorem Inv.redistributeBlk_eq (h : Inv st) (par : Params) :
    redistributeBlk par st = some (hintAll par .blk (blkCore st)) := by
  have hpos := h.divisors_pos (BLK_END - st.blk_start + 1) (by simp [divisors])
  have hmod := fun x => cmod_eq_some (a := x) hpos.ne'
  simp only [redistributeBlk, hmod, Option.bind_eq_bind, Option.bind_some]
  exact List.mapM_pure

theorem Inv.redistributeNet_eq (h : Inv st) (par : Params) :
    redistributeNet par st = some (hintAll par .net (netCore st)) := by
  have hpos := h.divisors_pos (st.net_end - NET_START + 1) (by simp [divisors])
  have hmod := fun x => cmod_eq_some (a := x) hpos.ne'
  simp only [redistributeNet, hmod, Option.bind_eq_bind, Option.bind_some]
  exact List.mapM_pure

/-- The block redistribution stays in the block range. -/
theorem Inv.blkCore_mem (h : Inv st) (j : Fin BLK_QUEUES) :
    st.blk_start ≤ blkCore st j ∧ blkCore st j ≤ BLK_END := by
  have hpos := h.divisors_pos (BLK_END - st.blk_start + 1) (by simp [divisors])
  have hlo := Int.tmod_nonneg (BLK_END - st.blk_start + 1) (Int.natCast_nonneg (j : Nat))
  have hhi := Int.tmod_lt_of_pos (j : Int) hpos
  unfold blkCore
  omega

theorem Inv.netCore_mem (h : Inv st) (j : Fin NET_QUEUES) :
    NET_START ≤ netCore st j ∧ netCore st j ≤ st.net_end := by
  have hpos := h.divisors_pos (st.net_end - NET_START + 1) (by simp [divisors])
  have hlo := Int.tmod_nonneg (st.net_end - NET_START + 1) (Int.natCast_nonneg (j : Nat))
  have hhi := Int.tmod_lt_of_pos (j : Int) hpos
  unfold netCore
  omega

/-- What a tick does in its turn for blk. -/
structure BlkTick (par : Params) (st st' : State) (hints : List Hint) : Prop where
  inv : Inv st'
  turn : st'.dynamic_turn = .net
  net_end : st'.net_end = st.net_end
  hints : hints = hintAll par .blk (blkCore st')

/-- What it does in its turn for net irq. -/
structure NetTick (par : Params) (u : Utils) (st st' : State) (hints : List Hint) : Prop where
  inv : Inv st'
  turn : st'.dynamic_turn = .blk
  moved : MovesBoth u st → st'.blk_start = st.blk_start + 1
  stayed : ¬ MovesBoth u st → st'.blk_start = st.blk_start
  hints : hints = hintAll par .net (netCore st')

theorem tick_blk (par : Params) (p_dynamic : Int → Int) (h : Inv st)
    (hturn : st.dynamic_turn = .blk) :
    ∃ st' hints, kerneltimer_timeover par p_dynamic st = some (st', hints) ∧
      BlkTick par st st' hints := by
  obtain ⟨st₁, hmove, hinv, hend⟩ := moveBlk_spec (utils p_dynamic st) h
  refine ⟨{ st₁ with dynamic_turn := .net }, _, ?_, ⟨hinv.withTurn _, rfl, hend, rfl⟩⟩
  simp only [kerneltimer_timeover, hturn, hmove, Option.bind_eq_bind, Option.bind_some,
    hinv.redistributeBlk_eq]
  rfl

theorem tick_net (par : Params) (p_dynamic : Int → Int) (h : Inv st)
    (hturn : st.dynamic_turn = .net) :
    ∃ st' hints, kerneltimer_timeover par p_dynamic st = some (st', hints) ∧
      NetTick par (utils p_dynamic st) st st' hints := by
  obtain ⟨st₁, hmove, hinv, hmoved, hstayed⟩ := moveNet_spec (utils p_dynamic st) h
  refine ⟨{ st₁ with dynamic_turn := .blk }, _, ?_,
    ⟨hinv.withTurn _, rfl, hmoved, hstayed, rfl⟩⟩
  simp only [kerneltimer_timeover, hturn, hmove, Option.bind_eq_bind, Option.bind_some,
    hinv.redistributeNet_eq]
  rfl

end Tick

/-! ## Whole runs -/

/-- The hints of a tick stay in the socket. -/
theorem hintAll_mem {par : Params} {n : Nat} {queue : Fin n → Queue} {core : Fin n → Int}
    (hcore : ∀ j, NET_START ≤ core j ∧ core j ≤ BLK_END) :
    ∀ h ∈ hintAll par queue core, NET_START ≤ h.core ∧ h.core ≤ BLK_END := by
  intro h hh
  obtain ⟨j, -, rfl⟩ := List.mem_map.mp hh
  exact hcore j

/-- One tick from a state with the invariant. -/
theorem tick_inv (par : Params) (p_dynamic : Int → Int) {st : State} (h : Inv st) :
    ∃ st' hints, kerneltimer_timeover par p_dynamic st = some (st', hints) ∧ Inv st' ∧
      ∀ h ∈ hints, NET_START ≤ h.core ∧ h.core ≤ BLK_END := by
  cases hturn : st.dynamic_turn with
  | blk =>
      obtain ⟨st', hints, htick, hspec⟩ := tick_blk par p_dynamic h hturn
      refine ⟨st', hints, htick, hspec.inv, ?_⟩
      rw [hspec.hints]
      refine hintAll_mem fun j => ?_
      obtain ⟨hlo, hhi⟩ := hspec.inv.blkCore_mem j
      have hinv := inv_iff.mp hspec.inv
      exact ⟨by simp only [NET_START]; omega, hhi⟩
  | net =>
      obtain ⟨st', hints, htick, hspec⟩ := tick_net par p_dynamic h hturn
      refine ⟨st', hints, htick, hspec.inv, ?_⟩
      rw [hspec.hints]
      refine hintAll_mem fun j => ?_
      obtain ⟨hlo, hhi⟩ := hspec.inv.netCore_mem j
      have hinv := inv_iff.mp hspec.inv
      exact ⟨hlo, by simp only [BLK_END]; omega⟩

/-- Every run returns and keeps the invariant. -/
theorem run_inv (par : Params) (turn : Turn) (ps : List (Int → Int)) :
    ∃ st log, run par turn ps = some (st, log) ∧ Inv st ∧
      ∀ h ∈ log, NET_START ≤ h.core ∧ h.core ≤ BLK_END := by
  refine Ticks.run_invariant
    (P := fun _ st (log : List Hint) => Inv st ∧ ∀ h ∈ log, NET_START ≤ h.core ∧ h.core ≤ BLK_END)
    ⟨inv_init turn, by simp⟩ ?_ ps
  rintro p_dynamic - st log ⟨hinv, hlog⟩
  obtain ⟨st', hints, htick, hinv', hhints⟩ := tick_inv par p_dynamic hinv
  refine ⟨st', hints, htick, hinv', fun h hh => ?_⟩
  rcases List.mem_append.mp hh with hold | hnew
  · exact hlog h hold
  · exact hhints h hnew

/-- **The SINGLE partition holds up.** After any number of ticks under any
utilisations, whichever turn was first, each group has its cores, every hint
so far named a core of the socket, the divisors of the next tick are
positive, and that tick returns. -/
theorem single_partition_invariant (par : Params) (turn : Turn) (ps : List (Int → Int)) :
    ∃ st log, run par turn ps = some (st, log) ∧ Inv st ∧ (∀ d ∈ divisors st, 0 < d) ∧
      (∀ h ∈ log, NET_START ≤ h.core ∧ h.core ≤ BLK_END) ∧
      ∀ p_dynamic, ∃ t, kerneltimer_timeover par p_dynamic st = some t := by
  obtain ⟨st, log, hrun, hinv, hlog⟩ := run_inv par turn ps
  refine ⟨st, log, hrun, hinv, hinv.divisors_pos, hlog, fun p_dynamic => ?_⟩
  obtain ⟨st', hints, htick, -, -⟩ := tick_inv par p_dynamic hinv
  exact ⟨_, htick⟩

end CorePartitioning.KTimer.Single
