import CorePartitioning.KTimer.AppTransfer

/-!
# simple_proc — the APP partition over whole runs

The invariant of every run from `init_simpleproc`: a core in every group,
a constant number of cores, the two outer boundaries of the socket fixed,
and `app_end = blk_start + 1`. The last is not a partition at all: the
initial `app_end_per` (8 and 18) lies past the initial `blk_start_per` (7
and 17), and every branch moves the two together, so the overlap is never
repaired and travels with the block group up to the end of the socket.

Three consequences: the divisions are safe, the four groups are never
disjoint, and the tick reads outside the socket exactly when the block
group is down to one core.
-/

namespace CorePartitioning.KTimer.App

/-- The invariant of socket `s`. -/
structure Inv (s : Socket) (b : Bounds) : Prop where
  pos : AllPos b
  total : ∑ g, groupSize b g = ∑ g, groupSize (init_simpleproc s) g
  net_start : b.net_start = 10 * s
  blk_end : b.blk_end = 10 * s + 9
  overlap : b.app_end = b.blk_start + 1

theorem inv_init (s : Socket) : Inv s (init_simpleproc s) := by
  fin_cases s
  · exact ⟨by unfold AllPos; decide, rfl, rfl, rfl, rfl⟩
  · exact ⟨by unfold AllPos; decide, rfl, rfl, rfl, rfl⟩

/-- One tick keeps the invariant, whatever the utilisations. -/
theorem Inv.tick {par : Params} {p_dynamic : Int → Int} {per : Socket → Bounds}
    {ls : Socket → SocketLoad} {t : Tick} (h : TickSpec par p_dynamic per ls t)
    (hinv : ∀ s, Inv s (per s)) (s : Socket) : Inv s (t.per s) := by
  have hi := hinv s
  have hstep := (h.load s).step.1
  obtain ⟨hns, hbe, hdist⟩ :=
    moveBounds_frame (ls s) (selectMax (ls s)) (selectMin (ls s)) (per s)
  rw [← h.per_eq] at hstep hns hbe hdist
  have hover := hi.overlap
  refine ⟨hstep.one_le hi.pos, ?_, ?_, ?_, ?_⟩
  · rw [hstep.sum_eq, hi.total]
  · rw [hns, hi.net_start]
  · rw [hbe, hi.blk_end]
  · omega

/-- **Every run returns and keeps the invariant.** -/
theorem run_inv (par : Params) (ps : List (Int → Int)) :
    ∃ per log, run par ps = some (per, log) ∧ ∀ s, Inv s (per s) := by
  induction ps with
  | nil => exact ⟨_, _, rfl, inv_init⟩
  | cons p_dynamic ps ih =>
      obtain ⟨per, log, hrun, hinv⟩ := ih
      obtain ⟨ls, t, ht, hspec⟩ := tick_spec par p_dynamic (fun s => (hinv s).pos)
      exact ⟨t.per, log ++ t.hints, by simp [run, hrun, ht], Inv.tick hspec hinv⟩

/-! ## Group survival -/

/-- The four divisors of one socket's averages. -/
def divisors (p_dynamic : Int → Int) (b : Bounds) : List Int :=
  [(accumulate p_dynamic b.blk_start (b.blk_end + 1)).core_counter,
   (accumulate p_dynamic b.net_start (b.net_end + 1)).core_counter,
   (accumulate p_dynamic (b.net_end + 1) b.app_start).core_counter,
   (accumulate p_dynamic b.app_start (b.app_end + 1)).core_counter]

theorem AllPos.divisors_pos {b : Bounds} (h : AllPos b) (p_dynamic : Int → Int) :
    ∀ d ∈ divisors p_dynamic b, 1 ≤ d := by
  obtain ⟨hnet, hsys, happ, hblk⟩ := h.bounds
  intro d hd
  simp only [divisors, List.mem_cons, List.not_mem_nil, or_false] at hd
  rcases hd with rfl | rfl | rfl | rfl
  all_goals
    rw [accumulate_eq p_dynamic (by omega)]
    simp only
    omega

/-- **No group dies and no division traps.** After any number of ticks under
any utilisations each socket still has a core in every group and its
initial number of cores, the divisors of the next tick are positive, and
that tick returns. -/
theorem app_groups_survive (par : Params) (ps : List (Int → Int)) :
    ∃ per log, run par ps = some (per, log)
      ∧ (∀ s, (∀ g, 1 ≤ groupSize (per s) g)
          ∧ ∑ g, groupSize (per s) g = ∑ g, groupSize (init_simpleproc s) g)
      ∧ ∀ p_dynamic, (∀ s, ∀ d ∈ divisors p_dynamic (per s), d ≠ 0)
          ∧ ∃ t, kerneltimer_timeover par p_dynamic per = some t := by
  obtain ⟨per, log, hrun, hinv⟩ := run_inv par ps
  refine ⟨per, log, hrun, fun s => ⟨(hinv s).pos, (hinv s).total⟩, fun p_dynamic => ⟨?_, ?_⟩⟩
  · intro s d hd
    have hpos := (hinv s).pos.divisors_pos p_dynamic d hd
    omega
  · obtain ⟨-, t, ht, -⟩ := tick_spec par p_dynamic (fun s => (hinv s).pos)
    exact ⟨t, ht⟩

/-! ## Disjointness -/

/-- The cores of a group. -/
noncomputable def groupCores (b : Bounds) (g : Fin 4) : Finset Int :=
  Finset.Ico (groupLo b g) (groupHi b g)

/-- The four groups of a socket are pairwise disjoint. -/
def DisjointGroups (b : Bounds) : Prop :=
  Pairwise fun g g' => Disjoint (groupCores b g) (groupCores b g')

/-- A core in two groups. -/
theorem not_disjointGroups {b : Bounds} {g g' : Fin 4} {j : Int} (hne : g ≠ g')
    (h : groupLo b g ≤ j ∧ j < groupHi b g) (h' : groupLo b g' ≤ j ∧ j < groupHi b g') :
    ¬ DisjointGroups b := by
  intro hd
  exact Finset.disjoint_left.mp (hd hne) (Finset.mem_Ico.mpr h) (Finset.mem_Ico.mpr h')

/-- **The groups are disjoint in no reachable state, on no socket**: core
`blk_start` belongs to the block group and to the application group or,
when the application is down to one core, to net sys. -/
theorem app_groups_never_disjoint (par : Params) (ps : List (Int → Int)) :
    ∃ per log, run par ps = some (per, log) ∧ ∀ s, ¬ DisjointGroups (per s) := by
  obtain ⟨per, log, hrun, hinv⟩ := run_inv par ps
  refine ⟨per, log, hrun, fun s => ?_⟩
  obtain ⟨hnet, hsys, happ, hblk⟩ := (hinv s).pos.bounds
  have hover := (hinv s).overlap
  have hb : groupLo (per s) 3 ≤ (per s).blk_start ∧ (per s).blk_start < groupHi (per s) 3 := by
    simp only [groupLo, groupHi, Matrix.cons_val]
    omega
  by_cases hone : (per s).app_start ≤ (per s).blk_start
  · refine not_disjointGroups (show (2 : Fin 4) ≠ 3 by decide) ?_ hb
    simp only [groupLo, groupHi, Matrix.cons_val]
    omega
  · refine not_disjointGroups (show (1 : Fin 4) ≠ 3 by decide) ?_ hb
    simp only [groupLo, groupHi, Matrix.cons_val]
    omega

/-- The overlap is there before the first tick: cores 7 and 8 are
application cores and block cores. -/
theorem app_groups_overlap_at_init :
    ¬ ∀ (par : Params) (ps : List (Int → Int)) per log, run par ps = some (per, log) →
      ∀ s, DisjointGroups (per s) := by
  intro h
  have hd := h Params.unset [] init_simpleproc [] rfl 0
  exact not_disjointGroups (show (2 : Fin 4) ≠ 3 by decide)
    (show groupLo (init_simpleproc 0) 2 ≤ 7 ∧ 7 < groupHi (init_simpleproc 0) 2 by decide)
    (by decide) hd

/-! ## Index safety -/

/-- The reads of a tick on socket `s` stay in the socket's ten cores. -/
def ReadsInSocket (t : Tick) (s : Socket) : Prop :=
  ∀ j ∈ t.reads s, 10 * (s : Int) ≤ j ∧ j ≤ 10 * s + 9 ∧ j < MAX_CPUS

/-- **When the reads are safe**: in every run, a tick reads `p_dynamic` of
socket `s` only inside the socket's ten cores if and only if the socket's
block group has two cores or more when the tick starts. -/
theorem app_reads_in_socket_iff (par : Params) (ps : List (Int → Int)) (p_dynamic : Int → Int) :
    ∃ per log t, run par ps = some (per, log)
      ∧ kerneltimer_timeover par p_dynamic per = some t
      ∧ ∀ s, ReadsInSocket t s ↔ (per s).blk_start < (per s).blk_end := by
  obtain ⟨per, log, hrun, hinv⟩ := run_inv par ps
  obtain ⟨ls, t, ht, hspec⟩ := tick_spec par p_dynamic (fun s => (hinv s).pos)
  refine ⟨per, log, t, hrun, ht, fun s => ?_⟩
  obtain ⟨hnet, hsys, happ, hblk⟩ := (hinv s).pos.bounds
  have hns := (hinv s).net_start
  have hbe := (hinv s).blk_end
  have hover := (hinv s).overlap
  have hs2 : (s : Nat) < 2 := s.isLt
  have hreads : ∀ j, j ∈ t.reads s ↔ ((per s).blk_start ≤ j ∧ j < (per s).blk_end + 1)
      ∨ ((per s).net_start ≤ j ∧ j < (per s).net_end + 1)
      ∨ ((per s).net_end + 1 ≤ j ∧ j < (per s).app_start)
      ∨ ((per s).app_start ≤ j ∧ j < (per s).app_end + 1) := by
    intro j
    rw [hspec.reads_eq, (hspec.load s).reads]
    simp only [List.mem_append, Int.mem_range_iff, or_assoc]
  constructor
  · intro h
    -- the last application core is read
    have hlast := h (per s).app_end ((hreads _).mpr (.inr (.inr (.inr (by omega)))))
    omega
  · intro hlt j hj
    have hmax : (MAX_CPUS : Int) = 20 := rfl
    rcases (hreads j).mp hj with hj | hj | hj | hj <;> omega

/-- Net cores busy, block cores idle, on both sockets. -/
def blkIdle : Int → Int := fun j =>
  if j % 10 ≤ 1 then 100 else if j % 10 ≤ 6 then 50 else 0

/-- Two ticks under `blkIdle` bring the block groups down to one core; the
third reads `p_dynamic[10]` for socket 0 and `p_dynamic[20]`, past the end
of the array, for socket 1. -/
theorem app_reads_out_of_bounds :
    (∀ j, 0 ≤ blkIdle j ∧ blkIdle j ≤ 100)
      ∧ ∃ per log t, run Params.unset [blkIdle, blkIdle] = some (per, log)
        ∧ kerneltimer_timeover Params.unset blkIdle per = some t
        ∧ 10 ∈ t.reads 0 ∧ 20 ∈ t.reads 1
        ∧ ¬ ReadsInSocket t 0 ∧ ¬ ReadsInSocket t 1 := by
  refine ⟨fun j => ?_, ?_⟩
  · unfold blkIdle
    split_ifs <;> decide
  · obtain ⟨per, log, hrun, hinv⟩ := run_inv Params.unset [blkIdle, blkIdle]
    obtain ⟨ls, t, ht, -⟩ := tick_spec Params.unset blkIdle (fun s => (hinv s).pos)
    have hreads : (run Params.unset [blkIdle, blkIdle]).bind
        (fun r => (kerneltimer_timeover Params.unset blkIdle r.1).map
          fun t => (t.reads 0, t.reads 1))
        = some ([9, 0, 1, 2, 3, 4, 5, 6, 7, 8, 9, 10],
          [19, 10, 11, 12, 13, 14, 15, 16, 17, 18, 19, 20]) := by decide
    rw [hrun, Option.bind_some, ht, Option.map_some, Option.some_inj, Prod.mk.injEq] at hreads
    have h0 : 10 ∈ t.reads 0 := by simp [hreads.1]
    have h1 : 20 ∈ t.reads 1 := by simp [hreads.2]
    refine ⟨per, log, t, hrun, ht, h0, h1, ?_, ?_⟩
    · intro h
      have := h 10 h0
      simp at this
    · intro h
      have := h 20 h1
      simp at this

end CorePartitioning.KTimer.App
