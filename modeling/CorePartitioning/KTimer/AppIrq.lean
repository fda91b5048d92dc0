import CorePartitioning.KTimer.AppPartition

/-!
# simple_proc — IRQ hints in APP mode

What the two redistributions of the APP tick do to the interrupt
affinities over whole runs. The net hints follow the net ranges: every
branch that moves `net_end` has the net group as receiver or donor, which
is what sets `net_flag`. The block hints follow nothing: `blk_flag` is
compared with 4, one past `BLK_INDEX`, and is never set.
-/

namespace CorePartitioning.KTimer.App

/-! ## The net redistribution -/

/-- The net-queue cores: the range of socket `NUMBER_OF_SOCKETS - 1`,
followed by those of the lower sockets. -/
def netCores (per : Socket → Bounds) : List Int :=
  Int.range (per (socketAt 0)).net_start ((per (socketAt 0)).net_end + 1)
    ++ Int.range (per (socketAt 1)).net_start ((per (socketAt 1)).net_end + 1)

theorem netCores_eq_concat (per : Socket → Bounds) :
    netCores per = RoundRobin.concat (fun k => (per (socketAt k)).net_start)
      (fun k => (per (socketAt k)).net_end) NUMBER_OF_SOCKETS := by
  simp [netCores, RoundRobin.concat, List.range_succ]

theorem net_le {per : Socket → Bounds} (h : ∀ s, AllPos (per s)) :
    ∀ k < NUMBER_OF_SOCKETS,
      (per (socketAt k)).net_start ≤ (per (socketAt k)).net_end := by
  intro k _
  exact (h (socketAt k)).bounds.1

/-- Hint `j` of a net redistribution: queue `j`, its IRQ, and the core
`j mod N` of the net ranges. -/
theorem getElem?_redistributeNet (par : Params) {per : Socket → Bounds}
    (h : ∀ s, AllPos (per s)) (j : Fin NET_QUEUES) :
    ∃ core, (netCores per)[(j : Nat) % (netCores per).length]? = some core
      ∧ (redistributeNet par per NUMBER_OF_SOCKETS)[(j : Nat)]?
        = some ⟨.net j, par.irq_net j, core⟩ := by
  have hwalk := RoundRobin.getElem?_walk (net_le h) (by decide) j.isLt
  rw [← netCores_eq_concat] at hwalk
  have hlen : 0 < (netCores per).length := by
    have hnet := (h (socketAt 0)).bounds.1
    rw [netCores, List.length_append, IntRange.length_range]
    omega
  have hmod := Nat.mod_lt (j : Nat) hlen
  refine ⟨(netCores per)[(j : Nat) % (netCores per).length], List.getElem?_eq_getElem hmod, ?_⟩
  rw [List.getElem?_eq_getElem hmod] at hwalk
  rw [redistributeNet, List.getElem?_zipWith]
  unfold RoundRobin.atEnd at hwalk
  rw [hwalk]
  simp

/-- Every hint of a net redistribution has the shape above. -/
theorem redistributeNet_shape {par : Params} {per : Socket → Bounds}
    (h : ∀ s, AllPos (per s)) {i : Nat} {hint : Hint}
    (hi : (redistributeNet par per NUMBER_OF_SOCKETS)[i]? = some hint) :
    ∃ j : Fin NET_QUEUES, (j : Nat) = i ∧ hint.queue = .net j ∧ hint.irq = par.irq_net j
      ∧ hint.core ∈ netCores per := by
  have hlt : i < NET_QUEUES := by
    have hb := (List.getElem?_eq_some_iff.mp hi).1
    simpa [redistributeNet] using hb
  obtain ⟨core, hcore, hget⟩ := getElem?_redistributeNet par h ⟨i, hlt⟩
  rw [hget, Option.some_inj] at hi
  subst hi
  exact ⟨⟨i, hlt⟩, rfl, rfl, rfl, List.mem_of_getElem? hcore⟩

/-! ## The flags -/

/-- Only a selection of the net group moves `net_end`. -/
theorem moveBounds_net_end {l : SocketLoad} {max min : Nat} (hmax : max ≠ 0) (hmin : min ≠ 0)
    (b : Bounds) : (moveBounds l max min b).net_end = b.net_end := by
  unfold moveBounds
  dsimp only
  rw [if_neg hmax]
  split_ifs <;> rfl

/-- A tick without a net redistribution leaves the net ranges alone. -/
theorem TickSpec.netCores_eq {par : Params} {p_dynamic : Int → Int} {per : Socket → Bounds}
    {ls : Socket → SocketLoad} {t : Tick} (h : TickSpec par p_dynamic per ls t)
    (hsel : ∀ s, netSelected (ls s) = false) :
    netCores t.per = netCores per ∧ ∀ s, (t.per s).net_end = (per s).net_end := by
  have hend : ∀ s, (t.per s).net_end = (per s).net_end := by
    intro s
    have hs := hsel s
    simp only [netSelected, Bool.or_eq_false_iff, beq_eq_false_iff_ne] at hs
    rw [h.per_eq]
    exact moveBounds_net_end hs.1 hs.2 _
  have hstart : ∀ s, (t.per s).net_start = (per s).net_start := by
    intro s
    rw [h.per_eq]
    exact (moveBounds_frame ..).net_start
  exact ⟨by simp [netCores, hend, hstart], hend⟩

/-- The hints of a tick: none, or one net redistribution over the new
ranges. In the first case no net group was selected. -/
theorem TickSpec.hints_cases {par : Params} {p_dynamic : Int → Int} {per : Socket → Bounds}
    {ls : Socket → SocketLoad} {t : Tick} (h : TickSpec par p_dynamic per ls t) :
    (t.hints = [] ∧ ∀ s, netSelected (ls s) = false)
      ∨ t.hints = redistributeNet par t.per NUMBER_OF_SOCKETS := by
  have hh := h.hints_eq
  cases hsel : netSelected (ls 1) || netSelected (ls 0) with
  | true =>
      rw [hsel, if_pos rfl] at hh
      exact .inr hh
  | false =>
      rw [hsel, if_neg (by simp)] at hh
      rw [Bool.or_eq_false_iff] at hsel
      refine .inl ⟨hh, fun s => ?_⟩
      fin_cases s
      · exact hsel.2
      · exact hsel.1

/-! ## Net freshness -/

/-- No net redistribution so far, and the net ranges are the initial ones. -/
def NetUntouched (per : Socket → Bounds) (log : List Hint) : Prop :=
  (∀ h ∈ log, ∀ j, h.queue ≠ .net j) ∧ ∀ s, (per s).net_end = (init_simpleproc s).net_end

/-- The last hint of every net queue is its round-robin core of the current
net ranges; and so is the last hint of its IRQ number, when no later queue
has the same number. -/
def NetFresh (par : Params) (per : Socket → Bounds) (log : List Hint) : Prop :=
  ∀ j : Fin NET_QUEUES, ∃ core,
    (netCores per)[(j : Nat) % (netCores per).length]? = some core
    ∧ lastQueueHint log (.net j) = some core
    ∧ ((∀ j', j < j' → par.irq_net j' ≠ par.irq_net j) →
        lastIrqHint log (par.irq_net j) = some core)

/-- A redistribution makes the hints fresh, whatever was hinted before. -/
theorem netFresh_redistribute (par : Params) {per : Socket → Bounds} (h : ∀ s, AllPos (per s))
    (log : List Hint) :
    NetFresh par per (log ++ redistributeNet par per NUMBER_OF_SOCKETS) := by
  intro j
  obtain ⟨core, hcore, hget⟩ := getElem?_redistributeNet par h j
  refine ⟨core, hcore, lastCore_append hget (by simp) ?_, fun hlast => ?_⟩
  · intro i h' hi hi'
    obtain ⟨j', hj', hq, -, -⟩ := redistributeNet_shape h hi'
    have hne : j' ≠ j := by
      rintro rfl
      omega
    simp [hq, hne]
  · refine lastCore_append hget (by simp) ?_
    intro i h' hi hi'
    obtain ⟨j', hj', -, hirq, -⟩ := redistributeNet_shape h hi'
    have hne := hlast j' (Fin.lt_def.mpr (by omega))
    simp [hirq, hne]

/-- **Net IRQs stay fresh.** After every tick of every run, either nothing
has happened to the net side yet, or each net queue's last hint is the
`(j mod N)`-th core of the current net ranges. -/
theorem app_net_irqs_fresh (par : Params) (ps : List (Int → Int)) :
    ∃ per log, run par ps = some (per, log)
      ∧ (NetUntouched per log ∨ NetFresh par per log) := by
  suffices hmain : ∃ per log, run par ps = some (per, log) ∧ (∀ s, Inv s (per s))
      ∧ (NetUntouched per log ∨ NetFresh par per log) by
    obtain ⟨per, log, hrun, -, hnet⟩ := hmain
    exact ⟨per, log, hrun, hnet⟩
  induction ps with
  | nil => exact ⟨_, _, rfl, inv_init, .inl ⟨by simp, fun _ => rfl⟩⟩
  | cons p_dynamic ps ih =>
      obtain ⟨per, log, hrun, hinv, hnet⟩ := ih
      obtain ⟨ls, t, ht, hspec⟩ := tick_spec par p_dynamic (fun s => (hinv s).pos)
      have hinv' := Inv.tick hspec hinv
      refine ⟨t.per, log ++ t.hints, by simp [run, hrun, ht], hinv', ?_⟩
      rcases hspec.hints_cases with ⟨hnone, hsel⟩ | hredist
      · obtain ⟨hcores, hend⟩ := hspec.netCores_eq hsel
        rw [hnone, List.append_nil]
        rcases hnet with ⟨hlog, hinit⟩ | hfresh
        · exact .inl ⟨hlog, fun s => (hend s).trans (hinit s)⟩
        · refine .inr fun j => ?_
          rw [hcores]
          exact hfresh j
      · rw [hredist]
        exact .inr (netFresh_redistribute par (fun s => (hinv' s).pos) log)

/-! ## Block freshness -/

/-- Every block IRQ was hinted by the tick to a core of a current block
range. -/
def BlkFresh (par : Params) (t : Tick) : Prop :=
  ∀ j, ∃ h ∈ t.hints, h.irq = par.irq_blk j
    ∧ ∃ s, (t.per s).blk_start ≤ h.core ∧ h.core ≤ (t.per s).blk_end

/-- A net core is in no block range. -/
theorem not_blk_of_mem_netCores {per : Socket → Bounds} (hinv : ∀ s, Inv s (per s)) {core : Int}
    (hcore : core ∈ netCores per) (s : Socket) :
    ¬ ((per s).blk_start ≤ core ∧ core ≤ (per s).blk_end) := by
  obtain ⟨s', hlo, hhi⟩ : ∃ s', (per s').net_start ≤ core ∧ core ≤ (per s').net_end := by
    simp only [netCores, List.mem_append, Int.mem_range_iff] at hcore
    rcases hcore with h | h
    · exact ⟨socketAt 0, by omega⟩
    · exact ⟨socketAt 1, by omega⟩
  intro hblk
  obtain ⟨-, hsys, happ, hb⟩ := (hinv s).pos.bounds
  obtain ⟨-, hsys', happ', hb'⟩ := (hinv s').pos.bounds
  have hi := hinv s
  have hi' := hinv s'
  have h1 := hi.overlap
  have h2 := hi.blk_end
  have h3 := hi.net_start
  have h1' := hi'.overlap
  have h2' := hi'.blk_end
  have h3' := hi'.net_start
  have hnet := hi.pos.bounds.1
  by_cases hss : s = s'
  · subst hss
    omega
  · have hne : (s : Nat) ≠ s' := fun h => hss (Fin.ext h)
    omega

/-- A transfer with the block group as receiver or donor is due on the
socket. -/
def BlkTransferDue (p_dynamic : Int → Int) (b : Bounds) : Prop :=
  ∃ r d : Fin 4, Transfer.Fires T_CHANGE (groupAvg p_dynamic b) (groupSize b) r d
    ∧ ((r : Nat) = BLK_INDEX ∨ (d : Nat) = BLK_INDEX)

/-- `blk_start` moves exactly with a transfer of the block group. -/
theorem LoadSpec.blk_start_moved_iff {p_dynamic : Int → Int} {b : Bounds} {l : SocketLoad}
    (hl : LoadSpec p_dynamic b l) :
    (moveBounds l (selectMax l) (selectMin l) b).blk_start ≠ b.blk_start
      ↔ BlkTransferDue p_dynamic b := by
  have hbe := (moveBounds_frame l (selectMax l) (selectMin l) b).blk_end
  obtain ⟨hstep, hstay⟩ := hl.step
  obtain ⟨b', hb'⟩ : ∃ b', b' = moveBounds l (selectMax l) (selectMin l) b := ⟨_, rfl⟩
  rw [← hb'] at hbe hstep hstay ⊢
  have hsize : groupSize b' 3 - groupSize b 3 = b.blk_start - b'.blk_start := by
    simp only [groupSize, Matrix.cons_val, hbe]
    omega
  constructor
  · intro hmoved
    by_contra hno
    have hkeep : groupSize b' 3 = groupSize b 3 := by
      by_cases hf : ∃ r d, Transfer.Fires T_CHANGE (groupAvg p_dynamic b) (groupSize b) r d
      · obtain ⟨r, d, hf⟩ := hf
        rw [hstep.unique (.moved hf)]
        refine Transfer.move_other ?_ ?_
        · rintro rfl
          exact hno ⟨3, d, hf, .inl rfl⟩
        · rintro rfl
          exact hno ⟨r, 3, hf, .inr rfl⟩
      · rw [hstay (fun r d h => hf ⟨r, d, h⟩)]
    omega
  · rintro ⟨r, d, hf, hblk⟩
    have hmove : groupSize b' = Transfer.move (groupSize b) r d := hstep.unique (.moved hf)
    rcases hblk with hr | hd
    · have hr3 : r = 3 := Fin.ext hr
      subst hr3
      rw [hmove, Transfer.move_receiver] at hsize
      omega
    · have hd3 : d = 3 := Fin.ext hd
      subst hd3
      rw [hmove, Transfer.move_donor hf.donor.ne] at hsize
      omega

/-- **Block IRQs are never refreshed.** In no run does a tick hint a block
queue or leave the block IRQs fresh, so "a tick that moves a `blk_start`
refreshes the block IRQs" is true of a tick exactly when no transfer of a
block group is due in it. -/
theorem app_blk_irqs_fresh_iff (par : Params) (ps : List (Int → Int)) (p_dynamic : Int → Int) :
    ∃ per log t, run par ps = some (per, log)
      ∧ kerneltimer_timeover par p_dynamic per = some t
      ∧ (∀ h ∈ t.hints, ∀ j, h.queue ≠ .blk j)
      ∧ ¬ BlkFresh par t
      ∧ (((∃ s, (t.per s).blk_start ≠ (per s).blk_start) → BlkFresh par t)
          ↔ ∀ s, ¬ BlkTransferDue p_dynamic (per s)) := by
  obtain ⟨per, log, hrun, hinv⟩ := run_inv par ps
  obtain ⟨ls, t, ht, hspec⟩ := tick_spec par p_dynamic (fun s => (hinv s).pos)
  have hinv' := Inv.tick hspec hinv
  have hshape : ∀ h ∈ t.hints, (∀ j, h.queue ≠ .blk j) ∧ h.core ∈ netCores t.per := by
    intro h hh
    rcases hspec.hints_cases with ⟨hnone, -⟩ | hredist
    · simp [hnone] at hh
    · rw [hredist] at hh
      obtain ⟨i, hi⟩ := List.getElem?_of_mem hh
      obtain ⟨j, -, hq, -, hcore⟩ := redistributeNet_shape (fun s => (hinv' s).pos) hi
      exact ⟨by simp [hq], hcore⟩
  have hstale : ¬ BlkFresh par t := by
    intro hfresh
    obtain ⟨h, hh, -, s, hlo, hhi⟩ := hfresh ⟨0, by decide⟩
    exact not_blk_of_mem_netCores hinv' (hshape h hh).2 s ⟨hlo, hhi⟩
  have hmoved : ∀ s, (t.per s).blk_start ≠ (per s).blk_start
      ↔ BlkTransferDue p_dynamic (per s) := by
    intro s
    rw [hspec.per_eq]
    exact (hspec.load s).blk_start_moved_iff
  refine ⟨per, log, t, hrun, ht, fun h hh => (hshape h hh).1, hstale, ?_, ?_⟩
  · intro himp s hdue
    exact hstale (himp ⟨s, (hmoved s).mpr hdue⟩)
  · rintro hno ⟨s, hs⟩
    exact absurd ((hmoved s).mp hs) (hno s)

/-- The first tick under `blkIdle` moves `blk_start_per[0]` from 7 to 8 and
hints no block IRQ. -/
theorem app_blk_irqs_stale :
    ∃ t, kerneltimer_timeover ⟨fun j => j, fun j => 20 + j⟩ blkIdle init_simpleproc = some t
      ∧ (t.per 0).blk_start ≠ (init_simpleproc 0).blk_start
      ∧ ¬ BlkFresh ⟨fun j => j, fun j => 20 + j⟩ t := by
  have hmoved : (kerneltimer_timeover ⟨fun j => j, fun j => 20 + j⟩ blkIdle init_simpleproc).map
      (fun t => ((t.per 0).blk_start, t.hints.map Hint.irq))
      = some (8, [20, 21, 22, 23, 24, 25, 26, 27]) := by decide
  obtain ⟨t, ht, hvals⟩ := Option.map_eq_some_iff.mp hmoved
  rw [Prod.mk.injEq] at hvals
  refine ⟨t, ht, ?_, ?_⟩
  · rw [hvals.1]
    decide
  · intro hfresh
    obtain ⟨h, hh, hirq, -⟩ := hfresh ⟨0, by decide⟩
    have hmem : h.irq ∈ t.hints.map Hint.irq := List.mem_map_of_mem hh
    rw [hvals.2, hirq] at hmem
    simp at hmem

end CorePartitioning.KTimer.App
