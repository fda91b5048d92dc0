import CorePartitioning.KTimer.Single

/-!
# simple_proc — IRQ freshness in SINGLE mode

After a turn for blk the block queues are in the current block range, after
a turn for net irq the net queues in the current net range, and the other
kind stays where it was: the turn for blk does not move `net_end`. The turn
for net irq moves `blk_start` in `MovesBoth`, and then the first block
queue is left on the core that has just become net sys.
-/

namespace CorePartitioning.KTimer.Single

variable {par : Params} {st st' : State} {log hints : List Hint}

def blkRange (st : State) (core : Int) : Prop := st.blk_start ≤ core ∧ core ≤ BLK_END

def netRange (st : State) (core : Int) : Prop := NET_START ≤ core ∧ core ≤ st.net_end

/-- The last hint of every queue is in the current range of its kind. -/
structure IrqsFresh (par : Params) (st : State) (log : List Hint) : Prop where
  blk : ∀ j, HintedIn par log (.blk j) (blkRange st)
  net : ∀ j, HintedIn par log (.net j) (netRange st)

/-- What holds between the ticks. -/
structure Placed (par : Params) (ps : List (Int → Int)) (st : State) (log : List Hint) :
    Prop where
  inv : Inv st
  blk : st.dynamic_turn = .net → ∀ j, HintedIn par log (.blk j) (blkRange st)
  first : st.dynamic_turn = .net → lastQueueHint log (.blk 0) = some st.blk_start
  net : st.dynamic_turn = .blk → ps ≠ [] → ∀ j, HintedIn par log (.net j) (netRange st)

theorem placed_init : Placed par [] init_simpleproc [] where
  inv := inv_init .blk
  blk hturn := by cases hturn
  first hturn := by cases hturn
  net _ h := absurd rfl h

/-! ## The two turns -/

theorem BlkTick.redistributes (h : BlkTick par st st' hints) :
    Redistributes par .blk (blkRange st') hints := by
  rw [h.hints]
  exact redistributes_blk h.inv.blkCore_mem

theorem NetTick.redistributes {u : Utils} (h : NetTick par u st st' hints) :
    Redistributes par .net (netRange st') hints := by
  rw [h.hints]
  exact redistributes_net h.inv.netCore_mem

/-- The first block queue is on the first block core. -/
theorem BlkTick.first (h : BlkTick par st st' hints) :
    lastQueueHint (log ++ hints) (.blk 0) = some st'.blk_start := by
  have hinj : Queue.blk.Injective := fun _ _ heq => Queue.blk.inj heq
  rw [h.hints, lastQueueHint_hintAll hinj]
  simp [blkCore]

/-- The turn for blk leaves the net queues in the net range. -/
theorem BlkTick.net (h : BlkTick par st st' hints)
    (hnet : ∀ j, HintedIn par log (.net j) (netRange st)) (j : Fin NET_QUEUES) :
    HintedIn par (log ++ hints) (.net j) (netRange st') := by
  refine h.redistributes.keeps (by simp [Queue.turn]) ((hnet j).mono fun core hcore => ?_)
  rw [netRange, h.net_end]
  exact hcore

/-- **The turn for net irq** leaves the block queues in the block range if
and only if it does not move both boundaries. -/
theorem NetTick.blk_iff {u : Utils} (h : NetTick par u st st' hints)
    (hblk : ∀ j, HintedIn par log (.blk j) (blkRange st))
    (hfirst : lastQueueHint log (.blk 0) = some st.blk_start) :
    (∀ j, HintedIn par (log ++ hints) (.blk j) (blkRange st')) ↔ ¬ MovesBoth u st := by
  have hturn : ∀ j, (Queue.blk j).turn ≠ .net := by simp [Queue.turn]
  constructor
  · intro hfresh hboth
    obtain ⟨core, hlast, hlo, -⟩ := (hfresh 0).last
    rw [h.redistributes.lastQueueHint_append (hturn 0), hfirst] at hlast
    have hcore : st.blk_start = core := Option.some.inj hlast
    have hmoved := h.moved hboth
    omega
  · intro hstay j
    refine h.redistributes.keeps (hturn j) ((hblk j).mono fun core hcore => ?_)
    rw [blkRange, h.stayed hstay]
    exact hcore

/-- A tick keeps what holds between the ticks. -/
theorem Placed.tick {ps : List (Int → Int)} (h : Placed par ps st log) (p_dynamic : Int → Int) :
    ∃ st' hints, kerneltimer_timeover par p_dynamic st = some (st', hints) ∧
      Placed par (p_dynamic :: ps) st' (log ++ hints) := by
  cases hturn : st.dynamic_turn with
  | blk =>
      obtain ⟨st', hints, htick, hspec⟩ := tick_blk par p_dynamic h.inv hturn
      refine ⟨st', hints, htick, hspec.inv, fun _ j => ?_, fun _ => hspec.first, fun hblk => ?_⟩
      · exact hspec.redistributes.hintedIn rfl
      · rw [hspec.turn] at hblk
        cases hblk
  | net =>
      obtain ⟨st', hints, htick, hspec⟩ := tick_net par p_dynamic h.inv hturn
      refine ⟨st', hints, htick, hspec.inv, fun hnet => ?_, fun hnet => ?_, fun _ _ j => ?_⟩
      · rw [hspec.turn] at hnet
        cases hnet
      · rw [hspec.turn] at hnet
        cases hnet
      · exact hspec.redistributes.hintedIn rfl

theorem run_placed (par : Params) (ps : List (Int → Int)) :
    ∃ st log, run par .blk ps = some (st, log) ∧ Placed par ps st log := by
  refine Ticks.run_invariant (P := Placed par) placed_init ?_ ps
  intro p_dynamic ps st log h
  exact h.tick p_dynamic

/-- **IRQ freshness in SINGLE mode.** After every tick from the second on
the hints are fresh if and only if that tick was not a turn for net irq
that moved both boundaries. -/
theorem single_irqs_fresh_iff (par : Params) (p_dynamic p_before : Int → Int)
    (ps : List (Int → Int)) :
    ∃ st log st' log', run par .blk (p_before :: ps) = some (st, log) ∧
      run par .blk (p_dynamic :: p_before :: ps) = some (st', log') ∧
      (IrqsFresh par st' log' ↔
        ¬ (st.dynamic_turn = .net ∧ MovesBoth (utils p_dynamic st) st)) := by
  obtain ⟨st, log, hrun, hplaced⟩ := run_placed par (p_before :: ps)
  cases hturn : st.dynamic_turn with
  | blk =>
      obtain ⟨st', hints, htick, hspec⟩ := tick_blk par p_dynamic hplaced.inv hturn
      refine ⟨st, log, st', log ++ hints, hrun, Ticks.run_cons hrun htick, ?_⟩
      have hblk : ∀ j, HintedIn par (log ++ hints) (.blk j) (blkRange st') :=
        fun j => hspec.redistributes.hintedIn rfl
      have hnet := hspec.net (hplaced.net hturn (by simp))
      simp [IrqsFresh.mk hblk hnet, hturn]
  | net =>
      obtain ⟨st', hints, htick, hspec⟩ := tick_net par p_dynamic hplaced.inv hturn
      refine ⟨st, log, st', log ++ hints, hrun, Ticks.run_cons hrun htick, ?_⟩
      have hnet : ∀ j, HintedIn par (log ++ hints) (.net j) (netRange st') :=
        fun j => hspec.redistributes.hintedIn rfl
      have hblk := hspec.blk_iff (hplaced.blk hturn) (hplaced.first hturn)
      rw [hturn]
      constructor
      · rintro ⟨hfresh, -⟩ ⟨-, hboth⟩
        exact hblk.mp hfresh hboth
      · intro hno
        exact ⟨hblk.mpr fun hboth => hno ⟨rfl, hboth⟩, hnet⟩

/-- Block cores at full load. -/
def blkBusy (j : Int) : Int := if 16 ≤ j then 100 else 0

/-- Net queues at full load, net sys at half, block cores idle. -/
def netBusy (j : Int) : Int := if j ≤ 12 then 100 else if j ≤ 14 then 50 else 0

/-- The block group takes core 15 and gives it back in the turn for net irq;
block queue 0 stays on it. -/
theorem single_irqs_stale :
    ∃ st log, run ⟨fun j => j, fun j => 20 + j⟩ .blk [netBusy, blkBusy] = some (st, log) ∧
      ¬ IrqsFresh ⟨fun j => j, fun j => 20 + j⟩ st log := by
  have hvals : (run ⟨fun j => j, fun j => 20 + j⟩ .blk [netBusy, blkBusy]).map
      (fun t => (t.1.blk_start, lastQueueHint t.2 (.blk 0))) = some (16, some 15) := by decide
  obtain ⟨t, hrun, hproj⟩ := Option.map_eq_some_iff.mp hvals
  obtain ⟨hstart, hlast⟩ := Prod.mk.inj hproj
  refine ⟨t.1, t.2, hrun, fun hfresh => ?_⟩
  obtain ⟨core, hcore, hlo, -⟩ := (hfresh.blk 0).last
  rw [hlast] at hcore
  have hcore' : 15 = core := Option.some.inj hcore
  omega

end CorePartitioning.KTimer.Single
