import CorePartitioning.KTimer.Per
import CorePartitioning.KTimer.SingleIrq
import CorePartitioning.Preload.SetCpu

/-!
# simple_proc and affinity.c — the partition as the library sees it

The kernel prints its boundaries with `show_stat_dynamic`, `set_cpu` reads
them and installs a mask. In SINGLE and CROSS mode the mask is the group
the kernel means. In PER mode the mask for files ends one core early, and
is empty when the block group has shrunk to its last core.
-/

namespace CorePartitioning.KTimer

open Decimal Preload

/-! ## show_stat_dynamic -/

def Single.show_stat_dynamic (st : Single.State) : List Char :=
  line st.net_end ++ line st.blk_start

/-- The loop over the sockets. -/
def Sockets.showSockets (per : Socket → Bounds) : List Char :=
  (List.finRange NUMBER_OF_SOCKETS).flatMap fun i =>
    line (per i).net_start ++ (line (per i).net_end ++
      (line (per i).blk_start ++ line (per i).blk_end))

def Cross.show_stat_dynamic (st : Sockets.State) : List Char :=
  line st.socket_number ++ Sockets.showSockets st.per

def Per.show_stat_dynamic (st : Sockets.State) : List Char := Sockets.showSockets st.per

/-! ## SINGLE -/

/-- `set_cpu` installs `group`, and it is not empty. -/
def Installs (mask : Option (Finset Int)) (group : Int → Prop) : Prop :=
  ∃ m, mask = some m ∧ m.Nonempty ∧ ∀ core, core ∈ m ↔ group core

namespace Single

/-- The library's view of the SINGLE partition. -/
structure Agrees (st : State) : Prop where
  read : SetCpu.readSingle (show_stat_dynamic st) = some (st.net_end, st.blk_start)
  net : Installs (SetCpu.set_cpuSingle (show_stat_dynamic st) 0)
    fun core => st.net_end + 1 ≤ core ∧ core ≤ st.blk_start - 1
  file : Installs (SetCpu.set_cpuSingle (show_stat_dynamic st) 1) (blkRange st)

theorem Inv.agrees {st : State} (h : Inv st) : Agrees st := by
  obtain ⟨hnet, hgap, hblk⟩ := inv_iff.mp h
  have hread : SetCpu.readSingle (show_stat_dynamic st) = some (st.net_end, st.blk_start) :=
    SetCpu.readSingle_lines ⟨by omega, by omega⟩ ⟨by omega, by omega⟩
  have hnetmask := fun core => SetCpu.mem_setRange (st.net_end + 1) st.blk_start
    (by omega) (by simp only [SetCpu.CPU_SETSIZE]; omega) ∅ core
  have hfilemask := fun core => SetCpu.mem_setRange st.blk_start SetCpu.MAX_CPUS
    (by omega) (by decide) ∅ core
  refine ⟨hread, ⟨SetCpu.setRange (st.net_end + 1) st.blk_start ∅, ?_, ?_, fun core => ?_⟩,
    ⟨SetCpu.setRange st.blk_start SetCpu.MAX_CPUS ∅, ?_, ?_, fun core => ?_⟩⟩
  · simp [SetCpu.set_cpuSingle, hread]
  · exact ⟨st.net_end + 1, (hnetmask _).mpr (.inr (by omega))⟩
  · rw [hnetmask]
    simp only [Finset.notMem_empty, false_or]
    omega
  · simp [SetCpu.set_cpuSingle, hread]
  · exact ⟨st.blk_start, (hfilemask _).mpr (.inr (by simp only [SetCpu.MAX_CPUS]; omega))⟩
  · rw [hfilemask]
    simp only [Finset.notMem_empty, false_or, blkRange, SetCpu.MAX_CPUS, BLK_END]
    omega

end Single

/-! ## CROSS -/

namespace Sockets

/-- What the library gets of a socket. -/
def cells (b : Bounds) : SetCpu.PerSocket := ⟨b.net_start, b.net_end, b.blk_start, b.blk_end⟩

theorem showSockets_eq (per : Socket → Bounds) :
    showSockets per = (cells (per 0)).lines ++ (cells (per 1)).lines := by
  have hsockets : List.finRange NUMBER_OF_SOCKETS = [0, 1] := by decide
  simp only [showSockets, hsockets, List.flatMap_cons, List.flatMap_nil, List.append_nil]
  rfl

/-- The cores of a socket. -/
theorem Inv.bounds {s : Socket} {b : Bounds} (h : Inv s b) :
    0 ≤ b.net_start ∧ b.blk_end ≤ 19 := by
  rw [h.net_start, h.blk_end]
  fin_cases s <;> decide

theorem Inv.fits {s : Socket} {b : Bounds} (h : Inv s b) : (cells b).Fits := by
  obtain ⟨hlo, hhi⟩ := h.bounds
  obtain ⟨-, -, hnet, hgap, hblk⟩ := h
  have hfits : ∀ x : Int, 0 ≤ x → x ≤ 19 → SetCpu.Fits x := by
    intro x hx hx'
    exact ⟨hx, by omega⟩
  refine ⟨hfits _ hlo ?_, hfits _ ?_ ?_, hfits _ ?_ ?_, hfits _ ?_ hhi⟩
  all_goals
    dsimp only [cells]
    omega

/-- The cores of the net sys group. -/
def sysRange (b : Bounds) (core : Int) : Prop := b.net_end + 1 ≤ core ∧ core ≤ b.blk_start - 1

end Sockets

namespace Cross

open Sockets

/-- The library's view of the CROSS partition. -/
structure Agrees (st : State) : Prop where
  read : SetCpu.readCross (show_stat_dynamic st)
    = some (st.socket_number, fun s => cells (st.per s))
  net : Installs (SetCpu.set_cpuCross (show_stat_dynamic st) 0)
    fun core => ∃ s, Active st.socket_number s ∧ sysRange (st.per s) core
  file : Installs (SetCpu.set_cpuCross (show_stat_dynamic st) 1)
    (activeRange .blk st.per st.socket_number)

theorem readCross_eq {st : State} (h : Sound st) :
    SetCpu.readCross (show_stat_dynamic st)
      = some (st.socket_number, fun s => cells (st.per s)) := by
  have hnum : SetCpu.Fits st.socket_number := by
    obtain ⟨hlo, hhi⟩ := h.counts
    simp only [NUMBER_OF_SOCKETS] at hhi
    exact ⟨by omega, by omega⟩
  rw [show_stat_dynamic, showSockets_eq]
  exact SetCpu.readCross_lines (fun s => cells (st.per s)) hnum fun s => (h.inv s).fits

/-- A mask made of one range for each active socket. -/
theorem installs_overSockets {n : Int} (hn : Counts n) {lo hi : Socket → Int}
    (hlo : ∀ s, 0 ≤ lo s) (hhi : ∀ s, hi s ≤ 20) (hne : lo 1 < hi 1) :
    Installs (SetCpu.overSockets n fun s => SetCpu.setRange (lo s) (hi s))
      fun core => ∃ s, Active n s ∧ lo s ≤ core ∧ core < hi s := by
  have hsize : ∀ s, hi s ≤ SetCpu.CPU_SETSIZE := by
    intro s
    have hs := hhi s
    simp only [SetCpu.CPU_SETSIZE]
    omega
  obtain ⟨m, hm, hmem⟩ := SetCpu.mem_overSockets hn.cases lo hi hlo hsize
  exact ⟨m, hm, ⟨lo 1, (hmem _).mpr ⟨1, active_one n hn, le_rfl, hne⟩⟩, hmem⟩

theorem agrees {st : State} (h : Sound st) : Agrees st := by
  have hread := readCross_eq h
  have hgroups : ∀ s, 0 ≤ (st.per s).net_end + 1 ∧ (st.per s).net_end + 1 < (st.per s).blk_start ∧
      (st.per s).blk_start < (st.per s).blk_end + 1 ∧ (st.per s).blk_end + 1 ≤ 20 := by
    intro s
    obtain ⟨hlo, hhi⟩ := (h.inv s).bounds
    obtain ⟨-, -, hnet, hgap, hblk⟩ := h.inv s
    omega
  have hstart : ∀ s, 0 ≤ (st.per s).blk_start ∧ (st.per s).blk_start ≤ 20 := by
    intro s
    have hs := hgroups s
    omega
  have hnet := installs_overSockets h.counts (fun s => (hgroups s).1) (fun s => (hstart s).2)
    (hgroups 1).2.1
  have hfile := installs_overSockets h.counts (fun s => (hstart s).1)
    (fun s => (hgroups s).2.2.2) (hgroups 1).2.2.1
  refine ⟨hread, ?_, ?_⟩
  · simp only [SetCpu.set_cpuCross, hread, Option.bind_eq_bind, Option.bind_some, sysRange,
      Int.le_sub_one_iff]
    exact hnet
  · simp only [SetCpu.set_cpuCross, hread, Option.bind_eq_bind, Option.bind_some]
    simp only [Int.lt_add_one_iff] at hfile
    exact hfile

end Cross

/-- **The library sees the partition the kernel means**, in every state of
every SINGLE and every CROSS run: it reads the numbers back, and its masks
are the net sys and the block group, never empty. -/
theorem user_affinity_agrees (par : Params) :
    (∀ ps, ∃ st log, Single.run par .blk ps = some (st, log) ∧ Single.Agrees st) ∧
      ∀ is, ∃ st log, Cross.run par is = some (st, log) ∧ Cross.Agrees st := by
  constructor
  · intro ps
    obtain ⟨st, log, hrun, hinv, -⟩ := Single.run_inv par .blk ps
    exact ⟨st, log, hrun, hinv.agrees⟩
  · intro is
    obtain ⟨st, log, hrun, hplaced⟩ := Cross.run_placed par is
    exact ⟨st, log, hrun, Cross.agrees hplaced.sound⟩

/-! ## PER -/

namespace Per

open Sockets

/-- The node of a core. -/
def node (core : Fin 20) : Socket := ⟨core / 10, by simp only [NUMBER_OF_SOCKETS]; omega⟩

theorem readSockets_eq {st : State} (h : Sound st) :
    SetCpu.readSockets (show_stat_dynamic st) = some fun s => cells (st.per s) := by
  rw [show_stat_dynamic, showSockets_eq]
  exact SetCpu.readSockets_lines (fun s => cells (st.per s)) fun s => (h.inv s).fits

/-- The mask that `set_cpu` installs for files: all block cores of the node
but the last. -/
theorem set_cpuPer_file {st : State} (h : Sound st) (core : Fin 20) :
    ∃ m, SetCpu.set_cpuPer (show_stat_dynamic st) (core : Nat) 1 = some m ∧
      ∀ c, c ∈ m ↔ (st.per (node core)).blk_start ≤ c ∧ c < (st.per (node core)).blk_end := by
  have hsocket : ∀ core : Fin 20,
      SetCpu.socket? (((core : Nat) : Int).tdiv SetCpu.CORES_PER_SOCKET) = some (node core) := by
    decide
  have hinv := h.inv (node core)
  have hbounds := hinv.bounds
  refine ⟨SetCpu.setRange (st.per (node core)).blk_start (st.per (node core)).blk_end ∅, ?_,
    fun c => ?_⟩
  · simp only [SetCpu.set_cpuPer, readSockets_eq h, hsocket core, Option.bind_eq_bind,
      Option.bind_some]
    rfl
  · have hnet := hinv.net
    have hgap := hinv.gap
    rw [SetCpu.mem_setRange _ _ (by omega) (by simp only [SetCpu.CPU_SETSIZE]; omega)]
    simp

/-- The mask for files is the block group of the core's node, not empty. -/
def FileAgrees (st : State) (core : Fin 20) : Prop :=
  Installs (SetCpu.set_cpuPer (show_stat_dynamic st) (core : Nat) 1)
    (range .blk (st.per (node core)))

/-- **The mask for files is never the block group in PER mode**: in every
state of every run, for every core, the last block core is missing, and
nothing is left when it is the only one. -/
theorem per_file_affinity_never_agrees (par : Params) (is : List Input) :
    ∃ st log, run par is = some (st, log) ∧ ∀ core, ¬ FileAgrees st core ∧
      (SetCpu.set_cpuPer (show_stat_dynamic st) (core : Nat) 1 = some ∅ ↔
        (st.per (node core)).blk_start = (st.per (node core)).blk_end) := by
  obtain ⟨st, log, hrun, hplaced⟩ := run_placed par is
  refine ⟨st, log, hrun, fun core => ?_⟩
  obtain ⟨m, hm, hmem⟩ := set_cpuPer_file hplaced.sound core
  have hblk := (hplaced.sound.inv (node core)).blk
  constructor
  · rintro ⟨m', hm', -, hgroup⟩
    obtain rfl : m = m' := Option.some.inj (hm.symm.trans hm')
    have hlast := (hgroup (st.per (node core)).blk_end).mpr ⟨hblk, le_rfl⟩
    exact absurd ((hmem _).mp hlast).2 (lt_irrefl _)
  · rw [hm, Option.some.injEq, Finset.eq_empty_iff_forall_notMem]
    constructor
    · intro hempty
      by_contra hne
      exact hempty (st.per (node core)).blk_start ((hmem _).mpr ⟨le_rfl, by omega⟩)
    · intro heq c hc
      have hrange := (hmem c).mp hc
      omega

/-- After five idle ticks the block groups are cores 9 and 19, and a file
thread on core 0 is given an empty mask. -/
theorem per_file_affinity_empty :
    ∃ st log, run .unset (List.replicate 5 Cross.idle) = some (st, log) ∧
      SetCpu.set_cpuPer (show_stat_dynamic st) 0 1 = some ∅ ∧ ¬ FileAgrees st 0 := by
  have hvals : (run .unset (List.replicate 5 Cross.idle)).map
      (fun x => SetCpu.set_cpuPer (show_stat_dynamic x.1) 0 1) = some (some ∅) := by
    decide
  obtain ⟨x, hrun, hmask⟩ := Option.map_eq_some_iff.mp hvals
  refine ⟨x.1, x.2, hrun, hmask, ?_⟩
  rintro ⟨m, hm, hne, -⟩
  obtain rfl : ∅ = m := Option.some.inj (hmask.symm.trans hm)
  exact Finset.not_nonempty_empty hne

end Per

end CorePartitioning.KTimer
