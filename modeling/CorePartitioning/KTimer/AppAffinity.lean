import CorePartitioning.KTimer.Affinity
import CorePartitioning.KTimer.AppPartition
import CorePartitioning.Preload.SetCpuApp

/-!
# simple_proc and affinity.c — the APP partition as the library sees it

The kernel has four groups on a socket and prints six boundaries; `set_cpu`
reads all six, and puts everything between the net queues and the block
queues in the mask for the network, as if there were three groups. So the
mask takes in the application cores, and it is the net sys group only when
`app_start` has come up to `blk_start`.
-/

namespace CorePartitioning.KTimer.App

open Decimal Preload

def show_stat_dynamic (per : Socket → Bounds) : List Char :=
  (List.finRange NUMBER_OF_SOCKETS).flatMap fun i =>
    line (per i).net_start ++ (line (per i).net_end ++
      (line (per i).app_start ++ (line (per i).app_end ++
        (line (per i).blk_start ++ line (per i).blk_end))))

/-- What the library gets of a socket. -/
def cells (b : Bounds) : SetCpu.AppSocket :=
  ⟨b.net_start, b.net_end, b.app_start, b.app_end, b.blk_start, b.blk_end⟩

theorem show_stat_dynamic_eq (per : Socket → Bounds) :
    show_stat_dynamic per = (cells (per 0)).lines ++ (cells (per 1)).lines := by
  have hsockets : List.finRange NUMBER_OF_SOCKETS = [0, 1] := by decide
  simp only [show_stat_dynamic, hsockets, List.flatMap_cons, List.flatMap_nil, List.append_nil]
  rfl

/-- The boundaries of socket `s` in their order. -/
theorem Inv.ordered {s : Socket} {b : Bounds} (h : Inv s b) :
    10 * (s : Int) = b.net_start ∧ b.net_start ≤ b.net_end ∧ b.net_end + 1 < b.app_start ∧
      b.app_start ≤ b.blk_start + 1 ∧ b.blk_start ≤ b.blk_end ∧ b.blk_end = 10 * s + 9 := by
  obtain ⟨hnet, hsys, happ, hblk⟩ := h.pos.bounds
  have hover := h.overlap
  have hstart := h.net_start
  have hend := h.blk_end
  omega

theorem Inv.fits {s : Socket} {b : Bounds} (h : Inv s b) : (cells b).Fits := by
  have hb := h.ordered
  have hover := h.overlap
  have hs : (s : Nat) < 2 := s.isLt
  constructor <;> (dsimp only [cells]; constructor <;> omega)

theorem readAppSockets_eq {per : Socket → Bounds} (h : ∀ s, Inv s (per s)) :
    SetCpu.readAppSockets (show_stat_dynamic per) = some fun s => cells (per s) := by
  rw [show_stat_dynamic_eq]
  exact SetCpu.readAppSockets_lines (fun s => cells (per s)) fun s => (h s).fits

/-! ## The mask for the network -/

/-- The group that the averages count as net sys. -/
def netSysRange (b : Bounds) (core : Int) : Prop := b.net_end + 1 ≤ core ∧ core ≤ b.app_start - 1

/-- The cores among which `set_cpu_app` chooses. -/
def appRange (b : Bounds) (core : Int) : Prop := b.app_start ≤ core ∧ core < b.blk_start

/-- The mask for the network on core `core` is the net sys group of its
node, and no core that `set_cpu_app` may choose is in it. -/
def NetAgrees (per : Socket → Bounds) (core : Fin 20) : Prop :=
  ∃ m, SetCpu.set_cpuApp (show_stat_dynamic per) (core : Nat) 0 = some m ∧
    (∀ c, c ∈ m ↔ netSysRange (per (Per.node core)) c) ∧ ∀ c ∈ m, ∀ s, ¬ appRange (per s) c

/-- The mask that `set_cpu` installs for the network: everything between the
net queues and the block queues of the node. -/
theorem set_cpuApp_net {per : Socket → Bounds} (h : ∀ s, Inv s (per s)) (core : Fin 20) :
    ∃ m, SetCpu.set_cpuApp (show_stat_dynamic per) (core : Nat) 0 = some m ∧
      ∀ c, c ∈ m ↔ (per (Per.node core)).net_end + 1 ≤ c ∧ c < (per (Per.node core)).blk_start := by
  have hsocket : ∀ core : Fin 20,
      SetCpu.socket? (((core : Nat) : Int).tdiv SetCpu.CORES_PER_SOCKET)
        = some (Per.node core) := by
    decide
  have hb := (h (Per.node core)).ordered
  have hs : (Per.node core : Nat) < 2 := (Per.node core).isLt
  refine ⟨SetCpu.setRange ((per (Per.node core)).net_end + 1) (per (Per.node core)).blk_start ∅,
    ?_, fun c => ?_⟩
  · simp only [SetCpu.set_cpuApp, readAppSockets_eq h, hsocket core, Option.bind_eq_bind,
      Option.bind_some]
    rfl
  · rw [SetCpu.mem_setRange _ _ (by omega) (by simp only [SetCpu.CPU_SETSIZE]; omega)]
    simp

/-- The application ranges of the two sockets and the net sys groups never
meet. -/
theorem not_appRange_of_netSysRange {per : Socket → Bounds} (h : ∀ s, Inv s (per s))
    {s s' : Socket} {c : Int} (hc : netSysRange (per s) c) : ¬ appRange (per s') c := by
  obtain ⟨hlo, hhi⟩ := hc
  rintro ⟨hlo', hhi'⟩
  have hb := (h s).ordered
  have hb' := (h s').ordered
  by_cases hss : s = s'
  · subst hss
    omega
  · have hne : (s : Nat) ≠ s' := fun heq => hss (Fin.ext heq)
    omega

/-- What lies between the net and the block queues is the net sys group when
no application core does. -/
theorem Inv.between_eq_netSys_iff {s : Socket} {b : Bounds} (h : Inv s b) :
    (∀ c, b.net_end + 1 ≤ c ∧ c < b.blk_start ↔ netSysRange b c) ↔ b.app_start = b.blk_start := by
  have hb := h.ordered
  constructor
  · intro hsame
    have hle : b.app_start ≤ b.blk_start := by
      -- the last net sys core is before the block queues
      obtain ⟨-, hlast⟩ := (hsame (b.app_start - 1)).mpr ⟨by omega, le_rfl⟩
      omega
    by_contra hne
    -- and so is the first application core
    obtain ⟨-, hfirst⟩ := (hsame b.app_start).mp ⟨by omega, by omega⟩
    omega
  · intro heq c
    rw [netSysRange, heq]
    omega

/-- **The mask for the network is the net sys group exactly when the
application range is used up**: in every state of every run, on every core. -/
theorem app_net_affinity_agrees_iff (par : Params) (ps : List (Int → Int)) :
    ∃ per log, run par ps = some (per, log) ∧ ∀ core, NetAgrees per core ↔
      (per (Per.node core)).app_start = (per (Per.node core)).blk_start := by
  obtain ⟨per, log, hrun, hinv⟩ := run_inv par ps
  refine ⟨per, log, hrun, fun core => ?_⟩
  obtain ⟨m, hm, hmem⟩ := set_cpuApp_net hinv core
  rw [← (hinv (Per.node core)).between_eq_netSys_iff]
  constructor
  · rintro ⟨m', hm', hgroup, -⟩ c
    obtain rfl : m = m' := Option.some.inj (hm.symm.trans hm')
    rw [← hmem, hgroup]
  · intro hsame
    have hgroup : ∀ c, c ∈ m ↔ netSysRange (per (Per.node core)) c := by
      intro c
      rw [hmem, hsame]
    exact ⟨m, hm, hgroup, fun c hc s => not_appRange_of_netSysRange hinv ((hgroup c).mp hc)⟩

/-- Before the first tick cores 4 to 6 are application cores, and in the
mask for the network. -/
theorem app_net_affinity_takes_app_cores :
    ¬ ∀ (par : Params) (ps : List (Int → Int)) per log, run par ps = some (per, log) →
      ∀ core, NetAgrees per core := by
  intro h
  obtain ⟨m, hm, hgroup, -⟩ := h .unset [] init_simpleproc [] rfl 0
  obtain ⟨m', hm', hmem⟩ := set_cpuApp_net inv_init 0
  obtain rfl : m = m' := Option.some.inj (hm.symm.trans hm')
  have hfour := (hgroup 4).mp ((hmem 4).mpr (by decide))
  revert hfour
  unfold netSysRange
  decide

end CorePartitioning.KTimer.App
