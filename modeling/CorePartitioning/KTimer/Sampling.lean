import CorePartitioning.KTimer.Utilisation
import CorePartitioning.Preload.SetCpuApp

/-!
# simple_proc and affinity.c — the loads, from the counters to the library

When a tick divides by zero, and what becomes of the percentages of a tick
that returns. `show_stat_user` and its three siblings print a line for every
CPU that is online, and `set_cpu_app` takes line `i` of `/proc/KU/total` for
the load of CPU `i`. So it knows the loads of the CPUs up to the first that
is offline. Its loop runs 20 times whatever the file holds; after the last
line it reads its uninitialised buffers.
-/

namespace CorePartitioning.KTimer.Utilisation

open Decimal Preload

/-! ## Division by zero -/

section Cpu

variable (before after : proc_stat)

/-- The idle time of `before` and `after`, patched when it is 0. -/
def patchedIdle : U64 := if after.idle - before.idle = 0 then 1 else after.idle - before.idle

/-- The times that are set against it. -/
def busyTimes : List U64 :=
  let user := after.user - before.user
  let system := after.system - before.system
  let irq := after.irq - before.irq + after.softirq - before.softirq
  [user, system, irq, user + system + irq]

/-- A busy time and the idle time make up the full range of a counter, so
their sum is 0. -/
def Wraps : Prop :=
  ∃ x ∈ busyTimes before after, x.toNat + (patchedIdle before after).toNat = 2 ^ 64

variable {before after}

theorem patchedIdle_pos : 0 < (patchedIdle before after).toNat := by
  unfold patchedIdle
  split
  · decide
  · rename_i hne
    have hzero : (after.idle - before.idle).toNat ≠ 0 := fun h => hne (BitVec.eq_of_toNat_eq h)
    omega

theorem add_eq_zero_iff {x d : U64} (hd : 0 < d.toNat) :
    x + d = 0 ↔ x.toNat + d.toNat = 2 ^ 64 := by
  have hx := x.isLt
  have hlt := d.isLt
  constructor
  · intro h
    have hsum : (x.toNat + d.toNat) % 2 ^ 64 = 0 := by
      rw [← BitVec.toNat_add, h]
      rfl
    omega
  · intro h
    apply BitVec.eq_of_toNat_eq
    rw [BitVec.toNat_add, h]
    rfl

theorem percent_returns_iff {x d : U64} (hd : 0 < d.toNat) :
    (∃ p, percent d x = some p) ↔ x.toNat + d.toNat ≠ 2 ^ 64 := by
  rw [ne_eq, ← add_eq_zero_iff hd]
  unfold percent udiv
  by_cases hzero : x + d = 0
  · rw [if_pos hzero]
    exact iff_of_false (fun ⟨p, hp⟩ => (by cases hp)) (not_not_intro hzero)
  · rw [if_neg hzero]
    exact iff_of_true ⟨_, rfl⟩ hzero

/-- **One CPU.** The divisors are the sums of the idle time and a busy time. -/
theorem percents_returns_iff :
    (∃ p, percents before after = some p) ↔ ¬ Wraps before after := by
  have hd : 0 < (patchedIdle before after).toNat := patchedIdle_pos
  have hall : ¬ Wraps before after ↔
      ∀ x ∈ busyTimes before after, ∃ p, percent (patchedIdle before after) x = some p := by
    constructor
    · intro h x hx
      exact (percent_returns_iff hd).mpr fun heq => h ⟨x, hx, heq⟩
    · rintro h ⟨x, hx, heq⟩
      exact (percent_returns_iff hd).mp (h x hx) heq
  rw [hall]
  simp only [busyTimes, List.forall_mem_cons, List.not_mem_nil, false_implies, implies_true,
    and_true]
  have hdynamic : ∀ user system irq : U64, system + irq + user = user + system + irq := by
    intro user system irq
    rw [BitVec.add_comm, BitVec.add_assoc]
  have hidle : (if after.idle - before.idle = 0 then 1 else after.idle - before.idle) =
      patchedIdle before after := rfl
  simp only [percents, hdynamic, hidle]
  constructor
  · rintro ⟨p, hp⟩
    simp only [Option.bind_eq_bind, Option.bind_eq_some_iff] at hp
    obtain ⟨user, huser, system, hsystem, irq, hirq, total, htotal, -⟩ := hp
    exact ⟨⟨user, huser⟩, ⟨system, hsystem⟩, ⟨irq, hirq⟩, ⟨total, htotal⟩⟩
  · rintro ⟨⟨user, huser⟩, ⟨system, hsystem⟩, ⟨irq, hirq⟩, ⟨total, htotal⟩⟩
    exact ⟨⟨user, system, irq, total, total⟩, by
      simp only [huser, hsystem, hirq, htotal, Option.bind_eq_bind, Option.bind_some]; rfl⟩

end Cpu

theorem sample_returns_iff {s : Sample} {st : State} :
    (∃ st', sample s st = some st') ↔
      ∀ i, s.online i = true → ¬ Wraps (st.before i) (s.kcpustat i) := by
  constructor
  · rintro ⟨st', h⟩ i hi
    apply percents_returns_iff.mp
    exact ⟨st'.p i, (sample_sampled h).measured i (Sample.mem_cpus.mpr hi)⟩
  · intro h
    apply foldlM_returns s.nodup_cpus
    intro i hi
    exact percents_returns_iff.mpr (h i (Sample.mem_cpus.mp hi))

/-- No tick of the run finds times that wrap. -/
def NoWrap : List Sample → Prop
  | [] => True
  | s :: ss => (∀ i, s.online i = true → ¬ Wraps (lastSample i ss) (s.kcpustat i)) ∧ NoWrap ss

/-- **Division by zero.** The ticks all return exactly when no online CPU's
busy and idle time since its last sample ever make up 2^64. -/
theorem sampling_returns_iff (ss : List Sample) :
    (∃ st log, run ss = some (st, log)) ↔ NoWrap ss := by
  induction ss with
  | nil => exact iff_of_true ⟨init, [], rfl⟩ trivial
  | cons s ss ih =>
      rw [NoWrap, ← ih]
      constructor
      · rintro ⟨st', log', hrun⟩
        simp only [run, Ticks.run, Option.bind_eq_bind, Option.bind_eq_some_iff] at hrun
        obtain ⟨⟨st, log⟩, hrun, ⟨st₁, out⟩, htick, -⟩ := hrun
        obtain ⟨st₂, hsample, -⟩ := Option.map_eq_some_iff.mp htick
        refine ⟨?_, st, log, hrun⟩
        intro i hi
        rw [← before_eq_lastSample hrun i]
        exact sample_returns_iff.mp ⟨st₂, hsample⟩ i hi
      · rintro ⟨hwrap, st, log, hrun⟩
        obtain ⟨st', hsample⟩ := sample_returns_iff.mpr fun i hi => by
          rw [before_eq_lastSample hrun i]
          exact hwrap i hi
        refine ⟨st', log ++ [st'.p], ?_⟩
        have htick : (sample s st).map (fun st' => (st', [st'.p])) = some (st', [st'.p]) := by
          rw [hsample]
          rfl
        exact Ticks.run_cons hrun htick

/-- A CPU whose idle time went back by the 5 it worked. -/
example : percents ⟨100, 0, 0, 1000, 0, 0, 0⟩ ⟨105, 0, 0, 995, 0, 0, 0⟩ = none := by decide

/-! ## The files -/

/-- The CPUs that `for_each_online_cpu` comes to. -/
def onlineCpus (online : Cpu → Bool) : List Cpu := (List.finRange MAX_CPUS).filter online

/-- A line for every online CPU. -/
def showOnline (online : Cpu → Bool) (p : Cpu → Int) : List Char :=
  (onlineCpus online).flatMap fun i => line (p i)

def show_stat_user (online : Cpu → Bool) (st : State) : List Char :=
  showOnline online fun i => (st.p i).p_user

def show_stat_system (online : Cpu → Bool) (st : State) : List Char :=
  showOnline online fun i => (st.p i).p_system

def show_stat_irq (online : Cpu → Bool) (st : State) : List Char :=
  showOnline online fun i => (st.p i).p_irq

def show_stat_total (online : Cpu → Bool) (st : State) : List Char :=
  showOnline online fun i => (st.p i).p_total

/-- The line of an online CPU, from 0. -/
def lineOf (online : Cpu → Bool) (i : Cpu) : Nat := (onlineCpus online).idxOf i

section Lines

variable {online : Cpu → Bool}

theorem finRange_split (i : Cpu) : ∃ below above, List.finRange MAX_CPUS = below ++ i :: above ∧
    below.length = i ∧ ∀ j, j ∈ below ↔ j < i := by
  have hlt : (i : Nat) < (List.finRange MAX_CPUS).length := by simp
  refine ⟨(List.finRange MAX_CPUS).take i, (List.finRange MAX_CPUS).drop (i + 1), ?_, by simp, ?_⟩
  · have hdrop := List.drop_eq_getElem_cons hlt
    rw [List.getElem_finRange] at hdrop
    exact (List.take_append_drop i _).symm.trans (congrArg _ hdrop)
  · intro j
    rw [List.mem_take_iff_getElem]
    constructor
    · rintro ⟨k, hk, rfl⟩
      rw [List.getElem_finRange]
      show k < (i : Nat)
      omega
    · intro hj
      exact ⟨j, by simpa using hj, by simp⟩

/-- The lines stand for their CPUs up to the first that is offline. -/
theorem lineOf_eq_iff {i : Cpu} (hi : online i = true) :
    lineOf online i = i ↔ ∀ j < i, online j = true := by
  obtain ⟨below, above, hsplit, hlen, hmem⟩ := finRange_split i
  have hnot : i ∉ below.filter online := by
    intro h
    exact absurd ((hmem i).mp (List.mem_of_mem_filter h)) (lt_irrefl i)
  have hline : lineOf online i = (below.filter online).length := by
    rw [lineOf, onlineCpus, hsplit, List.filter_append, List.filter_cons_of_pos hi,
      List.idxOf_append_of_notMem hnot, List.idxOf_cons_self, Nat.add_zero]
  rw [hline, ← hlen, List.length_filter_eq_length_iff]
  constructor
  · intro h j hj
    exact h j ((hmem j).mpr hj)
  · intro h j hj
    exact h j ((hmem j).mp hj)

theorem length_onlineCpus : (onlineCpus online).length = MAX_CPUS ↔ ∀ i, online i = true := by
  have hlen : (List.finRange MAX_CPUS).length = MAX_CPUS := List.length_finRange
  conv_lhs => rw [← hlen]
  rw [onlineCpus, List.length_filter_eq_length_iff]
  constructor
  · intro h i
    exact h i (List.mem_finRange i)
  · intro h i _
    exact h i

theorem length_onlineCpus_le : (onlineCpus online).length ≤ MAX_CPUS := by
  have hfilter := List.length_filter_le online (List.finRange MAX_CPUS)
  rwa [List.length_finRange] at hfilter

theorem fitsTotal_online {p : Cpu → Int} (online : Cpu → Bool)
    (h : ∀ i, SetCpu.FitsTotal (p i)) : ∀ x ∈ (onlineCpus online).map p, SetCpu.FitsTotal x := by
  intro x hx
  obtain ⟨i, -, rfl⟩ := List.mem_map.mp hx
  exact h i

/-- What the library has after it has read the file: each line in the cell of
its place, in the cells after the last line what the buffers held. -/
theorem read_showOnline (online : Cpu → Bool) {p : Cpu → Int} (h : ∀ i, SetCpu.FitsTotal (p i))
    (total_buf : Int → List Char) (stack : Int → Int) :
    let load := SetCpu.readTotals total_buf stack 0 MAX_CPUS (showOnline online p)
    (∀ i, online i = true → load (lineOf online i) = p i) ∧
      (∀ c : Int, (onlineCpus online).length ≤ c → c < MAX_CPUS → load c = atoi (total_buf c)) ∧
      ∀ c : Int, c < 0 ∨ MAX_CPUS ≤ c → load c = stack c := by
  have hlen : ((onlineCpus online).map p).length ≤ MAX_CPUS := by
    rw [List.length_map]
    exact length_onlineCpus_le
  obtain ⟨hlines, hcells, hothers⟩ :=
    SetCpu.readTotals_fitting (fitsTotal_online online h) total_buf hlen stack 0
  simp only [List.flatMap_map, List.length_map, zero_add] at hlines hcells hothers
  refine ⟨fun i hi => ?_, hcells, hothers⟩
  have hmem : i ∈ onlineCpus online := List.mem_filter.mpr ⟨List.mem_finRange i, hi⟩
  refine hlines (lineOf online i) (p i) ?_
  rw [List.getElem?_map, lineOf, List.getElem?_idxOf hmem]
  rfl

/-- No `fgets` of the library's meets the end of the file. -/
theorem read_showOnline_iff {p : Cpu → Int} (h : ∀ i, SetCpu.FitsTotal (p i))
    (stack : Int → Int) :
    (∃ load, SetCpu.readTotal stack 0 MAX_CPUS (showOnline online p) = some load) ↔
      ∀ i, online i = true := by
  rw [← length_onlineCpus]
  constructor
  · rintro ⟨load, hload⟩
    by_contra hne
    have hle : (onlineCpus online).length ≤ MAX_CPUS := length_onlineCpus_le
    have hfits := fitsTotal_online online h
    have heof := SetCpu.readTotal_eof hfits stack 0 (n := MAX_CPUS) (by
      rw [List.length_map]
      omega)
    rw [List.flatMap_map] at heof
    rw [showOnline, heof] at hload
    cases hload
  · intro hlen
    obtain ⟨load, hread, -⟩ := SetCpu.readTotal_fitting (fitsTotal_online online h) [] stack 0
    rw [List.append_nil, List.flatMap_map, List.length_map, hlen] at hread
    exact ⟨load, hread⟩

end Lines

/-! ## What the library knows of the loads -/

/-- A percentage has at most the digits of an `int`. -/
theorem percent_fits {d x : U64} {v : Int} (h : percent d x = some v) : SetCpu.FitsTotal v := by
  have hshort : v.natAbs < 10 ^ 10 := by
    unfold percent at h
    obtain ⟨q, -, hv⟩ := Option.bind_eq_some_iff.mp h
    obtain rfl := Option.some.inj hv
    split
    · decide
    · have hlo := BitVec.le_toInt ((100 - q).setWidth 32)
      have hhi := BitVec.toInt_lt (x := (100 - q).setWidth 32)
      omega
  have hlen := length_render_le_of_natAbs (k := 10) (by decide) hshort
  unfold SetCpu.FitsTotal
  simp only [SetCpu.PROC_MAX_LEN]
  omega

theorem total_fits {before after : proc_stat} {p : Percents} (h : percents before after = some p) :
    SetCpu.FitsTotal p.p_total := by
  simp only [percents, Option.bind_eq_bind, Option.bind_eq_some_iff] at h
  obtain ⟨_, _, _, _, _, _, total, htotal, _, _, heq⟩ := h
  obtain rfl := Option.some.inj heq
  exact percent_fits htotal

theorem total_fits_of_run {ss : List Sample} {st : State} {log : List (Cpu → Percents)}
    (hrun : run ss = some (st, log)) (i : Cpu) : SetCpu.FitsTotal (st.p i).p_total := by
  refine Ticks.run_keeps (P := fun _ st => SetCpu.FitsTotal (st.p i).p_total) ?_ ?_ hrun
  · show (render 0).length + 1 < SetCpu.PROC_MAX_LEN - 1
    decide
  · intro s ss st₁ st₂ out hfits htick
    obtain ⟨st', hsample, heq⟩ := Option.map_eq_some_iff.mp htick
    obtain ⟨rfl, -⟩ := Prod.mk.inj heq
    have hsampled := sample_sampled hsample
    by_cases hi : i ∈ s.cpus
    · exact total_fits (hsampled.measured i hi)
    · rw [(hsampled.kept i hi).2]
      exact hfits

/-- What a tick measures. -/
theorem measured_of_run {s : Sample} {ss : List Sample} {st : State}
    {log : List (Cpu → Percents)} (hrun : run (s :: ss) = some (st, log)) {i : Cpu}
    (hi : s.online i = true) :
    percents (lastSample i ss) (s.kcpustat i) = some (st.p i) := by
  simp only [run, Ticks.run, Option.bind_eq_bind, Option.bind_eq_some_iff] at hrun
  obtain ⟨⟨st₁, log₁⟩, hrun₁, ⟨st₂, out⟩, htick, heq⟩ := hrun
  obtain ⟨st', hsample, hst⟩ := Option.map_eq_some_iff.mp htick
  obtain ⟨rfl, -⟩ := Prod.mk.inj hst
  obtain ⟨rfl, -⟩ := Prod.mk.inj (Option.some.inj heq)
  rw [← before_eq_lastSample hrun₁ i]
  exact (sample_sampled hsample).measured i (Sample.mem_cpus.mpr hi)

/-- What the library's `load` is, where the file shows the percentages `st`
of the CPUs that are `online`. -/
structure LoadsRead (online : Cpu → Bool) (st : State) (total_buf : Int → List Char)
    (stack load : Int → Int) : Prop where
  line : ∀ i, online i = true → load (lineOf online i) = (st.p i).p_total
  own : ∀ i, online i = true → (lineOf online i = i ↔ ∀ j < i, online j = true)
  beyond : ∀ c : Int, (onlineCpus online).length ≤ c → c < MAX_CPUS → load c = atoi (total_buf c)
  outside : ∀ c : Int, c < 0 ∨ MAX_CPUS ≤ c → load c = stack c

/-- **The loads that the library reads.** After any ticks, whatever CPUs are
online when the file is read: its lines go to the first cells, and a CPU's to
the cell of that CPU exactly when all CPUs before it are online. The cells
after the last line get the numbers in buffers that nothing was read into;
there are none of these exactly when all CPUs are online. The load of a CPU
in its own cell is the share of the time that it was busy before the last
tick, rounded up, where the counters were plausible. -/
theorem total_loads {ss : List Sample} {st : State} {log : List (Cpu → Percents)}
    (hrun : run ss = some (st, log)) (online : Cpu → Bool) (total_buf : Int → List Char)
    (stack : Int → Int) :
    let load := SetCpu.readTotals total_buf stack 0 SetCpu.MAX_CPUS.toNat
      (show_stat_total online st)
    LoadsRead online st total_buf stack load ∧
      ((onlineCpus online).length = MAX_CPUS ↔ ∀ i, online i = true) ∧
      ((∃ load, SetCpu.readTotal stack 0 SetCpu.MAX_CPUS.toNat (show_stat_total online st)
        = some load) ↔ ∀ i, online i = true) ∧
      ∀ s ss', ss = s :: ss' → ∀ i, (∀ j ≤ i, online j = true) → s.online i = true →
        Plausible (lastSample i ss') (s.kcpustat i) →
        load i = ⌈(100 * totalTime (lastSample i ss') (s.kcpustat i) : ℚ) /
          (totalTime (lastSample i ss') (s.kcpustat i) +
            idleTime (lastSample i ss') (s.kcpustat i))⌉ := by
  have hfits := total_fits_of_run hrun
  obtain ⟨hlines, hbeyond, houtside⟩ := read_showOnline online hfits total_buf stack
  refine ⟨⟨hlines, fun i hi => lineOf_eq_iff hi, hbeyond, houtside⟩, length_onlineCpus,
    read_showOnline_iff hfits stack, ?_⟩
  rintro s ss' rfl i hbelow hi hplausible
  have honline := hbelow i le_rfl
  have hline := (lineOf_eq_iff honline).mpr fun j hj => hbelow j hj.le
  have hcell := hlines i honline
  rw [hline] at hcell
  obtain ⟨p, hp, hdescribe⟩ := percents_describe hplausible
  obtain rfl := Option.some.inj (hp.symm.trans (measured_of_run hrun hi))
  exact hcell.trans hdescribe.total.eq

/-- CPU 0 alone is online. The next cell gets the 7 that was left in its
buffer, the one after the array keeps its 9. -/
theorem total_loads_one : ∃ st log, run [oneSample] = some (st, log) ∧
    let load := SetCpu.readTotals (fun _ => ['7']) (fun _ => 9) 0 SetCpu.MAX_CPUS.toNat
      (show_stat_total oneSample.online st)
    load 0 = 34 ∧ load 1 = 7 ∧ load 20 = 9 := by
  obtain ⟨⟨st, log⟩, hrun⟩ := Option.isSome_iff_exists.mp
    (show (run [oneSample]).isSome = true by decide)
  obtain ⟨hread, -, -, hexact⟩ := total_loads hrun oneSample.online (fun _ => ['7']) fun _ => 9
  refine ⟨st, log, hrun, ?_, ?_, hread.outside 20 (.inr (by decide))⟩
  · have hcell := hexact oneSample [] rfl 0 (by decide) (by decide) (by constructor <;> decide)
    have htotal : totalTime (lastSample 0 []) (oneSample.kcpustat 0) = 30 := by decide
    have hidle : idleTime (lastSample 0 []) (oneSample.kcpustat 0) = 60 := by decide
    rw [htotal, hidle] at hcell
    have hvalue : ⌈(100 * (30 : Nat) : ℚ) / ((30 : Nat) + (60 : Nat))⌉ = 34 := by
      rw [Int.ceil_eq_iff]
      norm_num
    exact hcell.trans hvalue
  · exact (hread.beyond 1 (by decide) (by decide)).trans (by decide)

end CorePartitioning.KTimer.Utilisation
