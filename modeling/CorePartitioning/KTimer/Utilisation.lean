import CorePartitioning.KTimer.Config
import CorePartitioning.Lib.Ticks

/-!
# simple_proc — utilisation of the CPUs

The first part of `kerneltimer_timeover`, before any mode: the counters of
every online CPU are sampled, subtracted from those of the tick before in
`u64`, and turned into percentages. The quotient that is computed is the
idle share, rounded down; what is left of 100 is the busy share, rounded up.
-/

namespace CorePartitioning.KTimer.Utilisation

/-! ## The sampled counters -/

abbrev U64 := BitVec 64

/-- A CPU; the machine has no more of them than the arrays have cells. -/
abbrev Cpu := Fin MAX_CPUS

/-- The counters of `struct proc_stat` that the handler copies. -/
structure proc_stat where
  user : U64
  nice : U64
  system : U64
  idle : U64
  iowait : U64
  irq : U64
  softirq : U64
  deriving DecidableEq, Repr

/-- What the arrays hold when the module is loaded. -/
def proc_stat.zero : proc_stat := ⟨0, 0, 0, 0, 0, 0, 0⟩

/-- Cell `i` of `p_user`, `p_system`, `p_irq`, `p_total` and `p_dynamic`. -/
structure Percents where
  p_user : Int
  p_system : Int
  p_irq : Int
  p_total : Int
  p_dynamic : Int
  deriving DecidableEq, Repr

structure State where
  before : Cpu → proc_stat
  after : Cpu → proc_stat
  p : Cpu → Percents

def init : State := ⟨fun _ => .zero, fun _ => .zero, fun _ => ⟨0, 0, 0, 0, 0⟩⟩

/-- What a tick reads: the CPUs that are online and their counters. -/
structure Sample where
  online : Cpu → Bool
  kcpustat : Cpu → proc_stat

/-! ## The computation -/

/-- `a / b` on `u64`, a trap on a zero divisor. -/
def udiv (a b : U64) : Option U64 := if b = 0 then none else some (a / b)

/-- `temp = 100 - ((idle * 100) / (x + idle))` and what is stored of it. -/
def percent (idle x : U64) : Option Int := do
  let q ← udiv (idle * 100) (x + idle)
  let temp : U64 := 100 - q
  return if temp < 1 then 0 else (temp.setWidth 32).toInt

/-- The body of `for_each_online_cpu`, from the two samples of the CPU. -/
def percents (before after : proc_stat) : Option Percents := do
  let user := after.user - before.user
  let system := after.system - before.system
  let idle := after.idle - before.idle
  let irq := after.irq - before.irq + after.softirq - before.softirq
  let total := user + system + irq
  let dynamic := system + irq + user
  let idle := if idle = 0 then 1 else idle
  let p_user ← percent idle user
  let p_system ← percent idle system
  let p_irq ← percent idle irq
  let p_total ← percent idle total
  let p_dynamic ← percent idle dynamic
  return ⟨p_user, p_system, p_irq, p_total, p_dynamic⟩

/-- One iteration of `for_each_online_cpu(i)`. -/
def sampleCpu (s : Sample) (st : State) (i : Cpu) : Option State := do
  let after := Function.update st.after i (s.kcpustat i)
  let p ← percents (st.before i) (after i)
  return { before := Function.update st.before i (after i), after := after,
           p := Function.update st.p i p }

/-- The online CPUs, in the order of the loop. -/
def Sample.cpus (s : Sample) : List Cpu := (List.finRange MAX_CPUS).filter s.online

def sample (s : Sample) (st : State) : Option State := s.cpus.foldlM (sampleCpu s) st

/-- The state after the ticks, newest first, and what each of them found. -/
def run : List Sample → Option (State × List (Cpu → Percents)) :=
  Ticks.run (fun s st => (sample s st).map fun st' => (st', [st'.p])) init

/-- The counters of a CPU when it was last online. -/
def lastSample (i : Cpu) : List Sample → proc_stat
  | [] => .zero
  | s :: ss => if s.online i then s.kcpustat i else lastSample i ss

/-! ## Shares of a hundred -/

/-- The percentage `100 * x / (x + d)`, rounded up. -/
def busyShare (x d : Nat) : Int := ⌈(100 * x : ℚ) / (x + d)⌉

section Share

variable {x y d : Nat} (hd : 0 < d)

include hd

/-- The busy share rounded up is what the idle share rounded down leaves. -/
theorem busyShare_eq : busyShare x d = 100 - (100 * d / (x + d) : Nat) := by
  have hpos : 0 < x + d := by omega
  have hlow : 100 * d / (x + d) * (x + d) ≤ 100 * d := Nat.div_mul_le_self _ _
  have hhigh : 100 * d < (100 * d / (x + d) + 1) * (x + d) :=
    Nat.lt_mul_of_div_lt (Nat.lt_succ_self _) hpos
  have hposQ : (0 : ℚ) < x + d := by exact_mod_cast hpos
  generalize 100 * d / (x + d) = q at hlow hhigh
  have hlowQ : (q * (x + d) : ℚ) ≤ 100 * d := by exact_mod_cast hlow
  have hhighQ : (100 * d : ℚ) < (q + 1) * (x + d) := by exact_mod_cast hhigh
  rw [busyShare, Int.ceil_eq_iff]
  push_cast
  constructor
  · rw [lt_div_iff₀ hposQ]
    linarith
  · rw [div_le_iff₀ hposQ]
    linarith

theorem idleShare_le : 100 * d / (x + d) ≤ 100 := by
  rw [Nat.div_le_iff_le_mul_add_pred (by omega)]
  nlinarith

theorem busyShare_nonneg : 0 ≤ busyShare x d := by
  have hle := idleShare_le (x := x) hd
  rw [busyShare_eq hd]
  omega

theorem busyShare_le : busyShare x d ≤ 100 := by
  have hnonneg : (0 : Int) ≤ (100 * d / (x + d) : Nat) := Int.natCast_nonneg _
  rw [busyShare_eq hd]
  linarith

/-- Only a CPU that did nothing has the share 0. -/
theorem busyShare_eq_zero : busyShare x d = 0 ↔ x = 0 := by
  have hle := idleShare_le (x := x) hd
  rw [busyShare_eq hd]
  constructor
  · intro hzero
    have hfull : 100 ≤ 100 * d / (x + d) := by omega
    rw [Nat.le_div_iff_mul_le (by omega)] at hfull
    omega
  · intro hx
    subst hx
    have hfull : 100 * d / (0 + d) = 100 := by
      rw [Nat.zero_add, Nat.mul_div_cancel _ hd]
    omega

/-- More work in the same idle time is a share at least as large. -/
theorem busyShare_mono (hxy : x ≤ y) : busyShare x d ≤ busyShare y d := by
  have hle : 100 * d / (y + d) ≤ 100 * d / (x + d) :=
    Nat.div_le_div_left (by omega) (by omega)
  rw [busyShare_eq hd, busyShare_eq hd]
  omega

end Share

/-! ## One percentage -/

/-- Without a wrap the code's percentage is the busy share. -/
theorem percent_eq {idle x : U64} (hpos : 0 < idle.toNat) (hidle : 100 * idle.toNat < 2 ^ 64)
    (hx : x.toNat + idle.toNat < 2 ^ 64) :
    percent idle x = some (busyShare x.toNat idle.toNat) := by
  have hsum : (x + idle).toNat = x.toNat + idle.toNat := by
    rw [BitVec.toNat_add, Nat.mod_eq_of_lt hx]
  have hne : x + idle ≠ 0 := by
    intro hzero
    rw [hzero] at hsum
    simp only [BitVec.ofNat_eq_ofNat, BitVec.toNat_ofNat, Nat.zero_mod] at hsum
    omega
  have hmul : (idle * 100).toNat = 100 * idle.toNat := by
    rw [BitVec.toNat_mul]
    show idle.toNat * 100 % 2 ^ 64 = _
    rw [Nat.mul_comm, Nat.mod_eq_of_lt hidle]
  have hquot : (idle * 100 / (x + idle)).toNat = 100 * idle.toNat / (x.toNat + idle.toNat) := by
    rw [BitVec.toNat_udiv, hmul, hsum]
  have hle := idleShare_le (x := x.toNat) hpos
  have htemp : (100 - idle * 100 / (x + idle)).toNat
      = 100 - 100 * idle.toNat / (x.toNat + idle.toNat) := by
    rw [BitVec.toNat_sub_of_le (by rw [BitVec.le_def, hquot]; exact hle), hquot]
    rfl
  have hshare := busyShare_eq (x := x.toNat) hpos
  simp only [percent, udiv, if_neg hne, Option.bind_eq_bind, Option.bind_some, Option.pure_def,
    Option.some.injEq]
  generalize 100 - idle * 100 / (x + idle) = temp at htemp
  split
  case isTrue hlt =>
    rw [BitVec.lt_def] at hlt
    simp only [BitVec.ofNat_eq_ofNat, BitVec.toNat_ofNat] at hlt
    omega
  case isFalse hge =>
    have hcast : (temp.setWidth 32).toNat = temp.toNat := by
      rw [BitVec.toNat_setWidth, Nat.mod_eq_of_lt (by omega)]
    rw [BitVec.toInt_eq_toNat_of_lt (by omega), hcast]
    omega

/-! ## One CPU -/

section Cpu

variable (before after : proc_stat)

/-- The increments of the counters between two samples. -/
def userTime : Nat := after.user.toNat - before.user.toNat

def systemTime : Nat := after.system.toNat - before.system.toNat

def irqTime : Nat :=
  (after.irq.toNat - before.irq.toNat) + (after.softirq.toNat - before.softirq.toNat)

def totalTime : Nat :=
  userTime before after + systemTime before after + irqTime before after

/-- The idle time, at least 1. -/
def idleTime : Nat := max (after.idle.toNat - before.idle.toNat) 1

/-- No counter went back, and the increments leave room for the arithmetic. -/
structure Plausible : Prop where
  user : before.user ≤ after.user
  system : before.system ≤ after.system
  idle : before.idle ≤ after.idle
  irq : before.irq ≤ after.irq
  softirq : before.softirq ≤ after.softirq
  idle_room : 100 * idleTime before after < 2 ^ 64
  user_room : userTime before after + idleTime before after < 2 ^ 64
  system_room : systemTime before after + idleTime before after < 2 ^ 64
  irq_room : irqTime before after + idleTime before after < 2 ^ 64
  total_room : totalTime before after + idleTime before after < 2 ^ 64

/-- A percentage stands for `x` busy against `d` idle. -/
structure Exact (v : Int) (x d : Nat) : Prop where
  eq : v = ⌈(100 * x : ℚ) / (x + d)⌉
  range : 0 ≤ v ∧ v ≤ 100
  zero : v = 0 ↔ x = 0

/-- The five percentages of a CPU stand for its increments. -/
structure Percents.Describe (p : Percents) : Prop where
  user : Exact p.p_user (userTime before after) (idleTime before after)
  system : Exact p.p_system (systemTime before after) (idleTime before after)
  irq : Exact p.p_irq (irqTime before after) (idleTime before after)
  total : Exact p.p_total (totalTime before after) (idleTime before after)
  dynamic : Exact p.p_dynamic (totalTime before after) (idleTime before after)
  dynamic_total : p.p_dynamic = p.p_total
  user_le : p.p_user ≤ p.p_total
  system_le : p.p_system ≤ p.p_total
  irq_le : p.p_irq ≤ p.p_total

variable {before after}

theorem idleTime_pos : 0 < idleTime before after := by
  unfold idleTime
  omega

theorem exact_busyShare (x : Nat) :
    Exact (busyShare x (idleTime before after)) x (idleTime before after) :=
  ⟨rfl, ⟨busyShare_nonneg idleTime_pos, busyShare_le idleTime_pos⟩, busyShare_eq_zero idleTime_pos⟩

/-- The idle time as the code has it, patched when it is 0. -/
theorem toNat_idle (h : Plausible before after) :
    (if after.idle - before.idle = 0 then 1 else after.idle - before.idle).toNat
      = idleTime before after := by
  have hsub : (after.idle - before.idle).toNat = after.idle.toNat - before.idle.toNat :=
    BitVec.toNat_sub_of_le h.idle
  unfold idleTime
  split
  case isTrue hzero =>
    rw [hzero] at hsub
    simp only [BitVec.ofNat_eq_ofNat, BitVec.toNat_ofNat, Nat.zero_mod] at hsub ⊢
    omega
  case isFalse hne =>
    have hpos : (after.idle - before.idle).toNat ≠ 0 := by
      intro hzero
      exact hne (BitVec.eq_of_toNat_eq hzero)
    omega

/-- `irq` adds before it subtracts, the sum is the same. -/
theorem toNat_irq (h : Plausible before after) :
    (after.irq - before.irq + after.softirq - before.softirq).toNat = irqTime before after := by
  have hirq := BitVec.toNat_sub_of_le h.irq
  have hsoftirq := BitVec.toNat_sub_of_le h.softirq
  have hroom := h.irq_room
  have hassoc : after.irq - before.irq + after.softirq - before.softirq
      = (after.irq - before.irq) + (after.softirq - before.softirq) := by
    simp only [BitVec.sub_eq_add_neg, BitVec.add_assoc]
  unfold irqTime at hroom ⊢
  rw [hassoc, BitVec.toNat_add, hirq, hsoftirq, Nat.mod_eq_of_lt (by omega)]

/-- **One CPU.** No division by zero, and percentages that describe it. -/
theorem percents_describe (h : Plausible before after) :
    ∃ p, percents before after = some p ∧ p.Describe before after := by
  have hidle := toNat_idle h
  have hirq := toNat_irq h
  have huser : (after.user - before.user).toNat = userTime before after :=
    BitVec.toNat_sub_of_le h.user
  have hsystem : (after.system - before.system).toNat = systemTime before after :=
    BitVec.toNat_sub_of_le h.system
  obtain ⟨hroom, hroomTotal⟩ := And.intro h.idle_room h.total_room
  have hd : 0 < idleTime before after := idleTime_pos
  simp only [percents]
  generalize after.user - before.user = user at huser
  generalize after.system - before.system = system at hsystem
  generalize after.irq - before.irq + after.softirq - before.softirq = irq at hirq
  generalize (if after.idle - before.idle = 0 then (1 : U64) else after.idle - before.idle) = idle
    at hidle
  have htotal : (user + system + irq).toNat = totalTime before after := by
    unfold totalTime at hroomTotal ⊢
    rw [BitVec.toNat_add, BitVec.toNat_add, huser, hsystem, hirq,
      Nat.mod_eq_of_lt (a := _ + systemTime _ _) (by omega), Nat.mod_eq_of_lt (by omega)]
  have hdynamic : system + irq + user = user + system + irq := by
    rw [BitVec.add_comm, BitVec.add_assoc]
  have hpercent : ∀ x : U64, ∀ t, x.toNat = t → t + idleTime before after < 2 ^ 64 →
      percent idle x = some (busyShare t (idleTime before after)) := by
    intro x t hx ht
    rw [percent_eq (by omega) (by omega) (by omega), hx, hidle]
  simp only [hdynamic, hpercent user _ huser h.user_room, hpercent system _ hsystem h.system_room,
    hpercent irq _ hirq h.irq_room, hpercent _ _ htotal hroomTotal, Option.bind_eq_bind,
    Option.bind_some, Option.pure_def, Option.some.injEq, exists_eq_left']
  exact
    { user := exact_busyShare _
      system := exact_busyShare _
      irq := exact_busyShare _
      total := exact_busyShare _
      dynamic := exact_busyShare _
      dynamic_total := rfl
      user_le := busyShare_mono hd (by unfold totalTime; omega)
      system_le := busyShare_mono hd (by unfold totalTime; omega)
      irq_le := busyShare_mono hd (by unfold totalTime; omega) }

end Cpu

/-! ## The loop over the online CPUs -/

/-- What the loop over `cpus` has done. -/
structure Sampled (s : Sample) (cpus : List Cpu) (st st' : State) : Prop where
  measured : ∀ i ∈ cpus, percents (st.before i) (s.kcpustat i) = some (st'.p i)
  stored : ∀ i ∈ cpus, st'.before i = s.kcpustat i
  kept : ∀ i ∉ cpus, st'.before i = st.before i ∧ st'.p i = st.p i

variable {s : Sample} {st st' : State}

theorem sampleCpu_eq_some {i : Cpu} : sampleCpu s st i = some st' ↔
    ∃ p, percents (st.before i) (s.kcpustat i) = some p ∧
      { before := Function.update st.before i (s.kcpustat i),
        after := Function.update st.after i (s.kcpustat i),
        p := Function.update st.p i p } = st' := by
  simp [sampleCpu, Option.bind_eq_some_iff]

theorem Sampled.cons {i : Cpu} {cpus : List Cpu} {st₁ : State} (hi : i ∉ cpus)
    (hstep : sampleCpu s st i = some st₁) (h : Sampled s cpus st₁ st') :
    Sampled s (i :: cpus) st st' := by
  obtain ⟨p, hp, rfl⟩ := sampleCpu_eq_some.mp hstep
  obtain ⟨hbefore, hkept⟩ := h.kept i hi
  simp only [Function.update_self] at hbefore hkept
  constructor
  · intro j hmem
    rcases List.mem_cons.mp hmem with rfl | hj
    · rw [hkept]
      exact hp
    · have hmeasured := h.measured j hj
      have hne : j ≠ i := fun heq => hi (heq ▸ hj)
      simpa only [Function.update_of_ne hne] using hmeasured
  · intro j hmem
    rcases List.mem_cons.mp hmem with rfl | hj
    · exact hbefore
    · exact h.stored j hj
  · intro j hmem
    obtain ⟨hne, hj⟩ := not_or.mp (mt List.mem_cons.mpr hmem)
    simpa only [Function.update_of_ne hne] using h.kept j hj

theorem foldlM_sampled {cpus : List Cpu} (hnodup : cpus.Nodup)
    (h : cpus.foldlM (sampleCpu s) st = some st') : Sampled s cpus st st' := by
  induction cpus generalizing st with
  | nil =>
      obtain rfl : st = st' := by simpa using h
      exact ⟨by simp, by simp, by simp⟩
  | cons i cpus ih =>
      rw [List.foldlM_cons] at h
      obtain ⟨st₁, hstep, hrest⟩ := Option.bind_eq_some_iff.mp h
      obtain ⟨hi, hnodup⟩ := List.nodup_cons.mp hnodup
      exact (ih hnodup hrest).cons hi hstep

/-- The loop returns when no CPU has a zero divisor. -/
theorem foldlM_returns {cpus : List Cpu} (hnodup : cpus.Nodup)
    (h : ∀ i ∈ cpus, ∃ p, percents (st.before i) (s.kcpustat i) = some p) :
    ∃ st', cpus.foldlM (sampleCpu s) st = some st' := by
  induction cpus generalizing st with
  | nil => exact ⟨st, rfl⟩
  | cons i cpus ih =>
      obtain ⟨hi, hnodup⟩ := List.nodup_cons.mp hnodup
      obtain ⟨p, hp⟩ := h i List.mem_cons_self
      have hstep := sampleCpu_eq_some.mpr ⟨p, hp, rfl⟩
      rw [List.foldlM_cons, hstep]
      apply ih hnodup
      intro j hj
      have hne : j ≠ i := fun heq => hi (heq ▸ hj)
      simpa only [Function.update_of_ne hne] using h j (List.mem_cons_of_mem i hj)

theorem Sample.mem_cpus {i : Cpu} : i ∈ s.cpus ↔ s.online i = true := by
  simp [Sample.cpus]

theorem Sample.nodup_cpus : s.cpus.Nodup := (List.nodup_finRange _).filter _

theorem sample_sampled (h : sample s st = some st') : Sampled s s.cpus st st' :=
  foldlM_sampled s.nodup_cpus h

/-! ## Runs -/

/-- `before` holds the last sample of every CPU. -/
theorem before_eq_lastSample {ss : List Sample} {log : List (Cpu → Percents)}
    (hrun : run ss = some (st, log)) (i : Cpu) : st.before i = lastSample i ss := by
  refine Ticks.run_keeps (P := fun ss st => st.before i = lastSample i ss) rfl ?_ hrun
  intro s ss st₁ st₂ out hbefore htick
  obtain ⟨st', hsample, heq⟩ := Option.map_eq_some_iff.mp htick
  obtain ⟨rfl, -⟩ := Prod.mk.inj heq
  have hsampled := sample_sampled hsample
  by_cases hi : s.online i = true
  · rw [lastSample, if_pos hi]
    exact hsampled.stored i (Sample.mem_cpus.mpr hi)
  · rw [lastSample, if_neg hi, ← hbefore]
    exact (hsampled.kept i fun hmem => hi (Sample.mem_cpus.mp hmem)).1

/-- **Exact percentages.** After any ticks, a CPU whose counters since its
last sample are plausible divides by no zero, and the tick leaves the
percentages that describe it; the tick returns when this holds of every
CPU that is online. -/
theorem utilisation_exact {ss : List Sample} {st : State} {log : List (Cpu → Percents)}
    (hrun : run ss = some (st, log)) (s : Sample) (i : Cpu) (hi : s.online i = true)
    (h : Plausible (lastSample i ss) (s.kcpustat i)) :
    (∃ p, percents (st.before i) (s.kcpustat i) = some p ∧
      p.Describe (lastSample i ss) (s.kcpustat i) ∧
      ∀ st', sample s st = some st' → st'.p i = p) ∧
    ((∀ j, s.online j = true → Plausible (lastSample j ss) (s.kcpustat j)) →
      ∃ st', sample s st = some st') := by
  have hbefore := before_eq_lastSample hrun
  constructor
  · obtain ⟨p, hp, hdescribe⟩ := percents_describe h
    rw [← hbefore i] at hp
    refine ⟨p, hp, hdescribe, fun st' hsample => ?_⟩
    have hmeasured := (sample_sampled hsample).measured i (Sample.mem_cpus.mpr hi)
    exact (Option.some.inj (hp.symm.trans hmeasured)).symm
  · intro hall
    apply foldlM_returns s.nodup_cpus
    intro j hj
    obtain ⟨p, hp, -⟩ := percents_describe (hall j (Sample.mem_cpus.mp hj))
    exact ⟨p, by rw [hbefore j, hp]⟩

/-- A CPU that worked for a third of its time. -/
def oneSample : Sample := ⟨fun i => i.val == 0, fun _ => ⟨10, 0, 20, 60, 0, 0, 0⟩⟩

theorem utilisation_exact_one :
    (∃ p, percents (init.before 0) (oneSample.kcpustat 0) = some p ∧
      p.Describe (lastSample 0 []) (oneSample.kcpustat 0) ∧
      ∀ st', sample oneSample init = some st' → st'.p 0 = p) ∧
    ((∀ j, oneSample.online j = true → Plausible (lastSample j []) (oneSample.kcpustat j)) →
      ∃ st', sample oneSample init = some st') :=
  utilisation_exact (show run [] = some (init, []) from rfl) oneSample 0 (by decide)
    (by constructor <;> decide)

/-- A third, rounded up. -/
example : percents .zero (oneSample.kcpustat 0) = some ⟨15, 25, 0, 34, 34⟩ := by decide

end CorePartitioning.KTimer.Utilisation
