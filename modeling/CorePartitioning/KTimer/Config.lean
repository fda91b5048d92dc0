import CorePartitioning.Lib.RoundRobin

/-!
# simple_proc — constants, boundaries and IRQ hints

The parts of `simple_proc_ktimer/simple_proc.c` that every partitioning
mode shares: the macros, the per-socket boundaries, the counted loop that
sums `p_dynamic`, C's integer division, and the effect of
`irq_set_affinity_hint`.

Integers are `Int`: the boundaries stay within the core numbers and a
group's load sum within `100 * MAX_CPUS`, far from the ends of `int`.
`p_dynamic` is a function on ALL indices, so that a read outside the array
is a read of an arbitrary value and not of a convenient one.
-/

namespace CorePartitioning.KTimer

/-! ## Macros -/

abbrev MAX_CPUS : Nat := 20
abbrev T_HIGH : Int := 70
abbrev T_LOW : Int := 30
abbrev T_CHANGE : Int := 20
abbrev BLK_END : Int := 19
abbrev NET_START : Int := 10
abbrev BLK_QUEUES : Nat := 20
abbrev NET_QUEUES : Nat := 8
abbrev NUMBER_OF_SOCKETS : Nat := 2

abbrev NET_QUEUE_INDEX : Nat := 0
abbrev NET_SYS_INDEX : Nat := 1
abbrev APP_INDEX : Nat := 2
abbrev BLK_INDEX : Nat := 3

/-- A NUMA socket, the index of the `_per` arrays. -/
abbrev Socket := Fin NUMBER_OF_SOCKETS

/-- The order of the loops `for (i = 1; i <= NUMBER_OF_SOCKETS; i++)`, whose
bodies work on socket `NUMBER_OF_SOCKETS - i`. -/
def socketLoop : List Socket := [1, 0]

/-- Socket `NUMBER_OF_SOCKETS - k - 1`, as the redistribution loops index. -/
def socketAt (k : Nat) : Socket :=
  ⟨NUMBER_OF_SOCKETS - k - 1, by simp only [NUMBER_OF_SOCKETS]; omega⟩

/-- The six boundaries of one socket: cell `s` of `net_start_per`,
`net_end_per`, `app_start_per`, `app_end_per`, `blk_start_per` and
`blk_end_per`. -/
@[ext] structure Bounds where
  net_start : Int
  net_end : Int
  app_start : Int
  app_end : Int
  blk_start : Int
  blk_end : Int
  deriving DecidableEq, Repr

/-- `dynamic_turn`: 0 for blk, 1 for net. -/
inductive Turn where
  | blk | net
  deriving DecidableEq, Repr

/-- The turn of the next tick. -/
def Turn.next : Turn → Turn
  | .blk => .net
  | .net => .blk

/-! ## C arithmetic and loops -/

/-- C's `a / b` on `int`: truncation, and a trap (`none`) on a zero
divisor — in a timer handler that is a kernel panic. -/
def cdiv (a b : Int) : Option Int := if b = 0 then none else some (a.tdiv b)

theorem cdiv_eq_some {a b : Int} (h : b ≠ 0) : cdiv a b = some (a.tdiv b) := by
  simp [cdiv, h]

/-- C's `a % b` on `int`, a trap like `cdiv`. -/
def cmod (a b : Int) : Option Int := if b = 0 then none else some (a.tmod b)

theorem cmod_eq_some {a b : Int} (h : b ≠ 0) : cmod a b = some (a.tmod b) := by
  simp [cmod, h]

/-- What a utilisation loop leaves behind: the sum, the core counter, and
the indices at which it read `p_dynamic`. -/
structure Load where
  util : Int
  core_counter : Int
  reads : List Int

/-- `for (j = lo; j < hi; j++) { util += p_dynamic[j]; counter = counter + 1; }`.
The loops written with `j <= end` are the case `hi = end + 1`. -/
def accumulate (p_dynamic : Int → Int) (lo hi : Int) : Load :=
  (Int.range lo hi).foldl
    (fun a j => ⟨a.util + p_dynamic j, a.core_counter + 1, a.reads ++ [j]⟩) ⟨0, 0, []⟩

theorem accumulate_foldl (p_dynamic : Int → Int) (js : List Int) : ∀ a : Load,
    js.foldl (fun a j => (⟨a.util + p_dynamic j, a.core_counter + 1, a.reads ++ [j]⟩ : Load)) a
      = ⟨a.util + (js.map p_dynamic).sum, a.core_counter + js.length, a.reads ++ js⟩ := by
  induction js with
  | nil => intro a; simp
  | cons j js ih =>
      intro a
      rw [List.foldl_cons, ih]
      simp only [List.map_cons, List.sum_cons, List.length_cons, List.append_assoc,
        List.cons_append, List.nil_append, Load.mk.injEq, and_true]
      push_cast
      constructor <;> ring

/-- The loop's result in closed form. -/
theorem accumulate_eq (p_dynamic : Int → Int) {lo hi : Int} (h : lo ≤ hi) :
    accumulate p_dynamic lo hi
      = ⟨∑ j ∈ Finset.Ico lo hi, p_dynamic j, hi - lo, Int.range lo hi⟩ := by
  have hlen : ((hi - lo).toNat : Int) = hi - lo := Int.toNat_of_nonneg (by omega)
  rw [accumulate, accumulate_foldl, IntRange.sum_range, IntRange.length_range, hlen]
  simp

/-! ## Affinity hints -/

/-- The module parameters `irq_blk[BLK_QUEUES]` and `irq_net[NET_QUEUES]`. -/
structure Params where
  irq_blk : Fin BLK_QUEUES → Int
  irq_net : Fin NET_QUEUES → Int

/-- The arrays when the module is loaded without `irq_blk=` and `irq_net=`. -/
def Params.unset : Params := ⟨fun _ => 0, fun _ => 0⟩

/-- Which queue array an IRQ number was taken from. -/
inductive Queue where
  | blk (j : Fin BLK_QUEUES)
  | net (j : Fin NET_QUEUES)
  deriving DecidableEq, Repr

/-- The turn in which the queue is redistributed. -/
def Queue.turn : Queue → Turn
  | .blk _ => .blk
  | .net _ => .net

/-- The IRQ number of a queue. -/
def Params.irq (par : Params) : Queue → Int
  | .blk j => par.irq_blk j
  | .net j => par.irq_net j

/-- One `cpumask_clear; cpumask_set_cpu(core, ..); irq_set_affinity_hint(irq, ..)`:
the mask holds exactly `core` when the call is made. -/
structure Hint where
  queue : Queue
  irq : Int
  core : Int
  deriving DecidableEq, Repr

/-- The core of the last hint of the log that satisfies `q`. -/
def lastCore (q : Hint → Bool) (log : List Hint) : Option Int :=
  (log.reverse.find? q).map Hint.core

/-- The core last hinted for a queue. -/
def lastQueueHint (log : List Hint) (queue : Queue) : Option Int :=
  lastCore (fun h => h.queue == queue) log

/-- The core last hinted for an IRQ number, from whichever queue. -/
def lastIrqHint (log : List Hint) (irq : Int) : Option Int :=
  lastCore (fun h => h.irq == irq) log

theorem find?_reverse_of_last {α : Type} {q : α → Bool} {l : List α} {j : Nat} {a : α}
    (hj : l[j]? = some a) (ha : q a = true)
    (hlater : ∀ i b, j < i → l[i]? = some b → q b = false) :
    l.reverse.find? q = some a := by
  induction l generalizing j with
  | nil => simp at hj
  | cons x xs ih =>
      rw [List.reverse_cons, List.find?_append]
      cases j with
      | zero =>
          have hx : x = a := by simpa using hj
          subst hx
          have hnone : xs.reverse.find? q = none := by
            rw [List.find?_eq_none]
            intro b hb
            obtain ⟨i, hi⟩ := List.getElem?_of_mem (List.mem_reverse.mp hb)
            have := hlater (i + 1) b (by omega) (by simpa using hi)
            simp [this]
          simp [hnone, ha]
      | succ j =>
          have hxs := ih (j := j) (by simpa using hj)
            (fun i b hi hb => hlater (i + 1) b (by omega) (by simpa using hb))
          simp [hxs]

/-- The last matching hint of the newest batch decides. -/
theorem lastCore_append {q : Hint → Bool} {log batch : List Hint} {j : Nat} {h : Hint}
    (hj : batch[j]? = some h) (hq : q h = true)
    (hlater : ∀ i h', j < i → batch[i]? = some h' → q h' = false) :
    lastCore q (log ++ batch) = some h.core := by
  rw [lastCore, List.reverse_append, List.find?_append,
    find?_reverse_of_last hj hq hlater]
  rfl

end CorePartitioning.KTimer
