import CorePartitioning.KTimer.Config

/-!
# simple_proc — where the queues were last hinted

A redistribution gives one hint for every queue of one kind. What a log
says about a queue of that kind then comes from the newest redistribution
of its kind, and one of the other kind changes nothing.
-/

namespace CorePartitioning.KTimer

variable {par : Params} {log batch : List Hint} {turn : Turn} {cores cores' : Int → Prop}

/-- A hint for every queue of a kind, each to one of `cores`. -/
structure Redistributes (par : Params) (turn : Turn) (cores : Int → Prop) (batch : List Hint) :
    Prop where
  kind : ∀ h ∈ batch, h.queue.turn = turn
  irq : ∀ h ∈ batch, h.irq = par.irq h.queue
  core : ∀ h ∈ batch, cores h.core
  all : ∀ queue : Queue, queue.turn = turn → ∃ h ∈ batch, h.queue = queue

/-- The core last hinted for a queue is one of `cores`; so is the core last
hinted for its IRQ number, unless a queue of the other kind has the same. -/
structure HintedIn (par : Params) (log : List Hint) (queue : Queue) (cores : Int → Prop) :
    Prop where
  last : ∃ core, lastQueueHint log queue = some core ∧ cores core
  irq : (∀ q, par.irq q = par.irq queue → q.turn = queue.turn) →
    ∃ core, lastIrqHint log (par.irq queue) = some core ∧ cores core

/-! ## The last hint -/

theorem lastCore_append_of_mem (log : List Hint) {q : Hint → Bool} (h : ∃ x ∈ batch, q x = true) :
    ∃ x ∈ batch, q x = true ∧ lastCore q (log ++ batch) = some x.core := by
  have hsome : (batch.reverse.find? q).isSome = true := by
    rw [List.find?_isSome]
    obtain ⟨x, hx, hq⟩ := h
    exact ⟨x, List.mem_reverse.mpr hx, hq⟩
  obtain ⟨x, hx⟩ := Option.isSome_iff_exists.mp hsome
  refine ⟨x, List.mem_reverse.mp (List.mem_of_find?_eq_some hx), List.find?_some hx, ?_⟩
  rw [lastCore, List.reverse_append, List.find?_append, hx]
  rfl

theorem lastCore_append_of_not {q : Hint → Bool} (h : ∀ x ∈ batch, q x = false) :
    lastCore q (log ++ batch) = lastCore q log := by
  have hnone : batch.reverse.find? q = none := by
    rw [List.find?_eq_none]
    intro x hx
    rw [h x (List.mem_reverse.mp hx)]
    exact Bool.false_ne_true
  rw [lastCore, List.reverse_append, List.find?_append, hnone]
  rfl

theorem HintedIn.mono {queue : Queue} (h : HintedIn par log queue cores)
    (hcores : ∀ core, cores core → cores' core) : HintedIn par log queue cores' := by
  refine ⟨?_, fun hother => ?_⟩
  · obtain ⟨core, hlast, hcore⟩ := h.last
    exact ⟨core, hlast, hcores core hcore⟩
  · obtain ⟨core, hlast, hcore⟩ := h.irq hother
    exact ⟨core, hlast, hcores core hcore⟩

/-! ## After a redistribution -/

namespace Redistributes

/-- The queues of the kind are hinted to the cores of the redistribution. -/
theorem hintedIn (h : Redistributes par turn cores batch) {queue : Queue}
    (hturn : queue.turn = turn) : HintedIn par (log ++ batch) queue cores := by
  obtain ⟨x, hx, hqueue⟩ := h.all queue hturn
  refine ⟨?_, fun _ => ?_⟩
  · obtain ⟨y, hy, -, hlast⟩ := lastCore_append_of_mem log
      (q := fun y => y.queue == queue) ⟨x, hx, beq_iff_eq.mpr hqueue⟩
    exact ⟨y.core, hlast, h.core y hy⟩
  · have hirq : x.irq = par.irq queue := by rw [h.irq x hx, hqueue]
    obtain ⟨y, hy, -, hlast⟩ := lastCore_append_of_mem log
      (q := fun y => y.irq == par.irq queue) ⟨x, hx, beq_iff_eq.mpr hirq⟩
    exact ⟨y.core, hlast, h.core y hy⟩

/-- A queue of the other kind keeps its last hint. -/
theorem lastQueueHint_append (h : Redistributes par turn cores batch) {queue : Queue}
    (hturn : queue.turn ≠ turn) : lastQueueHint (log ++ batch) queue = lastQueueHint log queue := by
  refine lastCore_append_of_not fun x hx => ?_
  rw [beq_eq_false_iff_ne]
  rintro rfl
  exact hturn (h.kind x hx)

/-- The queues of the other kind stay where they are. -/
theorem keeps (h : Redistributes par turn cores batch) {queue : Queue} (hturn : queue.turn ≠ turn)
    (hin : HintedIn par log queue cores') : HintedIn par (log ++ batch) queue cores' := by
  refine ⟨?_, fun hother => ?_⟩
  · rw [h.lastQueueHint_append hturn]
    exact hin.last
  · have hlast : lastIrqHint (log ++ batch) (par.irq queue) = lastIrqHint log (par.irq queue) := by
      refine lastCore_append_of_not fun x hx => ?_
      rw [beq_eq_false_iff_ne]
      intro hirq
      rw [h.irq x hx] at hirq
      exact hturn ((hother _ hirq).symm.trans (h.kind x hx))
    rw [hlast]
    exact hin.irq hother

end Redistributes

/-! ## The redistribution loops -/

/-- One hint a queue, in the order of the array. -/
def hintAll (par : Params) {n : Nat} (queue : Fin n → Queue) (core : Fin n → Int) : List Hint :=
  (List.finRange n).map fun j => ⟨queue j, par.irq (queue j), core j⟩

theorem redistributes_hintAll {n : Nat} {queue : Fin n → Queue} {core : Fin n → Int}
    (hturn : ∀ j, (queue j).turn = turn) (hall : ∀ q, q.turn = turn → ∃ j, queue j = q)
    (hcore : ∀ j, cores (core j)) :
    Redistributes par turn cores (hintAll par queue core) := by
  have hmem : ∀ h ∈ hintAll par queue core, ∃ j, h = ⟨queue j, par.irq (queue j), core j⟩ := by
    intro h hh
    obtain ⟨j, -, rfl⟩ := List.mem_map.mp hh
    exact ⟨j, rfl⟩
  refine ⟨fun h hh => ?_, fun h hh => ?_, fun h hh => ?_, fun q hq => ?_⟩
  · obtain ⟨j, rfl⟩ := hmem h hh
    exact hturn j
  · obtain ⟨j, rfl⟩ := hmem h hh
    rfl
  · obtain ⟨j, rfl⟩ := hmem h hh
    exact hcore j
  · obtain ⟨j, rfl⟩ := hall q hq
    exact ⟨_, List.mem_map_of_mem (List.mem_finRange j), rfl⟩

/-- The core of a queue in the newest redistribution of its kind. -/
theorem lastQueueHint_hintAll {n : Nat} {queue : Fin n → Queue} (hinj : queue.Injective)
    (core : Fin n → Int) (j : Fin n) :
    lastQueueHint (log ++ hintAll par queue core) (queue j) = some (core j) := by
  have hmem : (⟨queue j, par.irq (queue j), core j⟩ : Hint) ∈ hintAll par queue core :=
    List.mem_map_of_mem (List.mem_finRange j)
  obtain ⟨y, hy, hqueue, hlast⟩ := lastCore_append_of_mem log
    (q := fun y => y.queue == queue j) ⟨_, hmem, beq_self_eq_true _⟩
  obtain ⟨i, -, rfl⟩ := List.mem_map.mp hy
  obtain rfl : i = j := hinj (beq_iff_eq.mp hqueue)
  exact hlast

/-- The loop with a cursor for the core. -/
theorem zipWith_hint {n : Nat} (queue : Fin n → Queue) {walk : List Int} (hlen : walk.length = n) :
    (List.finRange n).zipWith (fun j core => (⟨queue j, par.irq (queue j), core⟩ : Hint)) walk
      = hintAll par queue fun j => walk[j] := by
  refine List.ext_getElem (by simp [hintAll, hlen]) fun i h₁ h₂ => ?_
  simp [hintAll]

theorem redistributes_blk {core : Fin BLK_QUEUES → Int} (hcore : ∀ j, cores (core j)) :
    Redistributes par .blk cores (hintAll par .blk core) := by
  refine redistributes_hintAll (fun _ => rfl) (fun q hq => ?_) hcore
  cases q with
  | blk j => exact ⟨j, rfl⟩
  | net j => cases hq

theorem redistributes_net {core : Fin NET_QUEUES → Int} (hcore : ∀ j, cores (core j)) :
    Redistributes par .net cores (hintAll par .net core) := by
  refine redistributes_hintAll (fun _ => rfl) (fun q hq => ?_) hcore
  cases q with
  | blk j => cases hq
  | net j => exact ⟨j, rfl⟩

end CorePartitioning.KTimer
