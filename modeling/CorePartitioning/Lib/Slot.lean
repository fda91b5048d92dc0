import Mathlib.Logic.Function.Basic

/-!
# A one-slot buffer under two semaphores

Producers pass `wait empty`, write the slot and `post full`; consumers pass
`wait full`, read the slot and `post empty`. At any time the slot is in one
of six situations, `Holder`, and `Represents` says how the two counters and
the places of all parties determine it. The write and the read are steps of
their own, between the wait and the post.

The construction is symmetric: exchanging the semaphores exchanges the
roles (`Represents.swap`), so every rule for consumers is the rule for
producers read backwards.
-/

namespace Slot

variable {P C : Type*}

/-- Who has the slot. -/
inductive Holder (P C : Type*)
  | free
  | filling (p : P)
  | filled (p : P)
  | ready
  | draining (q : C)
  | drained (q : C)

/-- Where a party stands: not between its wait and its post, or there and
before or after its copy. -/
inductive Place
  | away
  | before
  | after
  deriving DecidableEq

namespace Holder

def emptyCount : Holder P C → Nat
  | free => 1
  | _ => 0

def fullCount : Holder P C → Nat
  | ready => 1
  | _ => 0

/-- The slot holds a value that was written and not yet read. -/
def loaded : Holder P C → Bool
  | filled _ | ready | draining _ => true
  | _ => false

/-- The situation with producers and consumers exchanged. -/
def swap : Holder P C → Holder C P
  | free => ready
  | filling p => draining p
  | filled p => drained p
  | ready => free
  | draining q => filling q
  | drained q => filled q

theorem eq_free {h : Holder P C} (hc : 0 < h.emptyCount) : h = free := by
  cases h <;> simp [emptyCount] at hc ⊢

@[simp] theorem swap_swap (h : Holder P C) : h.swap.swap = h := by
  cases h <;> rfl

@[simp] theorem emptyCount_swap (h : Holder P C) : h.swap.emptyCount = h.fullCount := by
  cases h <;> rfl

@[simp] theorem fullCount_swap (h : Holder P C) : h.swap.fullCount = h.emptyCount := by
  cases h <;> rfl

theorem swap_eq_iff {h : Holder P C} {k : Holder C P} : h.swap = k ↔ h = k.swap := by
  constructor
  · rintro rfl
    simp
  · rintro rfl
    simp

end Holder

/-- The counters and the places of all parties that go with a situation. -/
structure Represents (h : Holder P C) (empty full : Nat) (prod : P → Place)
    (cons : C → Place) : Prop where
  empty_eq : empty = h.emptyCount
  full_eq : full = h.fullCount
  filling_iff : ∀ p, prod p = .before ↔ h = .filling p
  filled_iff : ∀ p, prod p = .after ↔ h = .filled p
  draining_iff : ∀ q, cons q = .before ↔ h = .draining q
  drained_iff : ∀ q, cons q = .after ↔ h = .drained q

theorem represents_free :
    Represents (.free : Holder P C) 1 0 (fun _ => .away) (fun _ => .away) :=
  ⟨rfl, rfl, by simp, by simp, by simp, by simp⟩

variable {h : Holder P C} {empty full : Nat} {prod : P → Place} {cons : C → Place}

theorem Represents.swap (r : Represents h empty full prod cons) :
    Represents h.swap full empty cons prod where
  empty_eq := by simpa using r.full_eq
  full_eq := by simpa using r.empty_eq
  filling_iff q := by rw [Holder.swap_eq_iff]; exact r.draining_iff q
  filled_iff q := by rw [Holder.swap_eq_iff]; exact r.drained_iff q
  draining_iff p := by rw [Holder.swap_eq_iff]; exact r.filling_iff p
  drained_iff p := by rw [Holder.swap_eq_iff]; exact r.filled_iff p

/-- `wait empty` passes only on a free slot. -/
theorem Represents.free_of_pos (r : Represents h empty full prod cons)
    (hpos : 0 < empty) : h = .free :=
  Holder.eq_free (r.empty_eq ▸ hpos)

/-- `wait full` passes only on a ready slot. -/
theorem Represents.ready_of_pos (r : Represents h empty full prod cons)
    (hpos : 0 < full) : h = .ready := by
  have hs := r.swap.free_of_pos hpos
  rwa [Holder.swap_eq_iff] at hs

/-- The slot is loaded when a producer has written and not posted, the
value is announced, or a consumer has taken it and not read. -/
theorem Represents.loaded_iff (r : Represents h empty full prod cons) :
    h.loaded = true ↔
      (∃ p, prod p = .after) ∨ 0 < full ∨ ∃ q, cons q = .before := by
  simp only [r.filled_iff, r.draining_iff, r.full_eq]
  cases h <;> simp [Holder.loaded, Holder.fullCount]

/-! ## Producers -/

theorem update_eq_iff [DecidableEq P] {p p' : P} {x y : Place} :
    Function.update prod p x p' = y ↔ p = p' ∧ x = y ∨ p ≠ p' ∧ prod p' = y := by
  by_cases hp : p = p'
  · simp [hp]
  · simp [hp, Ne.symm hp]

section Producer

variable [DecidableEq P] (r : Represents h empty full prod cons)
include r

theorem Represents.claim (p : P) (hpos : 0 < empty) :
    Represents (.filling p) (empty - 1) full (Function.update prod p .before) cons := by
  obtain rfl := r.free_of_pos hpos
  obtain ⟨he, hf, h1, h2, h3, h4⟩ := r
  refine ⟨by simp [he, Holder.emptyCount], by simp [hf, Holder.fullCount], ?_, ?_, ?_, ?_⟩
  · intro p'
    simp [update_eq_iff, h1]
  · intro p'
    simp [update_eq_iff, h2]
  · simpa using h3
  · simpa using h4

theorem Represents.write {p : P} (hp : prod p = .before) :
    Represents (.filled p) empty full (Function.update prod p .after) cons := by
  obtain rfl := (r.filling_iff p).mp hp
  obtain ⟨he, hf, h1, h2, h3, h4⟩ := r
  refine ⟨by simp [he, Holder.emptyCount], by simp [hf, Holder.fullCount], ?_, ?_, ?_, ?_⟩
  · intro p'
    simp [update_eq_iff, h1]
  · intro p'
    simp [update_eq_iff, h2]
  · simpa using h3
  · simpa using h4

theorem Represents.publish {p : P} (hp : prod p = .after) :
    Represents .ready empty (full + 1) (Function.update prod p .away) cons := by
  obtain rfl := (r.filled_iff p).mp hp
  obtain ⟨he, hf, h1, h2, h3, h4⟩ := r
  refine ⟨by simp [he, Holder.emptyCount], by simp [hf, Holder.fullCount], ?_, ?_, ?_, ?_⟩
  · intro p'
    simp [update_eq_iff, h1]
  · intro p'
    simp [update_eq_iff, h2]
  · simpa using h3
  · simpa using h4

end Producer

/-! ## Consumers -/

section Consumer

variable [DecidableEq C] (r : Represents h empty full prod cons)
include r

theorem Represents.take (q : C) (hpos : 0 < full) :
    Represents (.draining q) empty (full - 1) prod (Function.update cons q .before) :=
  (r.swap.claim q hpos).swap

theorem Represents.read {q : C} (hq : cons q = .before) :
    Represents (.drained q) empty full prod (Function.update cons q .after) :=
  (r.swap.write hq).swap

theorem Represents.release {q : C} (hq : cons q = .after) :
    Represents .free (empty + 1) full prod (Function.update cons q .away) :=
  (r.swap.publish hq).swap

end Consumer

end Slot
