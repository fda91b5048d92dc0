import Mathlib.Data.List.Count

/-!
# A readers-writer lock

The lock records one entry for every read hold, so a thread may hold it
for reading more than once. A hold for writing excludes every other hold.
An operation that would block, or an unlock by a thread without a hold, is
`none`.
-/

/-- The state of the lock. -/
structure RwLock (Tid : Type) where
  readers : List Tid := []
  writer : Option Tid := none

namespace RwLock

inductive Op
  | rdlock
  | wrlock
  | unlock
  deriving DecidableEq, Repr

/-- What one thread holds: the number of its read holds, and the write hold. -/
@[ext] structure Hold where
  reads : Nat
  write : Bool
  deriving DecidableEq, Repr

def Hold.none : Hold := ⟨0, false⟩

/-- An operation of the thread itself, on what it holds. -/
def Hold.step (h : Hold) : Op → Hold
  | .rdlock => { h with reads := h.reads + 1 }
  | .wrlock => { h with write := true }
  | .unlock => if h.write then { h with write := false } else { h with reads := h.reads - 1 }

/-- A lock call and the matching unlock, without the write hold at first. -/
theorem Hold.step_unlock {h : Hold} {x : Op} (hw : h.write = false) (hx : x ≠ .unlock) :
    (h.step x).step .unlock = h := by
  obtain ⟨n, w⟩ := h
  cases hw
  cases x with
  | rdlock => rfl
  | wrlock => rfl
  | unlock => exact absurd rfl hx

variable {Tid : Type} [DecidableEq Tid]

def hold (l : RwLock Tid) (t : Tid) : Hold := ⟨l.readers.count t, l.writer == some t⟩

/-- Thread `t` executes an operation. -/
def step (l : RwLock Tid) (t : Tid) : Op → Option (RwLock Tid)
  | .rdlock => if l.writer = .none then some { l with readers := t :: l.readers } else .none
  | .wrlock =>
      if l.writer = .none ∧ l.readers = [] then some { l with writer := some t } else .none
  | .unlock =>
      if l.writer = some t then some { l with writer := .none }
      else if t ∈ l.readers then some { l with readers := l.readers.erase t }
      else .none

/-- A write hold excludes all others. -/
def Exclusive (l : RwLock Tid) : Prop := l.writer ≠ .none → l.readers = []

variable {l l' : RwLock Tid} {t : Tid} {x : Op}

/-- What an operation can do. -/
theorem step_cases (h : l.step t x = some l') :
    (x = .rdlock ∧ l.writer = .none ∧ l' = { l with readers := t :: l.readers }) ∨
    (x = .wrlock ∧ l.writer = .none ∧ l.readers = [] ∧ l' = { l with writer := some t }) ∨
    (x = .unlock ∧ l.writer = some t ∧ l' = { l with writer := .none }) ∨
    (x = .unlock ∧ l.writer ≠ some t ∧ t ∈ l.readers ∧
      l' = { l with readers := l.readers.erase t }) := by
  cases x with
  | rdlock =>
      simp only [step, Option.ite_none_right_eq_some, Option.some.injEq] at h
      exact .inl ⟨rfl, h.1, h.2.symm⟩
  | wrlock =>
      simp only [step, Option.ite_none_right_eq_some, Option.some.injEq] at h
      exact .inr (.inl ⟨rfl, h.1.1, h.1.2, h.2.symm⟩)
  | unlock =>
      unfold step at h
      by_cases hw : l.writer = some t
      · rw [if_pos hw] at h
        exact .inr (.inr (.inl ⟨rfl, hw, (Option.some.inj h).symm⟩))
      · rw [if_neg hw, Option.ite_none_right_eq_some] at h
        exact .inr (.inr (.inr ⟨rfl, hw, h.1, (Option.some.inj h.2).symm⟩))

/-- The caller's hold changes as `Hold.step` says. -/
theorem hold_step (h : l.step t x = some l') : l'.hold t = (l.hold t).step x := by
  obtain ⟨rfl, hw, rfl⟩ | ⟨rfl, hw, hr, rfl⟩ | ⟨rfl, hw, rfl⟩ | ⟨rfl, hw, ht, rfl⟩ :=
    step_cases h
  · simp [hold, Hold.step]
  · simp [hold, Hold.step]
  · simp [hold, Hold.step, hw]
  · simp [hold, Hold.step, hw]

/-- A thread with the write hold does not get past another lock call. -/
theorem write_of_step (h : l.step t x = some l') (hx : x ≠ .unlock) :
    (l.hold t).write = false := by
  obtain ⟨rfl, hw, rfl⟩ | ⟨rfl, hw, hr, rfl⟩ | ⟨rfl, hw, rfl⟩ | ⟨rfl, hw, ht, rfl⟩ :=
    step_cases h
  · simp [hold, hw]
  · simp [hold, hw]
  · exact absurd rfl hx
  · exact absurd rfl hx

/-- No operation changes what another thread holds. -/
theorem hold_step_other {u : Tid} (hu : u ≠ t) (h : l.step t x = some l') :
    l'.hold u = l.hold u := by
  obtain ⟨rfl, hw, rfl⟩ | ⟨rfl, hw, hr, rfl⟩ | ⟨rfl, hw, rfl⟩ | ⟨rfl, hw, ht, rfl⟩ :=
    step_cases h
  · simp [hold, hu.symm]
  · simp [hold, hw, hu.symm]
  · simp [hold, hw, hu.symm]
  · simp [hold, List.count_erase_of_ne hu]

theorem Exclusive.step (hl : l.Exclusive) (h : l.step t x = some l') : l'.Exclusive := by
  obtain ⟨rfl, hw, rfl⟩ | ⟨rfl, hw, hr, rfl⟩ | ⟨rfl, hw, rfl⟩ | ⟨rfl, hw, ht, rfl⟩ :=
    step_cases h
  · exact fun hne => absurd hw hne
  · exact fun _ => hr
  · exact fun hne => absurd rfl hne
  · intro hne
    show l.readers.erase t = []
    rw [hl hne]
    rfl

/-- Nobody else holds a lock that `t` holds for writing. -/
theorem Exclusive.hold_of_write (hl : l.Exclusive) (ht : (l.hold t).write = true) {u : Tid}
    (hu : u ≠ t) : l.hold u = Hold.none := by
  have hw : l.writer = some t := by simpa [hold] using ht
  have hr : l.readers = [] := hl (by simp [hw])
  simp [hold, hw, hr, hu.symm, Hold.none]

/-- The lock is free when nobody holds it. -/
theorem free_of_hold (h : ∀ t, l.hold t = Hold.none) : l.readers = [] ∧ l.writer = .none := by
  constructor
  · apply List.eq_nil_iff_forall_not_mem.mpr
    intro t ht
    have hpos := List.count_pos_iff.mpr ht
    have hzero : l.readers.count t = 0 := congrArg Hold.reads (h t)
    omega
  · cases hw : l.writer with
    | none => rfl
    | some t =>
        have hfalse : (l.writer == some t) = false := congrArg Hold.write (h t)
        simp [hw] at hfalse

end RwLock
