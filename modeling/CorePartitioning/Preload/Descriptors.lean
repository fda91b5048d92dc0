import CorePartitioning.Preload.Carried

/-!
# ld_preload.c — the descriptors of the process

What the log tells about a descriptor: whether it is open, whether it has
reached the application, whether the application has it, and whether it has
been closed or shut down since it was given. The kernel gives a descriptor
that is not open; the wrapper of the creating call passes it on, directly or
through an entry's thread; the application closes it. At every moment at
most one of them has it.
-/

namespace CorePartitioning.Preload

/-! ## What the log tells -/

/-- The seven calls that make or end entries. -/
def Syscall.manages : Syscall → Bool
  | .socket .. | .open .. | .openat .. | .accept .. | .epoll_create .. | .close ..
  | .shutdown .. => true
  | _ => false

def Syscall.closes : Syscall → Option CInt
  | .close fd => some fd
  | _ => none

def Syscall.shuts : Syscall → Option CInt
  | .shutdown fd _ => some fd
  | _ => none

/-- The descriptor that an original call gives. -/
def Syscall.gives (c : Syscall) (w : Word) : Option CInt :=
  if c.creates then newDescriptor (w.setWidth 32) else none

structure Descriptor (Tid : Type) where
  opened : Bool := false
  /-- the creating call has returned it -/
  passed : Bool := false
  /-- the creating call has returned it, `close` has not been called -/
  owned : Bool := false
  /-- closed, or shut down by a call made after the creating call returned -/
  retired : Bool := false
  /-- the threads that called `shutdown` after the creating call returned -/
  shutting : Tid → Bool := fun _ => false

variable {Tid : Type} [DecidableEq Tid]

def Descriptor.step (fd : CInt) (d : Descriptor Tid) : LogEntry Tid → Descriptor Tid
  | .issued t c =>
      if c.closes = some fd then { d with owned := false }
      else if c.shuts = some fd then { d with shutting := Function.update d.shutting t d.passed }
      else d
  | .performed t c w =>
      if c.gives w = some fd then
        { d with opened := true, passed := false, retired := false, shutting := fun _ => false }
      else if c.closes = some fd then { d with opened := false, retired := true }
      else if c.shuts = some fd ∧ t.any d.shutting = true then { d with retired := true }
      else d
  | .returned _ c a =>
      if c.creates = true ∧ 0 < fd.toInt ∧ a = fd.signExtend 64 then
        { d with passed := true, owned := true }
      else d

/-- The descriptor after all that is in the log. -/
def descriptor (log : List (LogEntry Tid)) (fd : CInt) : Descriptor Tid :=
  log.foldl (Descriptor.step fd) {}

theorem descriptor_append (log : List (LogEntry Tid)) (x : LogEntry Tid) (fd : CInt) :
    descriptor (log ++ [x]) fd = (descriptor log fd).step fd x := by
  simp [descriptor]

namespace Descriptor

variable {fd : CInt} {d : Descriptor Tid} {t u : Tid} {c : Syscall} {w a : Word}

omit [DecidableEq Tid] in
theorem gives_eq_some (h : c.gives w = some fd) : c.creates = true ∧ fd = w.setWidth 32 := by
  simp only [Syscall.gives, Option.ite_none_right_eq_some] at h
  exact ⟨h.1, (newDescriptor_eq h.2).1⟩

omit [DecidableEq Tid] in
theorem closes_eq_none (h : c.terminates = false) : c.closes = none := by
  cases c <;> first | rfl | cases h

@[simp] theorem opened_issued : (d.step fd (.issued t c)).opened = d.opened := by
  simp only [step]
  split
  · rfl
  · split <;> rfl

@[simp] theorem passed_issued : (d.step fd (.issued t c)).passed = d.passed := by
  simp only [step]
  split
  · rfl
  · split <;> rfl

@[simp] theorem retired_issued : (d.step fd (.issued t c)).retired = d.retired := by
  simp only [step]
  split
  · rfl
  · split <;> rfl

theorem owned_issued :
    (d.step fd (.issued t c)).owned = true ↔ d.owned = true ∧ c.closes ≠ some fd := by
  simp only [step]
  split
  · simp [*]
  · split <;> simp [*]

/-- A call is recorded as one that shuts down what the application was given. -/
theorem shutting_issued (h : (d.step fd (.issued t c)).shutting u = true) :
    d.shutting u = true ∨ u = t ∧ c.shuts = some fd ∧ d.passed = true := by
  simp only [step] at h
  split at h
  · exact .inl h
  · split at h
    · have hu : Function.update d.shutting t d.passed u = true := h
      by_cases hut : u = t
      · subst hut
        rw [Function.update_self] at hu
        exact .inr ⟨rfl, ‹_›, hu⟩
      · rw [Function.update_of_ne hut] at hu
        exact .inl hu
    · exact .inl h

@[simp] theorem owned_performed {t : Option Tid} :
    (d.step fd (.performed t c w)).owned = d.owned := by
  simp only [step]
  split
  · rfl
  · split
    · rfl
    · split <;> rfl

theorem opened_performed {t : Option Tid} :
    (d.step fd (.performed t c w)).opened = true ↔
      c.gives w = some fd ∨ d.opened = true ∧ c.closes ≠ some fd := by
  simp only [step]
  split
  · simp [*]
  · split
    · simp [*]
    · split <;> simp [*]

theorem shutting_performed {t : Option Tid}
    (h : (d.step fd (.performed t c w)).shutting u = true) :
    d.shutting u = true ∧ c.gives w ≠ some fd := by
  simp only [step] at h
  split at h
  · cases h
  · rename_i hgives
    split at h
    · exact ⟨h, hgives⟩
    · split at h <;> exact ⟨h, hgives⟩

theorem passed_performed {t : Option Tid} (h : (d.step fd (.performed t c w)).passed = true) :
    d.passed = true ∧ c.gives w ≠ some fd := by
  simp only [step] at h
  split at h
  · cases h
  · rename_i hgives
    split at h
    · exact ⟨h, hgives⟩
    · split at h <;> exact ⟨h, hgives⟩

/-- What retires a descriptor. -/
theorem retired_performed {t : Option Tid} (h : (d.step fd (.performed t c w)).retired = true) :
    c.gives w ≠ some fd ∧
      (d.retired = true ∨ c.closes = some fd ∨
        c.shuts = some fd ∧ ∃ u, t = some u ∧ d.shutting u = true) := by
  simp only [step] at h
  split at h
  · cases h
  · rename_i hgives
    refine ⟨hgives, ?_⟩
    split at h
    · exact .inr (.inl ‹_›)
    · split at h
      · rename_i hshuts
        obtain ⟨u, hu, hshutting⟩ := (Option.any_eq_true _ _).mp hshuts.2
        exact .inr (.inr ⟨hshuts.1, u, hu, hshutting⟩)
      · exact .inl h

@[simp] theorem opened_returned : (d.step fd (.returned t c a)).opened = d.opened := by
  simp only [step]
  split <;> rfl

@[simp] theorem retired_returned : (d.step fd (.returned t c a)).retired = d.retired := by
  simp only [step]
  split <;> rfl

@[simp] theorem shutting_returned : (d.step fd (.returned t c a)).shutting = d.shutting := by
  simp only [step]
  split <;> rfl

theorem passed_returned :
    (d.step fd (.returned t c a)).passed = true ↔
      d.passed = true ∨ c.creates = true ∧ 0 < fd.toInt ∧ a = fd.signExtend 64 := by
  simp only [step]
  split <;> simp [*]

theorem owned_returned :
    (d.step fd (.returned t c a)).owned = true ↔
      d.owned = true ∨ c.creates = true ∧ 0 < fd.toInt ∧ a = fd.signExtend 64 := by
  simp only [step]
  split <;> simp [*]

end Descriptor

namespace Machine

/-! ## The assumptions -/

/-- The kernel gives a descriptor that is not open, and not 0. -/
def GivesFree (log : List (LogEntry Tid)) (c : Syscall) (w : Word) : Prop :=
  ∀ fd ∈ c.gives w, fd ≠ 0 ∧ (descriptor log fd).opened = false

/-- The original call that an application thread performs next. -/
def nextOriginal : Option (Syscall × Wrapper Word) → Option Syscall
  | some (_, .op (.original c) _) => some c
  | _ => none

/-- The application makes calls of the seven kinds and closes what it owns;
the kernel gives free descriptors. -/
def Disciplined (s : State Tid) : Label Tid → Prop
  | .inl (.call _ c) =>
      c.manages = true ∧ ∀ fd ∈ c.closes, (descriptor s.shared.log fd).owned = true
  | .inl (.step t e) => ∀ c ∈ nextOriginal (s.thread t), GivesFree s.shared.log c e.result
  | .inr (.switch p o) =>
      ∀ c ∈ dispatch (s.shared.channel p).send_data, GivesFree s.shared.log c o.result
  | .inr _ => True

-- not the instance that goes through all descriptors
instance (log : List (LogEntry Tid)) (c : Syscall) (w : Word) : Decidable (GivesFree log c w) :=
  Option.decidableForallMem _

instance (s : State Tid) (l : Label Tid) : Decidable (Disciplined s l) :=
  match l with
  | .inl (.call _ c) =>
      have := Option.decidableForallMem c.closes
        (p := fun fd => (descriptor s.shared.log fd).owned = true)
      inferInstanceAs (Decidable (_ ∧ _))
  | .inl (.step _ _) => inferInstanceAs (Decidable (∀ c ∈ _, _))
  | .inr (.switch _ _) => inferInstanceAs (Decidable (∀ c ∈ _, _))
  | .inr (.start ..) | .inr (.recv_from_app _) | .inr (.send_to_app _) =>
      inferInstanceAs (Decidable True)

end Machine

end CorePartitioning.Preload
