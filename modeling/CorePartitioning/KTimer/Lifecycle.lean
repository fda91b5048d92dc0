import CorePartitioning.KTimer.AppPartition
import CorePartitioning.KTimer.Load
import CorePartitioning.KTimer.Per
import CorePartitioning.KTimer.Sampling
import CorePartitioning.KTimer.Single

/-!
# simple_proc — the timer, from load to unload

`kerneltimer_timeover` arms its own timer again when it is done, so the next
tick can run on another CPU, and nothing but that order keeps two ticks
apart. `exit_simpleproc` takes the timer off with `del_timer`, which does
not wait for a tick that runs, and then frees the manager.

The kernel's part is as documented: a timer that expires is taken off before
its function is called, and `del_timer` takes a pending timer off and does
nothing else.

A handler begins with the sampling, whose divisions can trap; the mode's
part after it never does.
-/

namespace CorePartitioning.KTimer.Lifecycle

open Load (KERNEL_TIMER_MANAGER kerneltimer_registertimer)

/-- What a call of `kerneltimer_timeover` has still to do: all of it, or its
last statement. -/
inductive Handler
  | partition
  | register
  deriving DecidableEq, Repr

/-- How far `exit_simpleproc` is. -/
inductive Exit
  | loaded
  | deleted
  | freed
  deriving DecidableEq, Repr

/-- `st` and `log` are what the ticks work on: the boundaries, and the hints
that were given. -/
structure State (S O : Type) where
  st : S
  log : List O
  ptrmng : KERNEL_TIMER_MANAGER
  handlers : List Handler
  exit : Exit
  /-- The freed manager was used, a pending timer was initialised, or a
  division trapped. A read outside an array is none of these: it gives what
  is there. -/
  fault : Bool

inductive Label (I : Type)
  | expire
  | partition (k : Nat) (i : I)
  | register (k : Nat)
  | del_timer
  | kfree

variable {I S O : Type} {tick : I → S → Option (S × List O)} {s₀ : S}

/-- The handler at `k`, if it is the one to make the step `h`. -/
def at? (s : State S O) (k : Nat) (h : Handler) : Bool :=
  decide (s.handlers[k]? = some h)

/-- The timer expires: its function is called with the manager it is in. -/
def expire (s : State S O) : Option (State S O) :=
  if s.ptrmng.timer = false then none
  else if s.exit = .freed then some { s with fault := true }
  else some { s with
    ptrmng := { s.ptrmng with timer := false }
    handlers := s.handlers ++ [.partition] }

/-- The handler but for its last statement. -/
def partition (tick : I → S → Option (S × List O)) (k : Nat) (i : I) (s : State S O) :
    Option (State S O) :=
  if at? s k .partition then
    match tick i s.st with
    | none => some { s with fault := true }
    | some (st, hints) => some { s with
        st := st
        log := s.log ++ hints
        handlers := s.handlers.set k .register }
  else none

/-- `kerneltimer_registertimer(pdata, TIME_STEP)`, and the handler returns. -/
def register (k : Nat) (s : State S O) : Option (State S O) :=
  if at? s k .register then
    if s.exit = .freed ∨ s.ptrmng.timer then some { s with fault := true }
    else some { s with
      ptrmng := kerneltimer_registertimer s.ptrmng
      handlers := s.handlers.eraseIdx k }
  else none

def del_timer (s : State S O) : Option (State S O) :=
  if s.exit = .loaded then
    some { s with ptrmng := { s.ptrmng with timer := false }, exit := .deleted }
  else none

def kfree (s : State S O) : Option (State S O) :=
  if s.exit = .deleted then some { s with exit := .freed } else none

/-- Nothing comes after a fault. -/
def step (tick : I → S → Option (S × List O)) (s : State S O) (l : Label I) :
    Option (State S O) :=
  if s.fault then none
  else match l with
    | .expire => expire s
    | .partition k i => partition tick k i s
    | .register k => register k s
    | .del_timer => del_timer s
    | .kfree => kfree s

/-- The end of `init_simpleproc`. -/
def start (s₀ : S) : State S O where
  st := s₀
  log := []
  ptrmng := kerneltimer_registertimer ⟨0, false⟩
  handlers := []
  exit := .loaded
  fault := false

/-- Every step that a state can make, and where it leads. -/
inductive Does (tick : I → S → Option (S × List O)) (s : State S O) : Label I → State S O → Prop
  | expire (hexit : s.exit ≠ .freed) (htimer : s.ptrmng.timer = true) :
      Does tick s .expire { s with
        ptrmng := { s.ptrmng with timer := false }
        handlers := s.handlers ++ [.partition] }
  | expire_freed (hexit : s.exit = .freed) (htimer : s.ptrmng.timer = true) :
      Does tick s .expire { s with fault := true }
  | partition (k : Nat) (i : I) (st : S) (hints : List O) (hat : s.handlers[k]? = some .partition)
      (htick : tick i s.st = some (st, hints)) :
      Does tick s (.partition k i) { s with
        st := st
        log := s.log ++ hints
        handlers := s.handlers.set k .register }
  | trap (k : Nat) (i : I) (hat : s.handlers[k]? = some .partition)
      (htick : tick i s.st = none) :
      Does tick s (.partition k i) { s with fault := true }
  | register (k : Nat) (hat : s.handlers[k]? = some .register) (hexit : s.exit ≠ .freed)
      (htimer : s.ptrmng.timer = false) :
      Does tick s (.register k) { s with
        ptrmng := kerneltimer_registertimer s.ptrmng
        handlers := s.handlers.eraseIdx k }
  | register_freed (k : Nat) (hat : s.handlers[k]? = some .register)
      (hbad : s.exit = .freed ∨ s.ptrmng.timer = true) :
      Does tick s (.register k) { s with fault := true }
  | del_timer (hexit : s.exit = .loaded) :
      Does tick s .del_timer { s with
        ptrmng := { s.ptrmng with timer := false }
        exit := .deleted }
  | kfree (hexit : s.exit = .deleted) : Does tick s .kfree { s with exit := .freed }

theorem at?_iff {s : State S O} {k : Nat} {h : Handler} :
    at? s k h = true ↔ s.handlers[k]? = some h := by
  simp [at?]

theorem does_of_step {s s' : State S O} {l : Label I} (h : step tick s l = some s') :
    s.fault = false ∧ Does tick s l s' := by
  unfold step at h
  split at h
  · cases h
  · rename_i hfault
    refine ⟨by simpa using hfault, ?_⟩
    cases l with
    | expire =>
        simp only [expire] at h
        split at h
        · cases h
        · rename_i htimer
          split at h
          · rename_i hexit
            cases h
            exact .expire_freed hexit (by simpa using htimer)
          · rename_i hexit
            cases h
            exact .expire hexit (by simpa using htimer)
    | partition k i =>
        simp only [partition] at h
        split at h
        · rename_i hat
          cases htick : tick i s.st with
          | none =>
              rw [htick] at h
              cases h
              exact .trap k i (at?_iff.mp hat) htick
          | some r =>
              rw [htick] at h
              cases h
              exact .partition k i r.1 r.2 (at?_iff.mp hat) htick
        · cases h
    | register k =>
        simp only [register] at h
        split at h
        · rename_i hat
          split at h
          · rename_i hbad
            cases h
            exact .register_freed k (at?_iff.mp hat) hbad
          · rename_i hok
            cases h
            obtain ⟨hexit, htimer⟩ := not_or.mp hok
            exact .register k (at?_iff.mp hat) hexit (by simpa using htimer)
        · cases h
    | del_timer =>
        simp only [del_timer] at h
        split at h
        · rename_i hexit
          cases h
          exact .del_timer hexit
        · cases h
    | kfree =>
        simp only [kfree] at h
        split at h
        · rename_i hexit
          cases h
          exact .kfree hexit
        · cases h

/-! ## One tick at a time -/

/-- The ticks that are waited for or under way: the pending timer, and the
handlers. -/
def inFlight (s : State S O) : Nat := s.ptrmng.timer.toNat + s.handlers.length

/-- There is one tick at most, and exactly one until the unload; and what the
ticks did, they did one after the other. -/
structure Inv (tick : I → S → Option (S × List O)) (s₀ : S) (s : State S O) : Prop where
  ticks : ∃ is, Ticks.run tick s₀ is = some (s.st, s.log)
  one : inFlight s ≤ 1
  loaded : s.exit = .loaded → inFlight s = 1

theorem length_eraseIdx {s : State S O} {k : Nat} {h : Handler} (hat : s.handlers[k]? = some h) :
    (s.handlers.eraseIdx k).length + 1 = s.handlers.length := by
  obtain ⟨hk, -⟩ := List.getElem?_eq_some_iff.mp hat
  rw [List.length_eraseIdx_of_lt hk]
  omega

theorem inFlight_expire {s : State S O} (htimer : s.ptrmng.timer = true) :
    inFlight { s with
      ptrmng := { s.ptrmng with timer := false }
      handlers := s.handlers ++ [.partition] } = inFlight s := by
  simp [inFlight, htimer, Nat.add_comm]

theorem inFlight_register {s : State S O} {k : Nat} (hat : s.handlers[k]? = some .register)
    (htimer : s.ptrmng.timer = false) :
    inFlight { s with
      ptrmng := kerneltimer_registertimer s.ptrmng
      handlers := s.handlers.eraseIdx k } = inFlight s := by
  have hlen := length_eraseIdx hat
  show 1 + (s.handlers.eraseIdx k).length = s.ptrmng.timer.toNat + s.handlers.length
  rw [htimer]
  show 1 + (s.handlers.eraseIdx k).length = 0 + s.handlers.length
  omega

theorem inFlight_partition {s : State S O} {k : Nat} (st : S) (log : List O) :
    inFlight { s with st := st, log := log, handlers := s.handlers.set k .register } =
      inFlight s := by
  simp [inFlight]

theorem inFlight_del_timer {s : State S O} :
    inFlight { s with ptrmng := { s.ptrmng with timer := false }, exit := .deleted } =
      s.handlers.length := by
  simp [inFlight]

theorem Inv.step {s s' : State S O} {l : Label I} (h : Inv tick s₀ s)
    (hstep : step tick s l = some s') : Inv tick s₀ s' := by
  obtain ⟨-, hdoes⟩ := does_of_step hstep
  cases hdoes with
  | expire hexit htimer =>
      have heq := inFlight_expire htimer
      exact ⟨h.ticks, heq ▸ h.one, fun hl => heq ▸ h.loaded hl⟩
  | expire_freed | trap | register_freed => exact ⟨h.ticks, h.one, h.loaded⟩
  | partition k i st hints hat htick =>
      obtain ⟨is, hrun⟩ := h.ticks
      have heq := inFlight_partition (s := s) (k := k) st (s.log ++ hints)
      exact ⟨⟨i :: is, Ticks.run_cons hrun htick⟩, heq ▸ h.one, fun hl => heq ▸ h.loaded hl⟩
  | register k hat hexit htimer =>
      have heq := inFlight_register hat htimer
      exact ⟨h.ticks, heq ▸ h.one, fun hl => heq ▸ h.loaded hl⟩
  | del_timer hexit =>
      have hone := h.one
      refine ⟨h.ticks, ?_, fun hl => (by cases hl)⟩
      rw [inFlight_del_timer]
      unfold inFlight at hone
      omega
  | kfree => exact ⟨h.ticks, h.one, fun hl => (by cases hl)⟩

/-- The timer was taken off while it was pending: no tick comes any more. -/
structure Quiet (st : S) (log : List O) (s : State S O) : Prop where
  timer : s.ptrmng.timer = false
  handlers : s.handlers = []
  exit : s.exit ≠ .loaded
  fault : s.fault = false
  st : s.st = st
  log : s.log = log

theorem Quiet.step {st : S} {log : List O} {s s' : State S O} {l : Label I} (h : Quiet st log s)
    (hstep : step tick s l = some s') : Quiet st log s' := by
  obtain ⟨-, hdoes⟩ := does_of_step hstep
  have hnone : ∀ (k : Nat) (a : Handler), s.handlers[k]? ≠ some a := by
    intro k a
    rw [h.handlers]
    simp
  cases hdoes with
  | expire _ htimer => exact absurd htimer (by simp [h.timer])
  | expire_freed _ htimer => exact absurd htimer (by simp [h.timer])
  | partition k _ _ _ hat => exact absurd hat (hnone k _)
  | trap k _ hat => exact absurd hat (hnone k _)
  | register k hat => exact absurd hat (hnone k _)
  | register_freed k hat => exact absurd hat (hnone k _)
  | del_timer hexit => exact absurd hexit h.exit
  | kfree => exact ⟨h.timer, h.handlers, fun hl => (by cases hl), h.fault, h.st, h.log⟩

/-- `del_timer` came while a handler ran. The handler arms the timer again,
so there is always one tick more. -/
structure Missed (s : State S O) : Prop where
  one : inFlight s = 1
  exit : s.exit ≠ .loaded

theorem Missed.step {s s' : State S O} {l : Label I} (h : Missed s)
    (hstep : step tick s l = some s') : Missed s' := by
  obtain ⟨-, hdoes⟩ := does_of_step hstep
  cases hdoes with
  | expire _ htimer => exact ⟨(inFlight_expire htimer).trans h.one, h.exit⟩
  | expire_freed => exact ⟨h.one, h.exit⟩
  | partition _ _ st hints => exact ⟨(inFlight_partition st _).trans h.one, h.exit⟩
  | trap => exact ⟨h.one, h.exit⟩
  | register _ hat _ htimer => exact ⟨(inFlight_register hat htimer).trans h.one, h.exit⟩
  | register_freed => exact ⟨h.one, h.exit⟩
  | del_timer hexit => exact absurd hexit h.exit
  | kfree => exact ⟨h.one, fun hl => (by cases hl)⟩

/-- The one tick, by where it is. -/
theorem Missed.cases {s : State S O} (h : Missed s) :
    s.ptrmng.timer = true ∨ s.handlers = [.partition] ∨ s.handlers = [.register] := by
  have hone := h.one
  unfold inFlight at hone
  cases htimer : s.ptrmng.timer with
  | true => exact .inl rfl
  | false =>
      right
      rw [htimer, Bool.toNat_false, Nat.zero_add, List.length_eq_one_iff] at hone
      obtain ⟨a, ha⟩ := hone
      cases a with
      | partition => exact .inl ha
      | register => exact .inr ha

/-- The module does not come to rest but in a fault. -/
theorem Missed.moves [Nonempty I] {s : State S O} (h : Missed s) (hfault : s.fault = false) :
    ∃ l s', Lifecycle.step tick s l = some s' := by
  cases hexit : s.exit with
  | loaded => exact absurd hexit h.exit
  | deleted => exact ⟨.kfree, _, by simp only [Lifecycle.step, hfault, kfree, hexit]; rfl⟩
  | freed =>
      rcases h.cases with htimer | hpart | hreg
      · exact ⟨.expire, _, by simp only [Lifecycle.step, hfault, expire, htimer, hexit]; rfl⟩
      · obtain ⟨i⟩ := ‹Nonempty I›
        have hat : at? s 0 .partition = true := at?_iff.mpr (by rw [hpart]; rfl)
        cases htick : tick i s.st with
        | none =>
            exact ⟨.partition 0 i, _, by
              simp only [Lifecycle.step, hfault, partition, hat, htick]; rfl⟩
        | some r =>
            exact ⟨.partition 0 i, _, by
              simp only [Lifecycle.step, hfault, partition, hat, htick]; rfl⟩
      · have hat : at? s 0 .register = true := at?_iff.mpr (by rw [hreg]; rfl)
        exact ⟨.register 0, _, by
          simp only [Lifecycle.step, hfault, register, hat, hexit, true_or]; rfl⟩

/-- What a call of the handler reads: the counters, what is in memory around
`p_dynamic`, and the rest. -/
structure Reading (I : Type) where
  sample : Utilisation.Sample
  outside : Int → Int
  rest : I

/-- `p_dynamic[j]`, outside the array what is there. -/
def p_dynamicAt (st : Utilisation.State) (outside : Int → Int) (j : Int) : Int :=
  if h : 0 ≤ j ∧ j < MAX_CPUS then
    (st.p ⟨j.toNat, (Int.toNat_lt h.1).mpr h.2⟩).p_dynamic
  else outside j

/-- `kerneltimer_timeover` but for its last statement: the sampling, then the
part of the mode. -/
def kerneltimer_timeover (mode : (Int → Int) → I → S → Option (S × List O)) (r : Reading I)
    (st : Utilisation.State × S) : Option ((Utilisation.State × S) × List O) := do
  let sampled ← Utilisation.sample r.sample st.1
  let (s, hints) ← mode (p_dynamicAt sampled r.outside) r.rest st.2
  return ((sampled, s), hints)

section Mode

variable {mode : (Int → Int) → I → S → Option (S × List O)}

end Mode

end CorePartitioning.KTimer.Lifecycle

namespace CorePartitioning.KTimer

end CorePartitioning.KTimer
