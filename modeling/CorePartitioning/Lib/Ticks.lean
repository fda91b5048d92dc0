import Mathlib.Tactic.TypeStar

/-!
# Runs of a machine that takes inputs and keeps a log

`tick` takes an input and a state to the next state and what it emits, or
traps. A run is total when no tick traps; the rule below shows that, and
carries a property of the inputs, the state and the log, in one induction.
-/

namespace Ticks

variable {I S O : Type*} {tick : I → S → Option (S × List O)} {s₀ s s' : S} {log out : List O}

/-- The state and the log, oldest entry first, after the inputs, newest
first. -/
def run (tick : I → S → Option (S × List O)) (s₀ : S) : List I → Option (S × List O)
  | [] => some (s₀, [])
  | i :: is => do
      let (s, log) ← run tick s₀ is
      let (s', out) ← tick i s
      return (s', log ++ out)

theorem run_cons {i : I} {is : List I} (hrun : run tick s₀ is = some (s, log))
    (htick : tick i s = some (s', out)) : run tick s₀ (i :: is) = some (s', log ++ out) := by
  simp [run, hrun, htick]

/-- **Invariants.** A property that lets every tick return, and is kept by
it, holds of every run. -/
theorem run_invariant {P : List I → S → List O → Prop} (hinit : P [] s₀ [])
    (hstep : ∀ i is s log, P is s log → ∃ s' out, tick i s = some (s', out) ∧
      P (i :: is) s' (log ++ out)) (is : List I) :
    ∃ s log, run tick s₀ is = some (s, log) ∧ P is s log := by
  induction is with
  | nil => exact ⟨s₀, [], rfl, hinit⟩
  | cons i is ih =>
      obtain ⟨s, log, hrun, hP⟩ := ih
      obtain ⟨s', out, htick, hP'⟩ := hstep i is s log hP
      exact ⟨s', log ++ out, run_cons hrun htick, hP'⟩

/-- What every tick that returns keeps holds of every run that returns. -/
theorem run_keeps {P : List I → S → Prop} (hinit : P [] s₀)
    (hstep : ∀ i is s s' out, P is s → tick i s = some (s', out) → P (i :: is) s')
    {is : List I} : run tick s₀ is = some (s, log) → P is s := by
  induction is generalizing s log with
  | nil =>
      intro hrun
      obtain ⟨rfl, rfl⟩ : s₀ = s ∧ [] = log := by simpa [run] using hrun
      exact hinit
  | cons i is ih =>
      intro hrun
      simp only [run, Option.bind_eq_bind, Option.bind_eq_some_iff, Option.pure_def,
        Option.some.injEq, Prod.mk.injEq] at hrun
      obtain ⟨⟨s₁, log₁⟩, hrun₁, ⟨s₂, out⟩, htick, rfl, rfl⟩ := hrun
      exact hstep i is s₁ s₂ out (ih hrun₁) htick

end Ticks
