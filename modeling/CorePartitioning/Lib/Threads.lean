import CorePartitioning.Lib.Prog
import CorePartitioning.Lib.Run

/-!
# Threads that run programs against a shared state

Each thread is idle or inside a call, with the rest of the call's program.
A step enters a call, executes the next operation of some thread, or
returns. `hold` is what a thread can be observed to own in the shared
state; `Observes` says that only its own operations change it, as `next`
describes. If every call's program is `Safe` from every `base` observation
back to `base`, then at every point of every run each thread is in its
`base` state or on a `Safe` rest (`fine_of_reachable`): a property of the
texts becomes one of all interleavings.
-/

namespace Threads

variable {Tid Call Op S E H α : Type} {Res : Op → Type} [DecidableEq Tid]

structure State (Tid Call Op : Type) (Res : Op → Type) (S α : Type) where
  shared : S
  thread : Tid → Option (Call × Prog Op Res α)

/-- `t` enters call `c`, or makes its next step; `e` is what the world
outside answers, should the step ask it. -/
inductive Label (Tid Call E : Type)
  | call (t : Tid) (c : Call)
  | step (t : Tid) (e : E)

variable (prog : Call → Prog Op Res α) (sem : Tid → E → S → (o : Op) → Option (Res o × S))

/-- One step of the system. -/
def step (s : State Tid Call Op Res S α) : Label Tid Call E → Option (State Tid Call Op Res S α)
  | .call t c =>
      match s.thread t with
      | none => some { s with thread := Function.update s.thread t (some (c, prog c)) }
      | some _ => none
  | .step t e =>
      match s.thread t with
      | none => none
      | some (_, .ret _) => some { s with thread := Function.update s.thread t none }
      | some (c, .op o k) =>
          (sem t e s.shared o).map fun x =>
            { shared := x.2, thread := Function.update s.thread t (some (c, k x.1)) }

variable {prog sem}

/-- What a step can do. -/
theorem step_cases {s s' : State Tid Call Op Res S α} {l : Label Tid Call E}
    (h : step prog sem s l = some s') :
    (∃ t c, l = .call t c ∧ s.thread t = none ∧
      s' = { s with thread := Function.update s.thread t (some (c, prog c)) }) ∨
    (∃ t e c a, l = .step t e ∧ s.thread t = some (c, .ret a) ∧
      s' = { s with thread := Function.update s.thread t none }) ∨
    (∃ t e c o k r sh, l = .step t e ∧ s.thread t = some (c, .op o k) ∧
      sem t e s.shared o = some (r, sh) ∧
      s' = { shared := sh, thread := Function.update s.thread t (some (c, k r)) }) := by
  cases l with
  | call t c =>
      unfold step at h
      cases ht : s.thread t with
      | some x => simp [ht] at h
      | none =>
          simp only [ht, Option.some.injEq] at h
          exact .inl ⟨t, c, rfl, ht, h.symm⟩
  | step t e =>
      unfold step at h
      cases ht : s.thread t with
      | none => simp [ht] at h
      | some x =>
          obtain ⟨c, p⟩ := x
          cases p with
          | ret a =>
              simp only [ht, Option.some.injEq] at h
              exact .inr (.inl ⟨t, e, c, a, rfl, ht, h.symm⟩)
          | op o k =>
              simp only [ht, Option.map_eq_some_iff] at h
              obtain ⟨⟨r, sh⟩, hsem, hs⟩ := h
              exact .inr (.inr ⟨t, e, c, o, k, r, sh, rfl, ht, hsem, hs.symm⟩)

/-- The rest of a call, run without interruption. -/
theorem reachable_of_exec_rest {s : State Tid Call Op Res S α} {t : Tid} {e : E} {c : Call}
    {p : Prog Op Res α} {a : α} {sh : S} (ht : s.thread t = some (c, p))
    (h : p.exec (sem t) e s.shared = some (a, sh)) :
    Run.Reachable (step prog sem) Run.free s
      { shared := sh, thread := Function.update s.thread t none } := by
  induction p generalizing s with
  | ret b =>
      cases h
      exact Relation.ReflTransGen.single ⟨.step t e, trivial, by simp [step, ht]⟩
  | op o k ih =>
      unfold Prog.exec at h
      obtain ⟨⟨r, s₁⟩, ho, hrest⟩ := Option.bind_eq_some_iff.mp h
      have hnext := ih r (s := ⟨s₁, Function.update s.thread t (some (c, k r))⟩) (by simp) hrest
      rw [Function.update_idem] at hnext
      exact Relation.ReflTransGen.head ⟨.step t e, trivial, by simp [step, ht, ho]⟩ hnext

/-- **A call of an idle thread, run without interruption, is a run of the system.** -/
theorem reachable_of_exec {s : State Tid Call Op Res S α} {t : Tid} {e : E} {c : Call} {a : α}
    {sh : S} (ht : s.thread t = none) (h : (prog c).exec (sem t) e s.shared = some (a, sh)) :
    Run.Reachable (step prog sem) Run.free s { s with shared := sh } := by
  have hin : (Function.update s.thread t (some (c, prog c))) t = some (c, prog c) :=
    Function.update_self ..
  have hrest : Run.Reachable (step prog sem) Run.free
      { s with thread := Function.update s.thread t (some (c, prog c)) } _ :=
    reachable_of_exec_rest hin h
  rw [Function.update_idem, ← ht, Function.update_eq_self] at hrest
  exact Relation.ReflTransGen.head ⟨.call t c, trivial, by simp [step, ht]⟩ hrest

/-- An invariant of the shared state that every operation preserves. -/
theorem shared_of_reachable {guard : State Tid Call Op Res S α → Label Tid Call E → Prop}
    {s₀ s : State Tid Call Op Res S α} {I : S → Prop}
    (h : Run.Reachable (step prog sem) guard s₀ s) (hinit : I s₀.shared)
    (hsem : ∀ {t e s o r s'}, I s → sem t e s o = some (r, s') → I s') : I s.shared := by
  apply h.invariant (I := fun s => I s.shared) hinit
  intro s l s' hI _ hs
  obtain ⟨t, c, -, -, rfl⟩ | ⟨t, e, c, a, -, -, rfl⟩ | ⟨t, e, c, o, k, r, sh, -, -, ho, rfl⟩ :=
    step_cases hs
  · exact hI
  · exact hI
  · exact hsem hI ho

variable (sem) in
/-- The observation follows the thread's own operations and nothing else. -/
structure Observes (hold : S → Tid → H) (next : H → Op → H) : Prop where
  own : ∀ {t e s o r s'}, sem t e s o = some (r, s') → hold s' t = next (hold s t) o
  other : ∀ {t e s o r s' u}, sem t e s o = some (r, s') → u ≠ t → hold s' u = hold s u

variable {hold : S → Tid → H} {next : H → Op → H}
  {ok : Call → H → (o : Op) → Res o → Prop} {pre : Call → H → Op → Prop} {base : H → Prop}

/-- Where a thread with observation `h` may be. -/
def Fine (next : H → Op → H) (ok : Call → H → (o : Op) → Res o → Prop)
    (pre : Call → H → Op → Prop) (base : H → Prop) (h : H) : Option (Call × Prog Op Res α) → Prop
  | none => base h
  | some (c, p) => Prog.Safe next (ok c) (pre c) base h p

/-- **From texts to interleavings.** `hguard` says that the guard lets only
`ok` answers through. -/
theorem fine_of_reachable
    {guard : State Tid Call Op Res S α → Label Tid Call E → Prop}
    {s₀ s : State Tid Call Op Res S α}
    (h : Run.Reachable (step prog sem) guard s₀ s)
    (hobs : Observes sem hold next)
    (hprog : ∀ c h, base h → Prog.Safe next (ok c) (pre c) base h (prog c))
    (hguard : ∀ {s : State Tid Call Op Res S α} {t e c o k r s'},
      s.thread t = some (c, .op o k) → guard s (.step t e) →
      sem t e s.shared o = some (r, s') → ok c (hold s.shared t) o r)
    (hinit : ∀ t, Fine next ok pre base (hold s₀.shared t) (s₀.thread t)) :
    ∀ t, Fine next ok pre base (hold s.shared t) (s.thread t) := by
  apply h.invariant (I := fun s => ∀ t, Fine next ok pre base (hold s.shared t) (s.thread t))
    hinit
  intro s l s' hfine hg hs u
  have hu := hfine u
  obtain ⟨t, c, -, ht, rfl⟩ | ⟨t, e, c, a, -, ht, rfl⟩ |
    ⟨t, e, c, o, k, r, sh, rfl, ht, ho, rfl⟩ := step_cases hs
  · by_cases hut : u = t
    · subst hut
      rw [ht] at hu
      simpa [Fine] using hprog c _ hu
    · simpa [hut] using hu
  · by_cases hut : u = t
    · subst hut
      rw [ht] at hu
      simpa [Fine, Prog.Safe] using hu
    · simpa [hut] using hu
  · by_cases hut : u = t
    · subst hut
      rw [ht] at hu
      have hk := hu.2 r (hguard ht hg ho)
      rw [← hobs.own ho] at hk
      simpa [Fine] using hk
    · simpa [hut, hobs.other ho hut] using hu

end Threads
