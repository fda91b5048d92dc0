import Mathlib.Logic.Relation

/-!
# Guarded runs of a labelled step function

A system is a partial step function on states, one label a step. `guard`
is a condition on the state a step is taken from; a run meets it when all
its steps do. The rules below are the only inductions over runs in this
development: an invariant, and an invariant of an abstract system carried
back along a simulation.
-/

namespace Run

variable {S L : Type*}

/-- One step that meets the guard. -/
def Step (step : S → L → Option S) (guard : S → L → Prop) (s s' : S) : Prop :=
  ∃ l, guard s l ∧ step s l = some s'

/-- The states reached by steps that all meet the guard. -/
def Reachable (step : S → L → Option S) (guard : S → L → Prop) : S → S → Prop :=
  Relation.ReflTransGen (Step step guard)

/-- The guard every step meets. -/
def free : S → L → Prop := fun _ _ => True

instance (s : S) (l : L) : Decidable (free s l) := inferInstanceAs (Decidable True)

/-- The state after a list of labels, when every one of them can be taken
and meets the guard. -/
def exec (step : S → L → Option S) (guard : S → L → Prop) [∀ s l, Decidable (guard s l)] :
    S → List L → Option S
  | s, [] => some s
  | s, l :: ls =>
      if guard s l then (step s l).bind fun s' => exec step guard s' ls else none

variable {step : S → L → Option S} {guard : S → L → Prop} {s₀ s : S}

/-- **Invariants.** What a guarded step preserves holds along guarded runs. -/
theorem Reachable.invariant {I : S → Prop} (h : Reachable step guard s₀ s)
    (h0 : I s₀) (hstep : ∀ {s l s'}, I s → guard s l → step s l = some s' → I s') :
    I s := by
  induction h with
  | refl => exact h0
  | tail _ hs ih =>
      obtain ⟨l, hg, hl⟩ := hs
      exact hstep ih hg hl

/-- A run that meets a guard meets a weaker one. -/
theorem Reachable.mono {guard' : S → L → Prop} (h : Reachable step guard s₀ s)
    (hguard : ∀ s l, guard s l → guard' s l) : Reachable step guard' s₀ s := by
  refine Relation.ReflTransGen.mono ?_ _ _ h
  intro s s' hs
  obtain ⟨l, hg, hl⟩ := hs
  exact ⟨l, hguard s l hg, hl⟩

/-- **Simulation.** Each guarded step is matched by a guarded step of the
abstract system or by none, so an abstract invariant holds of the abstract
state that goes with the one reached. -/
theorem Reachable.simulate {A B : Type*} {astep : A → B → A → Prop}
    {aguard : A → B → Prop} {R : S → A → Prop} {J : A → Prop} {a₀ : A}
    (h : Reachable step guard s₀ s) (hR : R s₀ a₀) (hJ : J a₀)
    (hsim : ∀ {s a l s'}, R s a → guard s l → step s l = some s' →
      ∃ a', R s' a' ∧ (a' = a ∨ ∃ b, aguard a b ∧ astep a b a'))
    (hpres : ∀ {a b a'}, J a → aguard a b → astep a b a' → J a') :
    ∃ a, R s a ∧ J a := by
  apply h.invariant (I := fun s => ∃ a, R s a ∧ J a) ⟨a₀, hR, hJ⟩
  rintro s l s' ⟨a, hRa, hJa⟩ hg hl
  obtain ⟨a', hRa', rfl | ⟨b, hb, hab⟩⟩ := hsim hRa hg hl
  · exact ⟨a', hRa', hJa⟩
  · exact ⟨a', hRa', hpres hJa hb hab⟩

/-- **Projection.** Where each guarded step is seen by `f` as a guarded step
of another system or as none, `f` maps runs to runs. -/
theorem Reachable.project {S' L' : Type*} {step' : S' → L' → Option S'}
    {guard' : S' → L' → Prop} {f : S → S'} (h : Reachable step guard s₀ s)
    (hf : ∀ {s l s'}, guard s l → step s l = some s' →
      f s' = f s ∨ ∃ l', guard' (f s) l' ∧ step' (f s) l' = some (f s')) :
    Reachable step' guard' (f s₀) (f s) := by
  induction h with
  | refl => exact Relation.ReflTransGen.refl
  | tail _ hs ih =>
      obtain ⟨l, hg, hl⟩ := hs
      rcases hf hg hl with heq | hstep
      · rwa [heq]
      · exact Relation.ReflTransGen.tail ih hstep

/-- **Progress.** Where a step towards the goal can always be made, some run
reaches it. -/
theorem exists_reachable {K G : S → Prop} (μ : S → Nat)
    (hstep : ∀ s, K s → ¬ G s → ∃ s', Step step guard s s' ∧ K s' ∧ μ s' < μ s) (h : K s) :
    ∃ s', Reachable step guard s s' ∧ K s' ∧ G s' := by
  obtain ⟨n, hn⟩ : ∃ n, n = μ s := ⟨_, rfl⟩
  induction n using Nat.strongRecOn generalizing s with
  | _ n ih =>
      by_cases hG : G s
      · exact ⟨s, Relation.ReflTransGen.refl, h, hG⟩
      · obtain ⟨s₁, hs, hK, hlt⟩ := hstep s h hG
        obtain ⟨s', hreach, hgoal⟩ := ih (μ s₁) (by omega) hK rfl
        exact ⟨s', Relation.ReflTransGen.head hs hreach, hgoal⟩

theorem reachable_of_exec [∀ s l, Decidable (guard s l)] {ls : List L} {s' : S}
    (h : exec step guard s ls = some s') : Reachable step guard s s' := by
  induction ls generalizing s with
  | nil =>
      cases h
      exact Relation.ReflTransGen.refl
  | cons l ls ih =>
      unfold exec at h
      split at h
      · rename_i hg
        obtain ⟨s₁, hl, hls⟩ := Option.bind_eq_some_iff.mp h
        exact Relation.ReflTransGen.head ⟨l, hg, hl⟩ (ih hls)
      · cases h

theorem exec_cons [∀ s l, Decidable (guard s l)] {l : L} {ls : List L} {s' : S}
    (h : exec step guard s (l :: ls) = some s') :
    ∃ s₁, guard s l ∧ step s l = some s₁ ∧ exec step guard s₁ ls = some s' := by
  unfold exec at h
  split at h
  · rename_i hg
    obtain ⟨s₁, hl, hls⟩ := Option.bind_eq_some_iff.mp h
    exact ⟨s₁, hg, hl, hls⟩
  · cases h

theorem exec_cons_eq [∀ s l, Decidable (guard s l)] {l : L} {s₁ : S} (hg : guard s l)
    (hl : step s l = some s₁) (ls : List L) :
    exec step guard s (l :: ls) = exec step guard s₁ ls := by
  rw [exec, if_pos hg, hl, Option.bind_some]

/-- **Exact conditions.** Where a step from a state with `P` leads to one with
`P` exactly when it meets `K`, `P` holds all along a run exactly when every
step of the run meets `K`. -/
theorem throughout_iff [∀ s l, Decidable (guard s l)] {I P : S → Prop} {K : S → L → Prop}
    {ls : List L} {s' : S}
    (hstep : ∀ {s l s'}, I s → P s → guard s l → step s l = some s' → I s' ∧ (P s' ↔ K s l))
    (hI : I s) (hP : P s) (hrun : exec step guard s ls = some s') :
    (∀ pre t, pre <+: ls → exec step guard s pre = some t → P t) ↔
      ∀ pre l t, pre ++ [l] <+: ls → exec step guard s pre = some t → K t l := by
  induction ls generalizing s with
  | nil =>
      constructor
      · intro _ pre l t hpre
        simp at hpre
      · intro _ pre t hpre ht
        obtain rfl := List.prefix_nil.mp hpre
        cases ht
        exact hP
  | cons a ls ih =>
      obtain ⟨s₁, hg, ha, hls⟩ := exec_cons hrun
      obtain ⟨hI₁, hP₁⟩ := hstep hI hP hg ha
      constructor
      · intro hall
        have hfirst : P s₁ := by
          apply hall [a] s₁
          · simp
          · rw [exec_cons_eq hg ha]
            rfl
        have hrest := (ih hI₁ hfirst hls).mp fun pre t hpre ht =>
          hall (a :: pre) t (List.cons_prefix_cons.mpr ⟨rfl, hpre⟩)
            ((exec_cons_eq hg ha pre).trans ht)
        intro pre l t hpre ht
        cases pre with
        | nil =>
            cases ht
            obtain ⟨rfl, -⟩ := List.cons_prefix_cons.mp hpre
            exact hP₁.mp hfirst
        | cons b pre =>
            obtain ⟨rfl, hrest_pre⟩ := List.cons_prefix_cons.mp hpre
            rw [exec_cons_eq hg ha] at ht
            exact hrest pre l t hrest_pre ht
      · intro hall
        have hfirst : P s₁ := hP₁.mpr (hall [] a s (by simp) rfl)
        have hrest := (ih hI₁ hfirst hls).mpr fun pre l t hpre ht =>
          hall (a :: pre) l t (List.cons_prefix_cons.mpr ⟨rfl, hpre⟩)
            ((exec_cons_eq hg ha pre).trans ht)
        intro pre t hpre ht
        cases pre with
        | nil =>
            cases ht
            exact hP
        | cons b pre =>
            obtain ⟨rfl, hrest_pre⟩ := List.cons_prefix_cons.mp hpre
            rw [exec_cons_eq hg ha] at ht
            exact hrest pre t hrest_pre ht

/-! ## Runs with their labels -/

/-- A run, with the labels of its steps. -/
inductive Trace (step : S → L → Option S) (guard : S → L → Prop) (s : S) : List L → S → Prop
  | nil : Trace step guard s [] s
  | snoc {ls : List L} {s' s'' : S} {l : L} (h : Trace step guard s ls s') (hg : guard s' l)
      (hl : step s' l = some s'') : Trace step guard s (ls ++ [l]) s''

theorem Trace.reachable {ls : List L} {s' : S} (h : Trace step guard s ls s') :
    Reachable step guard s s' := by
  induction h with
  | nil => exact Relation.ReflTransGen.refl
  | snoc _ hg hl ih => exact ih.tail ⟨_, hg, hl⟩

theorem Reachable.trace (h : Reachable step guard s₀ s) : ∃ ls, Trace step guard s₀ ls s := by
  induction h with
  | refl => exact ⟨[], .nil⟩
  | tail _ hs ih =>
      obtain ⟨ls, hls⟩ := ih
      obtain ⟨l, hg, hl⟩ := hs
      exact ⟨ls ++ [l], hls.snoc hg hl⟩

theorem Trace.head {l : L} {s₁ s' : S} {ls : List L} (hg : guard s l) (hl : step s l = some s₁)
    (h : Trace step guard s₁ ls s') : Trace step guard s (l :: ls) s' := by
  induction h with
  | nil => exact .snoc .nil hg hl
  | snoc _ hg' hl' ih => exact .snoc ih hg' hl'

theorem trace_of_exec [∀ s l, Decidable (guard s l)] {ls : List L} {s' : S}
    (h : exec step guard s ls = some s') : Trace step guard s ls s' := by
  induction ls generalizing s with
  | nil =>
      cases h
      exact .nil
  | cons l ls ih =>
      obtain ⟨s₁, hg, hl, hls⟩ := exec_cons h
      exact (ih hls).head hg hl

/-- **Descent.** Where every step brings the measure down, a run has no more
steps than the measure says. -/
theorem Trace.length_le {P : S → Prop} {μ : S → Nat} {ls : List L} {s' : S}
    (h : Trace step guard s ls s') (hP : P s)
    (hstep : ∀ {s l s'}, P s → guard s l → step s l = some s' → P s' ∧ μ s' < μ s) :
    P s' ∧ ls.length + μ s' ≤ μ s := by
  induction h with
  | nil => exact ⟨hP, by simp⟩
  | snoc _ hg hl ih =>
      obtain ⟨hP', hle⟩ := ih
      obtain ⟨hP'', hlt⟩ := hstep hP' hg hl
      refine ⟨hP'', ?_⟩
      rw [List.length_append, List.length_singleton]
      omega

/-- What the labels of a run amount to. -/
def amount (f : L → Nat) : List L → Nat
  | [] => 0
  | l :: ls => f l + amount f ls

theorem amount_snoc (f : L → Nat) (ls : List L) (l : L) :
    amount f (ls ++ [l]) = amount f ls + f l := by
  induction ls with
  | nil => exact Nat.add_comm _ _
  | cons a ls ih =>
      show f a + amount f (ls ++ [l]) = f a + amount f ls + f l
      rw [ih, Nat.add_assoc]

/-- **Amortisation.** Where a step may raise the potential by what its label
brings in, less what its label costs, a run costs at most what it had and
what it brought in. `Φ s v` says that `v` is a potential of `s`. -/
theorem Trace.amortised {Φ : S → Nat → Prop} {cost gain : L → Nat} {ls : List L} {s' : S} {v : Nat}
    (h : Trace step guard s ls s') (hΦ : Φ s v)
    (hstep : ∀ {s l s' v}, Φ s v → guard s l → step s l = some s' →
      ∃ v', Φ s' v' ∧ v' + cost l ≤ v + gain l) :
    ∃ v', Φ s' v' ∧ v' + amount cost ls ≤ v + amount gain ls := by
  induction h with
  | nil => exact ⟨v, hΦ, Nat.le_refl _⟩
  | snoc _ hg hl ih =>
      obtain ⟨v₁, hΦ₁, hle₁⟩ := ih
      obtain ⟨v₂, hΦ₂, hle₂⟩ := hstep hΦ₁ hg hl
      refine ⟨v₂, hΦ₂, ?_⟩
      rw [amount_snoc, amount_snoc]
      omega

end Run
