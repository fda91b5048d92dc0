import Mathlib.Logic.Basic

/-!
# Changes that are taken back

Code that makes several changes, each of which can fail, and that on a
failure takes back the change that failed and the ones before it, the last
one first. `attempt_fails` says when this leads back to where it started:
every change must be undone by its own undo, whether it failed or not, in
the state it was made in.
-/

namespace Rollback

variable {σ : Type*}

/-- A change, with whether it succeeded, and what takes it back. -/
structure Change (σ : Type*) where
  make : σ → Bool × σ
  undo : σ → σ

/-- The changes of `done` taken back, the first of the list first. -/
def takeBack : List (Change σ) → σ → σ
  | [], s => s
  | c :: done, s => takeBack done (c.undo s)

/-- The changes in their order, after those of `done` (the last one first). -/
def attempt (done : List (Change σ)) : List (Change σ) → σ → Bool × σ
  | [], s => (true, s)
  | c :: rest, s =>
      if (c.make s).1 then attempt (c :: done) rest (c.make s).2
      else (false, takeBack (c :: done) (c.make s).2)

/-- Each change is undone by its undo in the state it is made in. -/
def Revertible : List (Change σ) → σ → Prop
  | [], _ => True
  | c :: rest, s => c.undo (c.make s).2 = s ∧ ((c.make s).1 = true → Revertible rest (c.make s).2)

variable {s start : σ} {done cs : List (Change σ)}

/-- **A failed attempt ends where it started.** -/
theorem attempt_fails (h : Revertible cs s) (hdone : takeBack done s = start)
    (hfails : (attempt done cs s).1 = false) : (attempt done cs s).2 = start := by
  induction cs generalizing done s with
  | nil => cases hfails
  | cons c rest ih =>
      obtain ⟨hundo, hrest⟩ := h
      have hback : takeBack (c :: done) (c.make s).2 = start := by rw [takeBack, hundo, hdone]
      rw [attempt] at hfails ⊢
      split at hfails
      · rename_i hok
        rw [if_pos hok]
        exact ih (hrest hok) hback hfails
      · rename_i hok
        rw [if_neg hok]
        exact hback

/-- What every change keeps where it succeeds, a successful attempt keeps. -/
theorem attempt_keeps {I : σ → Prop}
    (hstep : ∀ c ∈ cs, ∀ s, I s → (c.make s).1 = true → I (c.make s).2) (hs : I s)
    (hok : (attempt done cs s).1 = true) : I (attempt done cs s).2 := by
  induction cs generalizing done s with
  | nil => exact hs
  | cons c rest ih =>
      rw [attempt] at hok ⊢
      split at hok
      · rename_i hmade
        rw [if_pos hmade]
        exact ih (fun d hd => hstep d (List.mem_cons_of_mem _ hd))
          (hstep c (List.mem_cons_self ..) s hs hmade) hok
      · cases hok

end Rollback
