import Mathlib.Data.Set.Card

/-!
# How many parties are in a state

The number of arguments at which a function has a property, when the
function changes at one argument. Any number of parties, so the number is
an extended natural number.
-/

namespace Count

variable {α β : Type*}

/-- The number of parties whose state has property `p`. -/
noncomputable def having (p : β → Prop) (f : α → β) : ℕ∞ := {a | p (f a)}.encard

theorem having_eq_zero_iff {p : β → Prop} {f : α → β} : having p f = 0 ↔ ∀ a, ¬ p (f a) := by
  unfold having
  rw [Set.encard_eq_zero, Set.eq_empty_iff_forall_notMem]
  rfl

/-- At most one party has the property when all that have it are `a`. -/
theorem having_le_one {p : β → Prop} {f : α → β} {a : α} (h : ∀ b, p (f b) → b = a) :
    having p f ≤ 1 := by
  unfold having
  rw [Set.encard_le_one_iff]
  intro b c hb hc
  rw [h b hb, h c hc]

variable [DecidableEq α] (p : β → Prop) [DecidablePred p]

/-- One party moves. -/
theorem having_update (f : α → β) (a : α) (b : β) :
    having p (Function.update f a b) + (if p (f a) then 1 else 0) =
      having p f + if p b then 1 else 0 := by
  -- the parties other than `a`
  obtain ⟨others, hothers⟩ : ∃ others : Set α, others = {x | x ≠ a ∧ p (f x)} := ⟨_, rfl⟩
  have ha : a ∉ others := by simp [hothers]
  have hcount : ∀ b, having p (Function.update f a b) =
      others.encard + if p b then 1 else 0 := by
    intro b
    unfold having
    by_cases hb : p b
    · have heq : {x | p (Function.update f a b x)} = insert a others := by
        ext x
        by_cases hx : x = a
        · simp [hx, hb]
        · simp [hx, hothers]
      rw [heq, Set.encard_insert_of_notMem ha, if_pos hb]
    · have heq : {x | p (Function.update f a b x)} = others := by
        ext x
        by_cases hx : x = a
        · simp [hx, hb, hothers]
        · simp [hx, hothers]
      rw [heq, if_neg hb, add_zero]
  have hsame := hcount (f a)
  rw [Function.update_eq_self] at hsame
  rw [hcount, hsame]
  exact add_right_comm _ _ _

end Count
