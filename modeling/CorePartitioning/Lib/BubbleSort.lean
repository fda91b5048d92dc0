import Mathlib

/-!
# Bubble sort on a prefix, by key

The loop nest `for m = n-1 downto 1 { for i < m { if key l[i] > key l[i+1]
swap } }`, on lists. One pass of `n` comparisons carries a maximum of the
first `n + 1` elements to position `n`; the outer loop shortens the pass
by one each time.

Only a STRICTLY greater key swaps, so the sort is stable: a relation that
holds between the equal-key elements of the input, in list order, still
holds in the output (`bubbleSort_lex`). With the relation `<` on distinct
indices that makes the result strictly increasing in the lexicographic
order of `(key, index)`.
-/

namespace BubbleSort

variable {α κ : Type*} [LinearOrder κ]

/-- One pass: `n` compare-and-swap steps, left to right. -/
def bubblePass (key : α → κ) : Nat → List α → List α
  | n + 1, a :: b :: l =>
      if key a > key b then b :: bubblePass key n (a :: l)
      else a :: bubblePass key n (b :: l)
  | _, l => l

/-- The outer loop: passes of `m`, `m - 1`, .., `1` comparisons. -/
def bubbleSort (key : α → κ) : Nat → List α → List α
  | 0, l => l
  | m + 1, l => bubbleSort key m (bubblePass key (m + 1) l)

variable (key : α → κ)

@[simp] theorem bubblePass_zero (l : List α) : bubblePass key 0 l = l := by
  cases l <;> rfl

@[simp] theorem bubblePass_singleton (n : Nat) (a : α) :
    bubblePass key n [a] = [a] := by
  cases n <;> rfl

/-! ## One pass -/

theorem bubblePass_perm : ∀ (n : Nat) (l : List α),
    (bubblePass key n l).Perm l := by
  intro n
  induction n with
  | zero => intro l; simp
  | succ n ih =>
      intro l
      match l with
      | [] => exact .refl _
      | [a] => exact .refl _
      | a :: b :: l =>
          rw [bubblePass]
          split
          · exact ((ih (a :: l)).cons b).trans (.swap a b l)
          · exact (ih (b :: l)).cons a

/-- Elements past position `n` are untouched by `n` comparisons. -/
theorem bubblePass_append : ∀ (n : Nat) (l suf : List α), l.length = n + 1 →
    bubblePass key n (l ++ suf) = bubblePass key n l ++ suf := by
  intro n
  induction n with
  | zero => intro l suf _; simp
  | succ n ih =>
      intro l suf hl
      match l with
      | a :: b :: l =>
          have hl' : l.length = n := by simpa using hl
          simp only [List.cons_append, bubblePass]
          split
          · rw [← List.cons_append, ih (a :: l) suf (by simp [hl']), List.cons_append]
          · rw [← List.cons_append, ih (b :: l) suf (by simp [hl']), List.cons_append]

/-- **The carried maximum**: a full pass ends in an element whose key bounds
all the others. -/
theorem bubblePass_max : ∀ (n : Nat) (l : List α), l.length = n + 1 →
    ∃ front mx, bubblePass key n l = front ++ [mx] ∧ front.length = n
      ∧ ∀ x ∈ l, key x ≤ key mx := by
  intro n
  induction n with
  | zero =>
      intro l hl
      obtain ⟨a, rfl⟩ := List.length_eq_one_iff.mp hl
      exact ⟨[], a, rfl, rfl, by simp⟩
  | succ n ih =>
      intro l hl
      match l with
      | a :: b :: l =>
          have hl' : l.length = n := by simpa using hl
          by_cases hab : key a > key b
          · obtain ⟨front, mx, he, hlen, hmx⟩ := ih (a :: l) (by simp [hl'])
            refine ⟨b :: front, mx, ?_, by simp [hlen], ?_⟩
            · rw [bubblePass, if_pos hab, he, List.cons_append]
            · have ha := hmx a (by simp)
              intro x hx
              rcases List.mem_cons.mp hx with rfl | hx
              · exact ha
              · rcases List.mem_cons.mp hx with rfl | hx
                · exact (le_of_lt hab).trans ha
                · exact hmx x (by simp [hx])
          · obtain ⟨front, mx, he, hlen, hmx⟩ := ih (b :: l) (by simp [hl'])
            refine ⟨a :: front, mx, ?_, by simp [hlen], ?_⟩
            · rw [bubblePass, if_neg hab, he, List.cons_append]
            · have hb := hmx b (by simp)
              intro x hx
              rcases List.mem_cons.mp hx with rfl | hx
              · exact (le_of_not_gt hab).trans hb
              · exact hmx x hx

/-- A pass keeps a relation between equal-key elements: the elements it
exchanges have different keys. -/
theorem bubblePass_stable {r : α → α → Prop} : ∀ (n : Nat) (l : List α),
    l.Pairwise (fun a b => key a = key b → r a b) →
    (bubblePass key n l).Pairwise (fun a b => key a = key b → r a b) := by
  intro n
  induction n with
  | zero => intro l h; simpa using h
  | succ n ih =>
      intro l h
      match l with
      | [] => simp [bubblePass]
      | [a] => simp
      | a :: b :: l =>
          obtain ⟨ha, hb, hl⟩ : (∀ x ∈ b :: l, key a = key x → r a x) ∧
              (∀ x ∈ l, key b = key x → r b x) ∧
              l.Pairwise (fun a b => key a = key b → r a b) := by
            simpa [List.pairwise_cons] using h
          rw [bubblePass]
          split
          · rename_i hgt
            have hal : (a :: l).Pairwise (fun a b => key a = key b → r a b) :=
              .cons (fun x hx => ha x (by simp [hx])) hl
            refine .cons (fun x hx => ?_) (ih _ hal)
            rcases List.mem_cons.mp ((bubblePass_perm key n _).mem_iff.mp hx) with rfl | hx
            · intro heq
              exact absurd heq (ne_of_lt hgt)
            · exact hb x hx
          · refine .cons (fun x hx => ?_) (ih _ (.cons hb hl))
            exact ha x ((bubblePass_perm key n _).mem_iff.mp hx)

/-! ## The whole sort -/

theorem bubbleSort_perm : ∀ (m : Nat) (l : List α), (bubbleSort key m l).Perm l := by
  intro m
  induction m with
  | zero => intro l; exact .refl _
  | succ m ih => intro l; exact (ih _).trans (bubblePass_perm key _ l)

theorem bubbleSort_append : ∀ (m : Nat) (l suf : List α), l.length = m + 1 →
    bubbleSort key m (l ++ suf) = bubbleSort key m l ++ suf := by
  intro m
  induction m with
  | zero => intro l suf _; rfl
  | succ m ih =>
      intro l suf hl
      obtain ⟨front, mx, he, hlen, -⟩ := bubblePass_max key (m + 1) l hl
      rw [bubbleSort, bubblePass_append key _ _ _ hl, bubbleSort, he, List.append_assoc,
        ih front _ hlen, ih front _ hlen, List.append_assoc]

theorem bubbleSort_sorted : ∀ (m : Nat) (l : List α), l.length = m + 1 →
    (bubbleSort key m l).Pairwise (fun a b => key a ≤ key b) := by
  intro m
  induction m with
  | zero =>
      intro l hl
      obtain ⟨a, rfl⟩ := List.length_eq_one_iff.mp hl
      simp [bubbleSort]
  | succ m ih =>
      intro l hl
      obtain ⟨front, mx, he, hlen, hmx⟩ := bubblePass_max key (m + 1) l hl
      have hperm := bubblePass_perm key (m + 1) l
      rw [bubbleSort, he, bubbleSort_append key m front _ hlen]
      refine List.pairwise_append.mpr ⟨ih front hlen, by simp, ?_⟩
      intro x hx y hy
      have hy' : y = mx := by simpa using hy
      subst hy'
      have hxf : x ∈ front := (bubbleSort_perm key m front).mem_iff.mp hx
      exact hmx x (hperm.mem_iff.mp (by simp [he, hxf]))

theorem bubbleSort_stable {r : α → α → Prop} : ∀ (m : Nat) (l : List α),
    l.Pairwise (fun a b => key a = key b → r a b) →
    (bubbleSort key m l).Pairwise (fun a b => key a = key b → r a b) := by
  intro m
  induction m with
  | zero => intro l h; exact h
  | succ m ih => intro l h; exact ih _ (bubblePass_stable key _ l h)

/-- **Stable sortedness**: keys ascend, and equal keys keep the input's
relation `r`. -/
theorem bubbleSort_lex {r : α → α → Prop} {m : Nat} {l : List α}
    (hl : l.length = m + 1) (hr : l.Pairwise r) :
    (bubbleSort key m l).Pairwise
      (fun a b => key a < key b ∨ key a = key b ∧ r a b) := by
  have hs := bubbleSort_sorted key m l hl
  have hr' : l.Pairwise (fun a b => key a = key b → r a b) := by
    refine hr.imp ?_
    intro a b hab _
    exact hab
  have ht := bubbleSort_stable key m l hr'
  refine hs.imp₂ (fun a b hle hst => ?_) ht
  rcases lt_or_eq_of_le hle with h | h
  · exact .inl h
  · exact .inr ⟨h, hst h⟩

end BubbleSort
