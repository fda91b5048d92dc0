import CorePartitioning.Lib.IntRange

/-!
# Round robin over a family of ranges

A cursor `(k, i)` stands on the `i`-th element of range `k`. The walk
emits the element under the cursor and then advances: to the start of the
next range (cyclically, among `n` ranges) when the cursor is `last`, else
one element on.

When `last` is the exact end of each range and no range is empty, the walk
from `(0, 0)` is the concatenation of the ranges, repeated: its `j`-th
element is the `(j mod N)`-th of the concatenation (`getElem?_walk`).
-/

namespace RoundRobin

/-- One cursor move. -/
def advance (n : ℕ) (last : ℕ → ℕ → Bool) (c : ℕ × ℕ) : ℕ × ℕ :=
  if last c.1 c.2 then ((c.1 + 1) % n, 0) else (c.1, c.2 + 1)

/-- The elements emitted in `q` rounds from cursor `c`. -/
def walk (n : ℕ) (start : ℕ → ℤ) (last : ℕ → ℕ → Bool) : ℕ → ℕ × ℕ → List ℤ
  | 0, _ => []
  | q + 1, c => (start c.1 + c.2) :: walk n start last q (advance n last c)

@[simp] theorem length_walk (n : ℕ) (start : ℕ → ℤ) (last : ℕ → ℕ → Bool) (q : ℕ)
    (c : ℕ × ℕ) : (walk n start last q c).length = q := by
  induction q generalizing c with
  | zero => rfl
  | succ q ih => simp [walk, ih]

/-- The first `n` ranges `[start k, stop k]`, one after the other. -/
def concat (start stop : ℕ → ℤ) (n : ℕ) : List ℤ :=
  (List.range n).flatMap fun k => Int.range (start k) (stop k + 1)

theorem concat_succ (start stop : ℕ → ℤ) (n : ℕ) :
    concat start stop (n + 1)
      = concat start stop n ++ Int.range (start n) (stop n + 1) := by
  simp [concat, List.range_succ]

section Walk

variable {start stop : ℕ → ℤ} {n : ℕ}

/-- The cursor's place in the concatenation. -/
def place (start stop : ℕ → ℤ) (c : ℕ × ℕ) : ℕ := (concat start stop c.1).length + c.2

/-- The cursor stands on an element of one of the `n` ranges. -/
structure Valid (start stop : ℕ → ℤ) (n : ℕ) (c : ℕ × ℕ) : Prop where
  range : c.1 < n
  elem : start c.1 + c.2 ≤ stop c.1

theorem length_concat_succ (start stop : ℕ → ℤ) {k : ℕ} (h : start k ≤ stop k) :
    ((concat start stop (k + 1)).length : ℤ)
      = (concat start stop k).length + (stop k + 1 - start k) := by
  rw [concat_succ, List.length_append, IntRange.length_range]
  omega

theorem length_concat_mono (start stop : ℕ → ℤ) {k m : ℕ} (h : k ≤ m) :
    (concat start stop k).length ≤ (concat start stop m).length := by
  induction h with
  | refl => exact le_rfl
  | step _ ih =>
      rw [concat_succ, List.length_append]
      omega

/-- The element under a valid cursor is the concatenation's at its place. -/
theorem Valid.getElem? {c : ℕ × ℕ} (h : Valid start stop n c) :
    (concat start stop n)[place start stop c]? = some (start c.1 + c.2) := by
  obtain ⟨hk, hi⟩ := h
  induction n with
  | zero => omega
  | succ n ih =>
      rw [concat_succ, place]
      rcases Nat.lt_or_ge c.1 n with hlt | hge
      · have hmono : (concat start stop (c.1 + 1)).length ≤ (concat start stop n).length :=
          length_concat_mono start stop hlt
        have hlen := length_concat_succ start stop (show start c.1 ≤ stop c.1 by omega)
        rw [List.getElem?_append_left (by omega)]
        exact ih hlt
      · have hkn : c.1 = n := by omega
        rw [← hkn, List.getElem?_append_right (by omega), Nat.add_sub_cancel_left]
        exact IntRange.getElem?_range (by omega)

theorem Valid.place_lt {c : ℕ × ℕ} (h : Valid start stop n c) :
    place start stop c < (concat start stop n).length := by
  have hget := h.getElem?
  exact (List.getElem?_eq_some_iff.mp hget).1

/-- The walk's own `last`: the cursor is on the last element of its range. -/
def atEnd (start stop : ℕ → ℤ) (k i : ℕ) : Bool := start k + i == stop k

variable (hne : ∀ k < n, start k ≤ stop k)

include hne in
/-- **One move is one place on**, cyclically, and stays on an element. -/
theorem Valid.advance {c : ℕ × ℕ} (h : Valid start stop n c) :
    Valid start stop n (advance n (atEnd start stop) c)
      ∧ place start stop (RoundRobin.advance n (atEnd start stop) c)
        = (place start stop c + 1) % (concat start stop n).length := by
  have hplace := h.place_lt
  obtain ⟨hk, hi⟩ := h
  have hlen := length_concat_succ start stop (hne c.1 hk)
  unfold RoundRobin.advance
  by_cases hend : start c.1 + c.2 = stop c.1
  · have hlast : atEnd start stop c.1 c.2 = true := by simp [atEnd, hend]
    have hnext : place start stop c + 1 = (concat start stop (c.1 + 1)).length := by
      simp only [place]
      omega
    rw [hlast, if_pos rfl, hnext]
    rcases Nat.lt_or_ge (c.1 + 1) n with hlt | hge
    · -- the next range is one of the `n`: the cursor moves to its start
      have hlen' := length_concat_succ start stop (hne _ hlt)
      have hmono := length_concat_mono start stop
        (show c.1 + 1 + 1 ≤ n from hlt)
      have hne' := hne _ hlt
      rw [Nat.mod_eq_of_lt hlt, Nat.mod_eq_of_lt (by omega)]
      exact ⟨⟨hlt, by simpa using hne'⟩, rfl⟩
    · -- it was the last range: back to the first element of the first
      have hn : c.1 + 1 = n := by omega
      have h0 := hne 0 (by omega)
      rw [hn, Nat.mod_self, Nat.mod_self]
      exact ⟨⟨by simp only []; omega, by simpa using h0⟩, rfl⟩
  · have hlast : atEnd start stop c.1 c.2 = false := by simp [atEnd, hend]
    have hv : Valid start stop n (c.1, c.2 + 1) := ⟨hk, by push_cast; omega⟩
    rw [hlast, if_neg (by simp)]
    refine ⟨hv, ?_⟩
    have hlt := hv.place_lt
    simp only [place] at hlt ⊢
    rw [Nat.mod_eq_of_lt (by omega)]
    omega

include hne in
theorem getElem?_walk_from {q j : ℕ} (hj : j < q) {c : ℕ × ℕ} (h : Valid start stop n c) :
    (walk n start (atEnd start stop) q c)[j]?
      = (concat start stop n)[(place start stop c + j) % (concat start stop n).length]? := by
  induction q generalizing c j with
  | zero => omega
  | succ q ih =>
      cases j with
      | zero =>
          rw [walk, List.getElem?_cons_zero, Nat.add_zero, Nat.mod_eq_of_lt h.place_lt,
            h.getElem?]
      | succ j =>
          obtain ⟨hv, hp⟩ := h.advance hne
          rw [walk, List.getElem?_cons_succ, ih (by omega) hv, hp]
          congr 1
          rw [Nat.mod_add_mod]
          congr 1
          omega

include hne in
/-- **The walk is the concatenation, repeated.** -/
theorem getElem?_walk (hn : 0 < n) {q j : ℕ} (hj : j < q) :
    (walk n start (atEnd start stop) q (0, 0))[j]?
      = (concat start stop n)[j % (concat start stop n).length]? := by
  have hv : Valid start stop n (0, 0) := ⟨hn, by simpa using hne 0 hn⟩
  simpa [place, concat] using getElem?_walk_from hne hj hv

theorem mem_concat {x : ℤ} :
    x ∈ concat start stop n ↔ ∃ k < n, start k ≤ x ∧ x ≤ stop k := by
  simp only [concat, List.mem_flatMap, List.mem_range, Int.mem_range_iff, Int.lt_add_one_iff]

include hne in
/-- The walk stays in the ranges. -/
theorem mem_walk (hn : 0 < n) {q : ℕ} {x : ℤ}
    (h : x ∈ walk n start (atEnd start stop) q (0, 0)) : ∃ k < n, start k ≤ x ∧ x ≤ stop k := by
  obtain ⟨j, hj⟩ := List.getElem?_of_mem h
  have hlt : j < q := by
    have hlen := (List.getElem?_eq_some_iff.mp hj).1
    rwa [length_walk] at hlen
  rw [getElem?_walk hne hn hlt] at hj
  exact mem_concat.mp (List.mem_of_getElem? hj)

/-! ## Shares -/

/-- Every place of the concatenation is a cursor's. -/
theorem exists_valid {p : ℕ} {x : ℤ} (h : (concat start stop n)[p]? = some x) :
    ∃ c, Valid start stop n c ∧ place start stop c = p ∧ start c.1 + c.2 = x := by
  induction n with
  | zero => simp [concat] at h
  | succ n ih =>
      rw [concat_succ] at h
      rcases Nat.lt_or_ge p (concat start stop n).length with hlt | hge
      · rw [List.getElem?_append_left hlt] at h
        obtain ⟨c, ⟨hk, hi⟩, hplace, hx⟩ := ih h
        exact ⟨c, ⟨by omega, hi⟩, hplace, hx⟩
      · rw [List.getElem?_append_right hge] at h
        have hlt : start n + (p - (concat start stop n).length : ℕ) < stop n + 1 := by
          have hlen := (List.getElem?_eq_some_iff.mp h).1
          rw [IntRange.length_range] at hlen
          omega
        rw [IntRange.getElem?_range hlt] at h
        refine ⟨(n, p - (concat start stop n).length), ⟨Nat.lt_succ_self n, ?_⟩, ?_,
          Option.some.inj h⟩
        · dsimp only
          omega
        · dsimp only [place]
          omega

/-- Where an element of one range only is. -/
theorem place_unique {x : ℤ} (hx : ∃! k, k < n ∧ start k ≤ x ∧ x ≤ stop k) :
    ∃ p : ℕ, (concat start stop n)[p]? = some x ∧
      ∀ p' : ℕ, (concat start stop n)[p']? = some x → p' = p := by
  obtain ⟨k, ⟨hk, hlo, hhi⟩, hone⟩ := hx
  have hat : ((x - start k).toNat : ℤ) = x - start k := Int.toNat_of_nonneg (by omega)
  have hv : Valid start stop n (k, (x - start k).toNat) := ⟨hk, by dsimp only; omega⟩
  refine ⟨place start stop (k, (x - start k).toNat), ?_, fun p' hp' => ?_⟩
  · rw [hv.getElem?, hat]
    congr 1
    dsimp only
    omega
  · obtain ⟨⟨k', i⟩, ⟨hk', hi⟩, rfl, hx'⟩ := exists_valid hp'
    dsimp only at hk' hi hx'
    obtain rfl := hone k' ⟨hk', by omega, by omega⟩
    congr 2
    omega

include hne in
/-- The walk as a map over the rounds. -/
theorem walk_eq_map (hn : 0 < n) (q : ℕ) :
    walk n start (atEnd start stop) q (0, 0)
      = (List.range q).map fun j =>
          (concat start stop n).getD (j % (concat start stop n).length) 0 := by
  have hlen : 0 < (concat start stop n).length := by
    have hv : Valid start stop n (0, 0) := ⟨hn, by simpa using hne 0 hn⟩
    exact Nat.zero_lt_of_lt hv.place_lt
  apply List.ext_getElem?
  intro j
  rcases Nat.lt_or_ge j q with hlt | hge
  · have hmod := Nat.mod_lt j hlen
    rw [getElem?_walk hne hn hlt, List.getElem?_map, List.getElem?_range hlt, Option.map_some,
      List.getD_eq_getElem?_getD, List.getElem?_eq_getElem hmod, Option.getD_some]
  · rw [List.getElem?_eq_none (by simpa using hge), List.getElem?_eq_none (by simpa using hge)]

include hne in
/-- **An element of one range only has its share of the rounds**: the whole
turns, and one more or not. -/
theorem count_walk (hn : 0 < n) (q : ℕ) {x : ℤ}
    (hx : ∃! k, k < n ∧ start k ≤ x ∧ x ≤ stop k) :
    q / (concat start stop n).length ≤ (walk n start (atEnd start stop) q (0, 0)).count x ∧
      (walk n start (atEnd start stop) q (0, 0)).count x
        ≤ q / (concat start stop n).length + 1 := by
  obtain ⟨p, hp, hone⟩ := place_unique hx
  have hlt := (List.getElem?_eq_some_iff.mp hp).1
  have hpos : 0 < (concat start stop n).length := Nat.zero_lt_of_lt hlt
  have hhit : ∀ j, (concat start stop n).getD (j % (concat start stop n).length) 0 = x ↔
      j ≡ p [MOD (concat start stop n).length] := by
    intro j
    have hmod := Nat.mod_lt j hpos
    rw [List.getD_eq_getElem?_getD, List.getElem?_eq_getElem hmod, Option.getD_some, Nat.ModEq,
      Nat.mod_eq_of_lt hlt]
    constructor
    · intro heq
      exact hone _ (by rw [List.getElem?_eq_getElem hmod, heq])
    · intro heq
      rw [← heq, List.getElem?_eq_getElem hmod] at hp
      exact Option.some.inj hp
  have hcount : (walk n start (atEnd start stop) q (0, 0)).count x
      = q.count (· ≡ p [MOD (concat start stop n).length]) := by
    rw [walk_eq_map hne hn, List.count_eq_countP, List.countP_map]
    refine List.countP_congr fun j _ => ?_
    simpa using hhit j
  rw [hcount, Nat.count_modEq_card q hpos]
  split <;> omega

/-! ## Walks that do not go round -/

variable {last : ℕ → ℕ → Bool}

/-- A walk that is never `last` stays in its range and goes past its end. -/
theorem getElem?_walk_stay {q j : ℕ} (hj : j < q) {k i : ℕ}
    (hstay : ∀ i', i ≤ i' → last k i' = false) :
    (walk n start last q (k, i))[j]? = some (start k + i + j) := by
  induction q generalizing i j with
  | zero => omega
  | succ q ih =>
      have hnext : advance n last (k, i) = (k, i + 1) := by
        rw [advance, hstay i (Nat.le_refl i), if_neg Bool.false_ne_true]
      rw [walk, hnext]
      cases j with
      | zero => simp
      | succ j =>
          rw [List.getElem?_cons_succ, ih (by omega) fun i' hi' => hstay i' (by omega)]
          congr 1
          push_cast
          ring

include hne in
/-- Two tests that agree on the elements make the same walk. -/
theorem walk_congr (hlast : ∀ c, Valid start stop n c → last c.1 c.2 = atEnd start stop c.1 c.2)
    (q : ℕ) {c : ℕ × ℕ} (h : Valid start stop n c) :
    walk n start last q c = walk n start (atEnd start stop) q c := by
  induction q generalizing c with
  | zero => rfl
  | succ q ih =>
      have hnext : advance n last c = advance n (atEnd start stop) c := by
        rw [RoundRobin.advance, RoundRobin.advance, hlast c h]
      rw [walk, walk, hnext, ih (h.advance hne).1]

end Walk

end RoundRobin
