import CorePartitioning.KTimer.App
import CorePartitioning.KTimer.Sockets

/-!
# simple_proc — the block loop of APP against that of PER

Both walk through the block ranges of the two sockets. PER moves to the
next socket on the last core of a range. APP adds the offset to the wrong
side of the test, which then says "the first core, and the range has no
other": from a range of two cores or more it never moves on, and goes past
the end. The two give the same hints when no queue gets that far, when both
ranges have one core, and when what lies past the end is where PER goes.
-/

namespace CorePartitioning.KTimer.App

open RoundRobin

section Walk

variable {start stop : Nat → Int}

/-- The test of APP. -/
def wrongEnd (start stop : Nat → Int) (k i : Nat) : Bool := stop k + i == start k

/-- The number of elements of range `k`. -/
def rangeSize (start stop : Nat → Int) (k : Nat) : Int := stop k - start k + 1

/-- The queues do not get past the end of a range, or find there what comes
next. -/
def Harmless (start stop : Nat → Int) (q : Nat) : Prop :=
  (rangeSize start stop 0 = 1 ∧ rangeSize start stop 1 = 1) ∨
  q ≤ rangeSize start stop 0 ∨
  (rangeSize start stop 0 = 1 ∧ q ≤ rangeSize start stop 1 + 1) ∨
  (start 1 = stop 0 + 1 ∧ q ≤ rangeSize start stop 0 + rangeSize start stop 1) ∨
  (rangeSize start stop 0 = 1 ∧ start 0 = stop 1 + 1 ∧ q ≤ rangeSize start stop 1 + 2)

variable (hne : ∀ k < 2, start k ≤ stop k)

theorem wrongEnd_false {k : Nat} (hk : start k < stop k) (i : Nat) :
    wrongEnd start stop k i = false := by
  simp only [wrongEnd, beq_eq_false_iff_ne]
  omega

/-! ### PER -/

/-- The lengths of the two ranges together, and of the first. -/
theorem length_concat_two (h : ∀ k < 2, start k ≤ stop k) :
    ((concat start stop 2).length : Int) = rangeSize start stop 0 + rangeSize start stop 1 ∧
      ((concat start stop 1).length : Int) = rangeSize start stop 0 := by
  have hnone : (concat start stop 0).length = 0 := rfl
  have hzero : ((concat start stop 1).length : Int)
      = (concat start stop 0).length + (stop 0 + 1 - start 0) :=
    length_concat_succ start stop (h 0 (by omega))
  have hone : ((concat start stop 2).length : Int)
      = (concat start stop 1).length + (stop 1 + 1 - start 1) :=
    length_concat_succ start stop (h 1 (by omega))
  unfold rangeSize
  omega

section Walks

variable {q : Nat}

include hne

/-- In turn `m` queue `j` of PER gets element `i` of range `k`. -/
theorem getElem?_walk_turn {k i m j : Nat} (hk : k < 2) (hi : start k + i ≤ stop k)
    (hj : j = place start stop (k, i) + (concat start stop 2).length * m) (hjq : j < q) :
    (walk 2 start (atEnd start stop) q (0, 0))[j]? = some (start k + i) := by
  have hv : Valid start stop 2 (k, i) := ⟨hk, hi⟩
  rw [getElem?_walk hne (by omega) hjq, hj, Nat.add_mul_mod_self_left,
    Nat.mod_eq_of_lt hv.place_lt]
  exact hv.getElem?

/-- The first queues of PER: those of the first range, then those of the
second. -/
theorem getElem?_walk_first {j : Nat} (hj : (j : Int) < rangeSize start stop 0) (hjq : j < q) :
    (walk 2 start (atEnd start stop) q (0, 0))[j]? = some (start 0 + j) := by
  have hplace : place start stop (0, j) = j := by simp [place, concat]
  unfold rangeSize at hj
  exact getElem?_walk_turn hne (m := 0) (by omega) (by omega) (by rw [hplace]; rfl) hjq

theorem getElem?_walk_second {j : Nat} (hlo : rangeSize start stop 0 ≤ j)
    (hj : (j : Int) < rangeSize start stop 0 + rangeSize start stop 1) (hjq : j < q) :
    (walk 2 start (atEnd start stop) q (0, 0))[j]?
      = some (start 1 + (j - rangeSize start stop 0)) := by
  obtain ⟨-, hlen⟩ := length_concat_two hne
  have hplace : place start stop (1, j - (concat start stop 1).length) = j := by
    show (concat start stop 1).length + (j - (concat start stop 1).length) = j
    omega
  have hcast : ((j - (concat start stop 1).length : Nat) : Int) = j - rangeSize start stop 0 := by
    omega
  have hget := getElem?_walk_turn hne (q := q) (k := 1)
    (i := j - (concat start stop 1).length) (m := 0) (by omega)
    (by rw [hcast]; unfold rangeSize at hj ⊢; omega) (by rw [hplace]; rfl) hjq
  rwa [hcast] at hget

/-- The second turn of PER begins. -/
theorem getElem?_walk_again {j : Nat}
    (hj : (j : Int) = rangeSize start stop 0 + rangeSize start stop 1) (hjq : j < q) :
    (walk 2 start (atEnd start stop) q (0, 0))[j]? = some (start 0) := by
  obtain ⟨hlen, -⟩ := length_concat_two hne
  have hzero := hne 0 (by omega)
  have hplace : place start stop (0, 0) = 0 := rfl
  have hget := getElem?_walk_turn hne (q := q) (k := 0) (i := 0) (m := 1) (j := j) (by omega)
    (by omega) (by rw [hplace]; omega) hjq
  simpa using hget

/-- With one element in the first range, the second turn goes on to the
second range. -/
theorem getElem?_walk_again_second {j : Nat} (hone : rangeSize start stop 0 = 1)
    (hj : (j : Int) = rangeSize start stop 1 + 2) (hjq : j < q) :
    (walk 2 start (atEnd start stop) q (0, 0))[j]? = some (start 1) := by
  obtain ⟨hlen, hlen'⟩ := length_concat_two hne
  have hone' := hne 1 (by omega)
  have hplace : place start stop (1, 0) = (concat start stop 1).length := rfl
  have hget := getElem?_walk_turn hne (q := q) (k := 1) (i := 0) (m := 1) (j := j) (by omega)
    (by omega) (by rw [hplace]; omega) hjq
  simpa using hget

end Walks

/-! ### APP -/

/-- A first range of two or more is not left. -/
theorem getElem?_walk_wrong {q j : Nat} (hsize : 1 < rangeSize start stop 0) (hj : j < q) :
    (walk 2 start (wrongEnd start stop) q (0, 0))[j]? = some (start 0 + j) := by
  have hlt : start 0 < stop 0 := by
    unfold rangeSize at hsize
    omega
  have hget : (walk 2 start (wrongEnd start stop) q (0, 0))[j]? = some (start 0 + (0 : Nat) + j) :=
    getElem?_walk_stay hj fun i _ => wrongEnd_false hlt i
  simpa using hget

/-- After a first range of one the second is not left. -/
theorem walk_wrong_one (h : rangeSize start stop 0 = 1) (q : Nat) :
    walk 2 start (wrongEnd start stop) (q + 1) (0, 0)
      = start 0 :: walk 2 start (wrongEnd start stop) q (1, 0) := by
  have hlast : wrongEnd start stop 0 0 = true := by
    simp only [wrongEnd, beq_iff_eq]
    unfold rangeSize at h
    push_cast
    omega
  have hnext : advance 2 (wrongEnd start stop) (0, 0) = (1, 0) := by
    rw [advance, hlast, if_pos rfl]
    rfl
  rw [walk, hnext]
  simp

theorem getElem?_walk_wrong_one {q j : Nat} (hone : rangeSize start stop 0 = 1)
    (hsize : 1 < rangeSize start stop 1) (hj : j + 1 < q) :
    (walk 2 start (wrongEnd start stop) q (0, 0))[j + 1]? = some (start 1 + j) := by
  have hlt : start 1 < stop 1 := by
    unfold rangeSize at hsize
    omega
  obtain ⟨q, rfl⟩ : ∃ p, q = p + 1 := ⟨q - 1, by omega⟩
  rw [walk_wrong_one hone, List.getElem?_cons_succ]
  have hget : (walk 2 start (wrongEnd start stop) q (1, 0))[j]? = some (start 1 + (0 : Nat) + j) :=
    getElem?_walk_stay (by omega) fun i _ => wrongEnd_false hlt i
  simpa using hget

/-! ### The comparison -/

/-- Cell by cell. -/
theorem walks_eq_iff (last last' : Nat → Nat → Bool) (q : Nat) :
    walk 2 start last q (0, 0) = walk 2 start last' q (0, 0) ↔
      ∀ j < q, (walk 2 start last q (0, 0))[j]? = (walk 2 start last' q (0, 0))[j]? := by
  constructor
  · intro heq j _
    rw [heq]
  · intro hcells
    apply List.ext_getElem?
    intro j
    rcases Nat.lt_or_ge j q with hlt | hge
    · exact hcells j hlt
    · rw [List.getElem?_eq_none (by simpa using hge), List.getElem?_eq_none (by simpa using hge)]

section Compare

variable (hne : ∀ k < 2, start k ≤ stop k) (q : Nat)
include hne

theorem rangeSize_pos {k : Nat} (hk : k < 2) : 0 < rangeSize start stop k := by
  have hle := hne k hk
  unfold rangeSize
  omega

/-- A first range of two or more: APP goes straight on. -/
theorem walks_eq_of_long (hsize : 1 < rangeSize start stop 0) :
    walk 2 start (wrongEnd start stop) q (0, 0) = walk 2 start (atEnd start stop) q (0, 0) ↔
      q ≤ rangeSize start stop 0 ∨
        start 1 = stop 0 + 1 ∧ q ≤ rangeSize start stop 0 + rangeSize start stop 1 := by
  obtain ⟨n, hn⟩ : ∃ n : Nat, (n : Int) = rangeSize start stop 0 :=
    ⟨(rangeSize start stop 0).toNat, Int.toNat_of_nonneg (by omega)⟩
  obtain ⟨m, hm⟩ : ∃ m : Nat, (m : Int) = rangeSize start stop 1 :=
    ⟨(rangeSize start stop 1).toNat, Int.toNat_of_nonneg (rangeSize_pos hne (by omega)).le⟩
  have hpos := rangeSize_pos hne (k := 1) (by omega)
  have hstop : stop 0 = start 0 + n - 1 := by
    unfold rangeSize at hn
    omega
  rw [walks_eq_iff]
  constructor
  · intro hcells
    by_contra hno
    rw [not_or, not_and_or] at hno
    obtain ⟨hq, hrest⟩ := hno
    -- the first queue past the first range
    have hnext := hcells n (by omega)
    rw [getElem?_walk_wrong hsize (by omega),
      getElem?_walk_second hne (by omega) (by omega) (by omega), Option.some_inj] at hnext
    rcases hrest with hgap | hq'
    · exact hgap (by omega)
    · -- the first queue past both
      have hagain := hcells (n + m) (by omega)
      rw [getElem?_walk_wrong hsize (by omega), getElem?_walk_again hne (by omega) (by omega),
        Option.some_inj] at hagain
      omega
  · intro hend j hj
    rw [getElem?_walk_wrong hsize hj]
    rcases Nat.lt_or_ge j n with hlt | hge
    · rw [getElem?_walk_first hne (by omega) hj]
    · rcases hend with hq | ⟨hgap, hq⟩
      · omega
      · rw [getElem?_walk_second hne (by omega) (by omega) hj]
        congr 1
        omega

/-- A first range of one and a second of two or more: APP goes straight on
from there. -/
theorem walks_eq_of_one (hone : rangeSize start stop 0 = 1) (hsize : 1 < rangeSize start stop 1) :
    walk 2 start (wrongEnd start stop) q (0, 0) = walk 2 start (atEnd start stop) q (0, 0) ↔
      q ≤ rangeSize start stop 1 + 1 ∨ start 0 = stop 1 + 1 ∧ q ≤ rangeSize start stop 1 + 2 := by
  obtain ⟨m, hm⟩ : ∃ m : Nat, (m : Int) = rangeSize start stop 1 :=
    ⟨(rangeSize start stop 1).toNat, Int.toNat_of_nonneg (by omega)⟩
  have hstop : stop 1 = start 1 + m - 1 := by
    unfold rangeSize at hm
    omega
  rw [walks_eq_iff]
  constructor
  · intro hcells
    by_contra hno
    rw [not_or, not_and_or] at hno
    obtain ⟨hq, hrest⟩ := hno
    -- the first queue of the second turn
    have hagain := hcells (m + 1) (by omega)
    rw [getElem?_walk_wrong_one hone hsize (by omega),
      getElem?_walk_again hne (by push_cast; omega) (by omega), Option.some_inj] at hagain
    rcases hrest with hgap | hq'
    · exact hgap (by omega)
    · -- and the one after it
      have hnext := hcells (m + 2) (by omega)
      rw [getElem?_walk_wrong_one hone hsize (by omega),
        getElem?_walk_again_second hne hone (by push_cast; omega) (by omega),
        Option.some_inj] at hnext
      push_cast at hnext
      omega
  · intro hend j hj
    cases j with
    | zero =>
        obtain ⟨p, rfl⟩ : ∃ p, q = p + 1 := ⟨q - 1, by omega⟩
        rw [walk_wrong_one hone, getElem?_walk_first hne (by omega) hj]
        simp
    | succ j =>
        rw [getElem?_walk_wrong_one hone hsize hj]
        rcases Nat.lt_or_ge j m with hlt | hge
        · rw [getElem?_walk_second hne (by push_cast; omega) (by push_cast; omega) hj]
          congr 1
          push_cast
          omega
        · rcases hend with hq | ⟨hgap, hq⟩
          · omega
          · rw [getElem?_walk_again hne (by push_cast; omega) hj]
            congr 1
            omega

/-- Two ranges of one: both loops change the socket each time. -/
theorem walks_eq_of_ones (hzero : rangeSize start stop 0 = 1) (hone : rangeSize start stop 1 = 1) :
    walk 2 start (wrongEnd start stop) q (0, 0) = walk 2 start (atEnd start stop) q (0, 0) := by
  refine walk_congr hne ?_ q ⟨by omega, by simpa using hne 0 (by omega)⟩
  rintro ⟨k, i⟩ ⟨hk, hi⟩
  have hsame : start k = stop k := by
    unfold rangeSize at hzero hone
    obtain rfl | rfl : k = 0 ∨ k = 1 := by
      dsimp only at hk
      omega
    · omega
    · omega
  have hi0 : i = 0 := by
    dsimp only at hi
    omega
  simp [wrongEnd, atEnd, hi0, hsame]

/-- **The two walks are the same exactly where the wrong test is harmless.** -/
theorem walks_eq_iff_harmless :
    walk 2 start (wrongEnd start stop) q (0, 0) = walk 2 start (atEnd start stop) q (0, 0) ↔
      Harmless start stop q := by
  have hzero := rangeSize_pos hne (k := 0) (by omega)
  have hone := rangeSize_pos hne (k := 1) (by omega)
  unfold Harmless
  by_cases hlong : 1 < rangeSize start stop 0
  · rw [walks_eq_of_long hne q hlong]
    omega
  · have hsingle : rangeSize start stop 0 = 1 := by omega
    by_cases hlong' : 1 < rangeSize start stop 1
    · rw [walks_eq_of_one hne q hsingle hlong']
      omega
    · exact iff_of_true (walks_eq_of_ones hne q hsingle (by omega)) (.inl ⟨hsingle, by omega⟩)

end Compare

end Walk

/-! ## The hints -/

/-- The number of block cores of a socket. -/
def blkSize (b : Bounds) : Int := b.blk_end - b.blk_start + 1

/-- The wrong test of APP changes nothing where `one` is socket 1 and `zero`
socket 0: both block ranges have one core, or socket 1's has as many as
there are queues, or socket 1's has one core and socket 0's is long enough
for the others, or the queues that go past the end of a range come to the
cores of the next. -/
def TestHarmless (one zero : Bounds) : Prop :=
  (blkSize one = 1 ∧ blkSize zero = 1) ∨
  BLK_QUEUES ≤ blkSize one ∨
  (blkSize one = 1 ∧ BLK_QUEUES ≤ blkSize zero + 1) ∨
  (zero.blk_start = one.blk_end + 1 ∧ BLK_QUEUES ≤ blkSize one + blkSize zero) ∨
  (blkSize one = 1 ∧ one.blk_start = zero.blk_end + 1 ∧ BLK_QUEUES ≤ blkSize zero + 2)

def BlkTestHarmless (per : Socket → Bounds) : Prop :=
  TestHarmless (per ⟨1, Nat.one_lt_two⟩) (per ⟨0, Nat.two_pos⟩)

instance (per : Socket → Bounds) : Decidable (BlkTestHarmless per) :=
  inferInstanceAs (Decidable (_ ∨ _))

/-- The hints tell the walk. -/
theorem map_core_hints (par : Params) {cores : List Int} (h : cores.length = BLK_QUEUES) :
    ((List.finRange BLK_QUEUES).zipWith
      (fun j core => (⟨.blk j, par.irq_blk j, core⟩ : Hint)) cores).map Hint.core = cores := by
  rw [List.map_zipWith]
  refine List.ext_getElem (by simp [h]) fun i h₁ h₂ => ?_
  simp

/-- **The block loops of APP and PER give the same hints exactly where the
wrong test is harmless**, whatever the ranges of the two sockets. -/
theorem app_blk_loop_agrees_iff (par : Params) {per : Socket → Bounds}
    (h : ∀ s, (per s).blk_start ≤ (per s).blk_end) :
    redistributeBlk par per NUMBER_OF_SOCKETS
        = Sockets.redistributeBlk par per NUMBER_OF_SOCKETS ↔ BlkTestHarmless per := by
  have hne : ∀ k < 2, (fun k => (per (socketAt k)).blk_start) k
      ≤ (fun k => (per (socketAt k)).blk_end) k := fun k _ => h _
  have hend : (fun (k i : Nat) => (per (socketAt k)).blk_end == (per (socketAt k)).blk_start + i)
      = atEnd (fun k => (per (socketAt k)).blk_start) (fun k => (per (socketAt k)).blk_end) := by
    funext k i
    exact Bool.beq_comm
  have hwalks := walks_eq_iff_harmless hne BLK_QUEUES
  have hharmless : BlkTestHarmless per ↔ Harmless (fun k => (per (socketAt k)).blk_start)
      (fun k => (per (socketAt k)).blk_end) BLK_QUEUES := Iff.rfl
  rw [hharmless, ← hwalks, redistributeBlk, Sockets.redistributeBlk, hend]
  constructor
  · intro heq
    have hcores := congrArg (List.map Hint.core) heq
    rwa [map_core_hints par (length_walk ..), map_core_hints par (length_walk ..)] at hcores
  · intro heq
    show (List.finRange BLK_QUEUES).zipWith _ (walk 2 _ (wrongEnd _ _) BLK_QUEUES (0, 0)) = _
    rw [heq]

/-- One block core on each socket. -/
theorem app_blk_loop_agrees_on_single_cores :
    redistributeBlk .unset (fun s => { init_simpleproc s with blk_start := 10 * s + 9 })
        NUMBER_OF_SOCKETS
      = Sockets.redistributeBlk .unset
        (fun s => { init_simpleproc s with blk_start := 10 * s + 9 }) NUMBER_OF_SOCKETS :=
  (app_blk_loop_agrees_iff .unset (by decide)).mpr (.inl (by decide))

/-- With the boundaries at the start, queue 3 would go to core 20 in place of
core 7. -/
theorem app_blk_loop_runs_over :
    ¬ ∀ (par : Params) (per : Socket → Bounds), (∀ s, (per s).blk_start ≤ (per s).blk_end) →
      redistributeBlk par per NUMBER_OF_SOCKETS
        = Sockets.redistributeBlk par per NUMBER_OF_SOCKETS := by
  intro h
  have hcores := congrArg (List.map Hint.core) (h .unset init_simpleproc (by decide))
  revert hcores
  decide

end CorePartitioning.KTimer.App
