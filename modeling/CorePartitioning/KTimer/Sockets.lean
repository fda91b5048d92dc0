import CorePartitioning.KTimer.Placement
import CorePartitioning.Lib.Ticks

/-!
# simple_proc — the socket loops of CROSS and PER

What the two modes share: the averaging pass, the boundary moves and the
redistribution. The loops count `i` from 1 to `socket_number` and work on
socket `NUMBER_OF_SOCKETS - i`, but some reads of the averages are at `i`
itself. With two sockets `i = 2` is past the end of the arrays, and such a
read gives whatever is in memory there: `Outside` is an input of the tick.

A write outside the arrays, or a boundary read there, has no meaning, so
the loops return `none` where `NUMBER_OF_SOCKETS - i` is no index.
-/

namespace CorePartitioning.KTimer.Sockets

/-! ## Arrays -/

/-- `blk_queue_util_avg`, `net_queue_util_avg` and `net_sys_util_avg`. -/
structure Avgs where
  blk_queue_util_avg : Socket → Int
  net_queue_util_avg : Socket → Int
  net_sys_util_avg : Socket → Int

/-- What reads outside the three arrays give, by index. -/
structure Outside where
  blk_queue_util_avg : Int → Int
  net_queue_util_avg : Int → Int
  net_sys_util_avg : Int → Int

/-- The same value everywhere. -/
def Outside.const (x : Int) : Outside := ⟨fun _ => x, fun _ => x, fun _ => x⟩

/-- Index `i` of an array with a cell for each socket. -/
def cell? (i : Int) : Option Socket :=
  if h : 0 ≤ i ∧ i < NUMBER_OF_SOCKETS then some ⟨i.toNat, by omega⟩ else none

def readAt (a : Socket → Int) (outside : Int → Int) (i : Int) : Int :=
  match cell? i with
  | some s => a s
  | none => outside i

/-- The globals that a tick reads and leaves behind. -/
structure State where
  per : Socket → Bounds
  socket_number : Int
  dynamic_turn : Turn
  avgs : Avgs

/-- The boundaries that `init_simpleproc` sets in both modes. -/
def initBounds : Socket → Bounds
  | 0 => { net_start := 0, net_end := 2, app_start := 0, app_end := 0,
           blk_start := 6, blk_end := 9 }
  | 1 => { net_start := 10, net_end := 12, app_start := 0, app_end := 0,
           blk_start := 16, blk_end := 19 }

def init_simpleproc : State where
  per := initBounds
  socket_number := 1
  dynamic_turn := .blk
  avgs := ⟨fun _ => 0, fun _ => 0, fun _ => 0⟩

/-! ## The averaging pass -/

/-- What the pass carries from socket to socket. `used` are the indices at
which it wrote or read the three arrays. -/
structure Pass where
  avgs : Avgs
  sum_avg : Int
  used : List Int

/-- The loop body for `i`. -/
def averageSocket (p_dynamic : Int → Int) (outside : Outside) (per : Socket → Bounds) (a : Pass)
    (i : Int) : Option Pass := do
  let s ← cell? (NUMBER_OF_SOCKETS - i)
  let b := per s
  let blk := accumulate p_dynamic b.blk_start (b.blk_end + 1)
  let blk_avg ← cdiv blk.util blk.core_counter
  let blk_queue_util_avg := Function.update a.avgs.blk_queue_util_avg s blk_avg
  let sum_avg := a.sum_avg + readAt blk_queue_util_avg outside.blk_queue_util_avg i
  let net := accumulate p_dynamic b.net_start (b.net_end + 1)
  let net_avg ← cdiv net.util net.core_counter
  let net_queue_util_avg := Function.update a.avgs.net_queue_util_avg s net_avg
  let sum_avg := sum_avg + readAt net_queue_util_avg outside.net_queue_util_avg i
  let sys := accumulate p_dynamic (b.net_end + 1) b.blk_start
  let sys_avg ← cdiv sys.util sys.core_counter
  let net_sys_util_avg := Function.update a.avgs.net_sys_util_avg s sys_avg
  let sum_avg := sum_avg + readAt net_sys_util_avg outside.net_sys_util_avg i
  return {
    avgs := { blk_queue_util_avg, net_queue_util_avg, net_sys_util_avg }
    sum_avg
    used := a.used ++ [NUMBER_OF_SOCKETS - i, i] }

def averagePass (p_dynamic : Int → Int) (outside : Outside) (per : Socket → Bounds)
    (socket_number : Int) (avgs : Avgs) : Option Pass := do
  let a ← (Int.range 1 (socket_number + 1)).foldlM (averageSocket p_dynamic outside per)
    { avgs, sum_avg := 0, used := [] }
  let sum_avg ← cdiv a.sum_avg (socket_number * 3)
  return { a with sum_avg }

/-! ## The boundary moves -/

/-- The branches for one socket. `high` is `blk_queue_util_avg[i]`, which
the turn for blk compares with `T_HIGH`; the other averages are the
socket's own. -/
def moveBounds (turn : Turn) (high blk net sys : Int) (b : Bounds) : Bounds :=
  match turn with
  | .blk =>
      if T_HIGH < high then
        if blk > sys then
          if b.blk_start - b.net_end > 3 then { b with blk_start := b.blk_start - 1 } else b
        else if blk < sys then
          if b.blk_start ≠ b.blk_end then { b with blk_start := b.blk_start + 1 } else b
        else b
      else if blk < T_LOW then
        if b.blk_end ≠ b.blk_start then { b with blk_start := b.blk_start + 1 } else b
      else b
  | .net =>
      if T_HIGH < net then
        if net > sys then
          if b.blk_start - b.net_end > 3 then { b with net_end := b.net_end + 1 } else b
        else if net < sys then
          if b.net_start ≠ b.net_end then { b with net_end := b.net_end - 1 } else b
        else b
      else if net < T_LOW then
        if b.net_start ≠ b.net_end then { b with net_end := b.net_end - 1 } else b
      else b

/-- The boundaries, and the indices at which the averages were read. -/
structure Moves where
  per : Socket → Bounds
  used : List Int

/-- The loop body for `i`. -/
def moveSocket (turn : Turn) (avgs : Avgs) (outside : Outside) (m : Moves) (i : Int) :
    Option Moves := do
  let s ← cell? (NUMBER_OF_SOCKETS - i)
  let high := readAt avgs.blk_queue_util_avg outside.blk_queue_util_avg i
  return {
    per := Function.update m.per s (moveBounds turn high (avgs.blk_queue_util_avg s)
      (avgs.net_queue_util_avg s) (avgs.net_sys_util_avg s) (m.per s))
    used := m.used ++ (if turn = .blk then [i] else []) ++ [NUMBER_OF_SOCKETS - i] }

def moveSockets (turn : Turn) (avgs : Avgs) (outside : Outside) (socket_number : Int)
    (per : Socket → Bounds) : Option Moves :=
  (Int.range 1 (socket_number + 1)).foldlM (moveSocket turn avgs outside) { per, used := [] }

/-! ## The redistribution -/

def redistributeBlk (par : Params) (per : Socket → Bounds) (socket_number : Nat) : List Hint :=
  (List.finRange BLK_QUEUES).zipWith (fun j core => ⟨.blk j, par.irq_blk j, core⟩)
    (RoundRobin.walk socket_number (fun k => (per (socketAt k)).blk_start)
      (fun k i => (per (socketAt k)).blk_end == (per (socketAt k)).blk_start + i)
      BLK_QUEUES (0, 0))

def redistributeNet (par : Params) (per : Socket → Bounds) (socket_number : Nat) : List Hint :=
  (List.finRange NET_QUEUES).zipWith (fun j core => ⟨.net j, par.irq_net j, core⟩)
    (RoundRobin.walk socket_number (fun k => (per (socketAt k)).net_start)
      (fun k i => (per (socketAt k)).net_start + i == (per (socketAt k)).net_end)
      NET_QUEUES (0, 0))

/-! ## The rest of a tick -/

/-- What a tick reads besides the globals: the utilisations, and the memory
outside the arrays in the pass before the scaling (CROSS only), in the pass
before the moves, and in the moves. -/
structure Input where
  p_dynamic : Int → Int
  scaling : Outside
  averages : Outside
  moves : Outside

/-- The state a tick leaves, the hints it gives, and the indices at which it
used the averages. -/
structure Tick where
  state : State
  hints : List Hint
  used : List Int

/-- From the second pass of CROSS, or the only one of PER, to the end. -/
def finishTick (par : Params) (inp : Input) (st : State) : Option Tick := do
  let a ← averagePass inp.p_dynamic inp.averages st.per st.socket_number st.avgs
  let m ← moveSockets st.dynamic_turn a.avgs inp.moves st.socket_number st.per
  let used := a.used ++ m.used
  match st.dynamic_turn with
  | .blk =>
      return {
        state := { st with per := m.per, avgs := a.avgs, dynamic_turn := .net }
        hints := redistributeBlk par m.per st.socket_number.toNat, used }
  | .net =>
      return {
        state := { st with per := m.per, avgs := a.avgs, dynamic_turn := .blk }
        hints := redistributeNet par m.per st.socket_number.toNat, used }

/-! ## What the passes compute -/

/-- The average over a group of cores. -/
def loadAvg (p_dynamic : Int → Int) (lo hi : Int) : Int :=
  (accumulate p_dynamic lo hi).util.tdiv (hi - lo)

def blkAvg (p_dynamic : Int → Int) (b : Bounds) : Int :=
  loadAvg p_dynamic b.blk_start (b.blk_end + 1)

def netAvg (p_dynamic : Int → Int) (b : Bounds) : Int :=
  loadAvg p_dynamic b.net_start (b.net_end + 1)

def sysAvg (p_dynamic : Int → Int) (b : Bounds) : Int :=
  loadAvg p_dynamic (b.net_end + 1) b.blk_start

theorem cdiv_accumulate (p_dynamic : Int → Int) {lo hi : Int} (h : lo < hi) :
    cdiv (accumulate p_dynamic lo hi).util (accumulate p_dynamic lo hi).core_counter
      = some (loadAvg p_dynamic lo hi) := by
  have hcount : (accumulate p_dynamic lo hi).core_counter = hi - lo := by
    rw [accumulate_eq p_dynamic h.le]
  rw [hcount, loadAvg]
  exact cdiv_eq_some (by omega)

/-- The partition of socket `s`. -/
structure Inv (s : Socket) (b : Bounds) : Prop where
  net_start : b.net_start = (initBounds s).net_start
  blk_end : b.blk_end = (initBounds s).blk_end
  net : b.net_start ≤ b.net_end
  gap : b.net_end + 3 ≤ b.blk_start
  blk : b.blk_start ≤ b.blk_end

theorem inv_init (s : Socket) : Inv s (initBounds s) := by
  fin_cases s
  · exact ⟨rfl, rfl, by decide, by decide, by decide⟩
  · exact ⟨rfl, rfl, by decide, by decide, by decide⟩

/-- The averages of socket `s` stored. -/
def Avgs.store (a : Avgs) (p_dynamic : Int → Int) (s : Socket) (b : Bounds) : Avgs where
  blk_queue_util_avg := Function.update a.blk_queue_util_avg s (blkAvg p_dynamic b)
  net_queue_util_avg := Function.update a.net_queue_util_avg s (netAvg p_dynamic b)
  net_sys_util_avg := Function.update a.net_sys_util_avg s (sysAvg p_dynamic b)

/-- What the pass adds to `sum_avg` at `i`. -/
def Avgs.sumAt (a : Avgs) (outside : Outside) (i : Int) : Int :=
  readAt a.blk_queue_util_avg outside.blk_queue_util_avg i
    + readAt a.net_queue_util_avg outside.net_queue_util_avg i
    + readAt a.net_sys_util_avg outside.net_sys_util_avg i

/-- With the partition no division of the pass traps. -/
theorem averageSocket_eq (p_dynamic : Int → Int) (outside : Outside) {per : Socket → Bounds}
    {s : Socket} (h : Inv s (per s)) (a : Pass) {i : Int}
    (hi : cell? (NUMBER_OF_SOCKETS - i) = some s) :
    averageSocket p_dynamic outside per a i = some {
      avgs := a.avgs.store p_dynamic s (per s)
      sum_avg := a.sum_avg + (a.avgs.store p_dynamic s (per s)).sumAt outside i
      used := a.used ++ [NUMBER_OF_SOCKETS - i, i] } := by
  obtain ⟨-, -, hnet, hgap, hblk⟩ := h
  have hb := cdiv_accumulate p_dynamic (show (per s).blk_start < (per s).blk_end + 1 by omega)
  have hn := cdiv_accumulate p_dynamic (show (per s).net_start < (per s).net_end + 1 by omega)
  have hs := cdiv_accumulate p_dynamic (show (per s).net_end + 1 < (per s).blk_start by omega)
  simp only [averageSocket, hi, hb, hn, hs, Option.bind_eq_bind, Option.bind_some]
  simp only [Avgs.sumAt, Avgs.store, blkAvg, netAvg, sysAvg, add_assoc]
  rfl

/-! ## The active sockets -/

/-- Indices `NUMBER_OF_SOCKETS - 1` down to
`NUMBER_OF_SOCKETS - socket_number`. -/
def Active (socket_number : Int) (s : Socket) : Prop := NUMBER_OF_SOCKETS - socket_number ≤ s

instance (socket_number : Int) (s : Socket) : Decidable (Active socket_number s) :=
  inferInstanceAs (Decidable (_ ≤ _))

/-- `socket_number` is a number of sockets. -/
def Counts (socket_number : Int) : Prop := 1 ≤ socket_number ∧ socket_number ≤ NUMBER_OF_SOCKETS

instance (n : Int) : Decidable (Counts n) := inferInstanceAs (Decidable (_ ∧ _))

theorem Counts.cases {n : Int} (h : Counts n) : n = 1 ∨ n = 2 := by
  obtain ⟨hlo, hhi⟩ := h
  simp only [NUMBER_OF_SOCKETS] at hhi
  omega

theorem active_one (n : Int) (h : Counts n) : Active n 1 := by
  rcases h.cases with rfl | rfl <;> decide

theorem active_zero_iff {n : Int} (h : Counts n) : Active n 0 ↔ n = 2 := by
  rcases h.cases with rfl | rfl <;> decide

/-- An index of the three arrays. -/
def InArrays (i : Int) : Prop := 0 ≤ i ∧ i ≤ NUMBER_OF_SOCKETS - 1

instance (i : Int) : Decidable (InArrays i) := inferInstanceAs (Decidable (_ ∧ _))

/-- The mean of the three averages over the active sockets. -/
def mean (p_dynamic : Int → Int) (per : Socket → Bounds) (socket_number : Int) : Int :=
  ((socketLoop.filter (Active socket_number)).map fun s =>
    blkAvg p_dynamic (per s) + netAvg p_dynamic (per s) + sysAvg p_dynamic (per s)).sum.tdiv
    (3 * socket_number)

/-- What the pass leaves. -/
structure PassSpec (p_dynamic : Int → Int) (per : Socket → Bounds) (socket_number : Int)
    (a : Pass) : Prop where
  blk : ∀ s, Active socket_number s → a.avgs.blk_queue_util_avg s = blkAvg p_dynamic (per s)
  net : ∀ s, Active socket_number s → a.avgs.net_queue_util_avg s = netAvg p_dynamic (per s)
  sys : ∀ s, Active socket_number s → a.avgs.net_sys_util_avg s = sysAvg p_dynamic (per s)
  sum : socket_number = 1 → a.sum_avg = mean p_dynamic per 1
  used : (∀ i ∈ a.used, InArrays i) ↔ socket_number = 1

section Pass

variable {p_dynamic : Int → Int} {per : Socket → Bounds}

theorem averagePass_one (outside : Outside) (h : Inv 1 (per 1)) (avgs : Avgs) :
    averagePass p_dynamic outside per 1 avgs = some {
      avgs := avgs.store p_dynamic 1 (per 1)
      sum_avg := ((avgs.store p_dynamic 1 (per 1)).sumAt outside 1).tdiv 3
      used := [1, 1] } := by
  have hrange : Int.range 1 (1 + 1) = [1] := by decide
  have hone := fun a => averageSocket_eq p_dynamic outside h a (i := 1) rfl
  simp only [averagePass, hrange, List.foldlM_cons, List.foldlM_nil, hone, Option.bind_eq_bind,
    Option.bind_some, Option.pure_def, zero_add, List.nil_append]
  rfl

/-- With two sockets the sum takes in what is past the end of the arrays. -/
theorem averagePass_two (outside : Outside) (h : ∀ s, Inv s (per s)) (avgs : Avgs) :
    averagePass p_dynamic outside per 2 avgs = some {
      avgs := (avgs.store p_dynamic 1 (per 1)).store p_dynamic 0 (per 0)
      sum_avg := ((avgs.store p_dynamic 1 (per 1)).sumAt outside 1
        + ((avgs.store p_dynamic 1 (per 1)).store p_dynamic 0 (per 0)).sumAt outside 2).tdiv 6
      used := [1, 1, 0, 2] } := by
  have hrange : Int.range 1 (2 + 1) = [1, 2] := by decide
  have hone := fun a => averageSocket_eq p_dynamic outside (h 1) a (i := 1) rfl
  have htwo := fun a => averageSocket_eq p_dynamic outside (h 0) a (i := 2) rfl
  simp only [averagePass, hrange, List.foldlM_cons, List.foldlM_nil, hone, htwo,
    Option.bind_eq_bind, Option.bind_some, Option.pure_def, zero_add, List.nil_append]
  rfl

theorem averagePass_spec (p_dynamic : Int → Int) (outside : Outside) (h : ∀ s, Inv s (per s))
    {n : Int} (hn : Counts n) (avgs : Avgs) :
    ∃ a, averagePass p_dynamic outside per n avgs = some a ∧ PassSpec p_dynamic per n a := by
  rcases hn.cases with rfl | rfl
  · refine ⟨_, averagePass_one outside (h 1) avgs, ?_, ?_, ?_, fun _ => ?_, ?_⟩
    · intro s hs
      fin_cases s
      · cases (active_zero_iff hn).mp hs
      · rfl
    · intro s hs
      fin_cases s
      · cases (active_zero_iff hn).mp hs
      · rfl
    · intro s hs
      fin_cases s
      · cases (active_zero_iff hn).mp hs
      · rfl
    · have hactive : socketLoop.filter (Active 1) = [1] := by decide
      simp only [mean, hactive, List.map_cons, List.map_nil, List.sum_cons, List.sum_nil, add_zero]
      rfl
    · show (∀ i ∈ [(1 : Int), 1], InArrays i) ↔ (1 : Int) = 1
      decide
  · refine ⟨_, averagePass_two outside h avgs, ?_, ?_, ?_, fun hn => ?_, ?_⟩
    · intro s _
      fin_cases s <;> rfl
    · intro s _
      fin_cases s <;> rfl
    · intro s _
      fin_cases s <;> rfl
    · cases hn
    · show (∀ i ∈ [(1 : Int), 1, 0, 2], InArrays i) ↔ (2 : Int) = 1
      decide

end Pass

/-! ## What the moves do -/

/-- The turn for blk moves `blk_start` only, the turn for net irq `net_end`
only, and neither closes a group. -/
structure Moved (turn : Turn) (b b' : Bounds) : Prop where
  net_start : b'.net_start = b.net_start
  blk_end : b'.blk_end = b.blk_end
  net_end : turn = .blk → b'.net_end = b.net_end
  blk_start : turn = .net → b'.blk_start = b.blk_start

theorem moveBounds_moved (turn : Turn) (high blk net sys : Int) (b : Bounds) :
    Moved turn b (moveBounds turn high blk net sys b) := by
  cases turn with
  | blk =>
      unfold moveBounds
      dsimp only
      split_ifs <;> exact ⟨rfl, rfl, fun _ => rfl, by simp⟩
  | net =>
      unfold moveBounds
      dsimp only
      split_ifs <;> exact ⟨rfl, rfl, (by simp), fun _ => rfl⟩

theorem Inv.moveBounds {s : Socket} {b : Bounds} (h : Inv s b) (turn : Turn)
    (high blk net sys : Int) : Inv s (moveBounds turn high blk net sys b) := by
  obtain ⟨hstart, hend, hnet, hgap, hblk⟩ := h
  obtain ⟨hstart', hend', -, -⟩ := moveBounds_moved turn high blk net sys b
  obtain ⟨b', hb'⟩ : ∃ b', b' = Sockets.moveBounds turn high blk net sys b := ⟨_, rfl⟩
  rw [← hb'] at hstart' hend' ⊢
  have hgroups : b'.net_start ≤ b'.net_end ∧ b'.net_end + 3 ≤ b'.blk_start ∧
      b'.blk_start ≤ b'.blk_end := by
    cases turn with
    | blk =>
        unfold Sockets.moveBounds at hb'
        dsimp only at hb'
        split_ifs at hb'
        all_goals
          subst hb'
          dsimp -failIfUnchanged only
          omega
    | net =>
        unfold Sockets.moveBounds at hb'
        dsimp only at hb'
        split_ifs at hb'
        all_goals
          subst hb'
          dsimp -failIfUnchanged only
          omega
  exact ⟨hstart'.trans hstart, hend'.trans hend, hgroups.1, hgroups.2.1, hgroups.2.2⟩

/-- Socket `s` after the moves. Its turn comes at `i = NUMBER_OF_SOCKETS - s`. -/
def movedBounds (turn : Turn) (avgs : Avgs) (outside : Outside) (per : Socket → Bounds)
    (s : Socket) : Bounds :=
  moveBounds turn
    (readAt avgs.blk_queue_util_avg outside.blk_queue_util_avg (NUMBER_OF_SOCKETS - s))
    (avgs.blk_queue_util_avg s) (avgs.net_queue_util_avg s) (avgs.net_sys_util_avg s) (per s)

theorem moveSockets_spec (turn : Turn) (avgs : Avgs) (outside : Outside) {n : Int} (hn : Counts n)
    (per : Socket → Bounds) :
    ∃ m, moveSockets turn avgs outside n per = some m ∧
      (∀ s, m.per s = if Active n s then movedBounds turn avgs outside per s else per s) ∧
      (n = 1 → ∀ i ∈ m.used, InArrays i) := by
  rcases hn.cases with rfl | rfl
  · have hrange : Int.range 1 (1 + 1) = [1] := by decide
    refine ⟨⟨Function.update per 1 (movedBounds turn avgs outside per 1),
      [] ++ (if turn = .blk then [1] else []) ++ [1]⟩, ?_, fun s => ?_, fun _ => ?_⟩
    · simp only [moveSockets, hrange, List.foldlM_cons, List.foldlM_nil]
      rfl
    · fin_cases s <;> rfl
    · show ∀ i ∈ [] ++ (if turn = .blk then [(1 : Int)] else []) ++ [1], InArrays i
      cases turn <;> decide
  · have hrange : Int.range 1 (2 + 1) = [1, 2] := by decide
    refine ⟨⟨Function.update (Function.update per 1 (movedBounds turn avgs outside per 1)) 0
        (movedBounds turn avgs outside per 0),
      [] ++ (if turn = .blk then [1] else []) ++ [1] ++ (if turn = .blk then [2] else []) ++ [0]⟩,
      ?_, fun s => ?_, fun hn => ?_⟩
    · simp only [moveSockets, hrange, List.foldlM_cons, List.foldlM_nil]
      rfl
    · fin_cases s <;> rfl
    · cases hn

/-! ## Where the redistribution puts the queues -/

/-- The cores of the turn's queues on a socket. -/
def range (turn : Turn) (b : Bounds) (core : Int) : Prop :=
  match turn with
  | .blk => b.blk_start ≤ core ∧ core ≤ b.blk_end
  | .net => b.net_start ≤ core ∧ core ≤ b.net_end

/-- The cores of the turn's queues on the active sockets. -/
def activeRange (turn : Turn) (per : Socket → Bounds) (socket_number : Int) (core : Int) : Prop :=
  ∃ s, Active socket_number s ∧ range turn (per s) core

/-- A turn leaves the ranges of the other kind alone. -/
theorem Moved.range_eq {turn turn' : Turn} {b b' : Bounds} (h : Moved turn b b')
    (hturn : turn' ≠ turn) : range turn' b' = range turn' b := by
  obtain ⟨hstart, hend, hnet, hblk⟩ := h
  funext core
  cases turn' with
  | blk =>
      cases turn with
      | blk => exact absurd rfl hturn
      | net => simp only [range, hblk rfl, hend]
  | net =>
      cases turn with
      | blk => simp only [range, hstart, hnet rfl]
      | net => exact absurd rfl hturn

theorem activeRange_mono {turn : Turn} {per : Socket → Bounds} {n n' core : Int} (h : n ≤ n')
    (hcore : activeRange turn per n core) : activeRange turn per n' core := by
  obtain ⟨s, hs, hrange⟩ := hcore
  refine ⟨s, ?_, hrange⟩
  unfold Active at *
  omega

theorem active_socketAt {n : Int} (h : Counts n) {k : Nat} (hk : k < n.toNat) :
    Active n (socketAt k) := by
  obtain ⟨hlo, hhi⟩ := h
  simp only [Active, socketAt, NUMBER_OF_SOCKETS] at *
  omega

theorem redistributeBlk_spec (par : Params) {per : Socket → Bounds} (h : ∀ s, Inv s (per s))
    {n : Int} (hn : Counts n) :
    Redistributes par .blk (activeRange .blk per n) (redistributeBlk par per n.toNat) := by
  have hpos : 0 < n.toNat := by
    have hlo := hn.1
    omega
  have hend : (fun (k i : Nat) => (per (socketAt k)).blk_end == (per (socketAt k)).blk_start + i)
      = RoundRobin.atEnd (fun k => (per (socketAt k)).blk_start)
          (fun k => (per (socketAt k)).blk_end) := by
    funext k i
    exact Bool.beq_comm
  show Redistributes par .blk _ ((List.finRange BLK_QUEUES).zipWith
    (fun j core => ⟨.blk j, par.irq (.blk j), core⟩) _)
  rw [hend, zipWith_hint Queue.blk (RoundRobin.length_walk ..)]
  refine redistributes_blk fun j => ?_
  obtain ⟨k, hk, hcore⟩ := RoundRobin.mem_walk (fun k _ => (h (socketAt k)).blk) hpos
    (List.getElem_mem _)
  exact ⟨socketAt k, active_socketAt hn hk, hcore⟩

theorem redistributeNet_spec (par : Params) {per : Socket → Bounds} (h : ∀ s, Inv s (per s))
    {n : Int} (hn : Counts n) :
    Redistributes par .net (activeRange .net per n) (redistributeNet par per n.toNat) := by
  have hpos : 0 < n.toNat := by
    have hlo := hn.1
    omega
  have hend : (fun (k i : Nat) => (per (socketAt k)).net_start + i == (per (socketAt k)).net_end)
      = RoundRobin.atEnd (fun k => (per (socketAt k)).net_start)
          (fun k => (per (socketAt k)).net_end) := rfl
  show Redistributes par .net _ ((List.finRange NET_QUEUES).zipWith
    (fun j core => ⟨.net j, par.irq (.net j), core⟩) _)
  rw [hend, zipWith_hint Queue.net (RoundRobin.length_walk ..)]
  refine redistributes_net fun j => ?_
  obtain ⟨k, hk, hcore⟩ := RoundRobin.mem_walk (fun k _ => (h (socketAt k)).net) hpos
    (List.getElem_mem _)
  exact ⟨socketAt k, active_socketAt hn hk, hcore⟩

/-! ## The rest of a tick -/

/-- `blk_queue_util_avg[i]` as the moves read it for socket `s`: the own
average on socket 1, and past the end of the array on socket 0. -/
def highRead (inp : Input) (per : Socket → Bounds) (s : Socket) : Int :=
  if s.val = 1 then blkAvg inp.p_dynamic (per s) else inp.moves.blk_queue_util_avg 2

/-- Socket `s` after the tick, if it is active. -/
def nextBounds (inp : Input) (turn : Turn) (per : Socket → Bounds) (s : Socket) : Bounds :=
  moveBounds turn (highRead inp per s) (blkAvg inp.p_dynamic (per s))
    (netAvg inp.p_dynamic (per s)) (sysAvg inp.p_dynamic (per s)) (per s)

/-- The partition on every socket, and a number of active sockets. -/
structure Sound (st : State) : Prop where
  counts : Counts st.socket_number
  inv : ∀ s, Inv s (st.per s)

theorem sound_init : Sound init_simpleproc := ⟨by decide, inv_init⟩

structure FinishSpec (par : Params) (inp : Input) (st : State) (t : Tick) : Prop where
  sound : Sound t.state
  socket_number : t.state.socket_number = st.socket_number
  turn : t.state.dynamic_turn = st.dynamic_turn.next
  per : ∀ s, t.state.per s =
    if Active st.socket_number s then nextBounds inp st.dynamic_turn st.per s else st.per s
  hints : Redistributes par st.dynamic_turn
    (activeRange st.dynamic_turn t.state.per st.socket_number) t.hints

theorem FinishSpec.moved {par : Params} {inp : Input} {st : State} {t : Tick}
    (h : FinishSpec par inp st t) (s : Socket) :
    Moved st.dynamic_turn (st.per s) (t.state.per s) := by
  rw [h.per s]
  split
  · exact moveBounds_moved ..
  · exact ⟨rfl, rfl, fun _ => rfl, fun _ => rfl⟩

/-- The queues of the other kind stay in the ranges they were in. -/
theorem FinishSpec.keeps {par : Params} {inp : Input} {st : State} {t : Tick} {log : List Hint}
    (h : FinishSpec par inp st t) {queue : Queue} (hturn : queue.turn ≠ st.dynamic_turn) {n : Int}
    (hin : HintedIn par log queue (activeRange queue.turn st.per n)) :
    HintedIn par (log ++ t.hints) queue (activeRange queue.turn t.state.per n) := by
  refine h.hints.keeps hturn (hin.mono fun core hcore => ?_)
  obtain ⟨s, hs, hrange⟩ := hcore
  refine ⟨s, hs, ?_⟩
  rwa [(h.moved s).range_eq hturn]

/-- The queues of the turn's kind are on the active sockets. -/
theorem FinishSpec.hintedIn {par : Params} {inp : Input} {st : State} {t : Tick} {log : List Hint}
    (h : FinishSpec par inp st t) {queue : Queue} (hturn : queue.turn = st.dynamic_turn) :
    HintedIn par (log ++ t.hints) queue (activeRange queue.turn t.state.per st.socket_number) := by
  rw [hturn]
  exact h.hints.hintedIn hturn

/-- What holds between ticks: the queues redistributed in the last one are
on the sockets that were active then. -/
structure Placed (par : Params) (is : List Input) (st : State) (log : List Hint) : Prop where
  sound : Sound st
  last : is ≠ [] → ∀ queue : Queue, queue.turn ≠ st.dynamic_turn →
    HintedIn par log queue (activeRange queue.turn st.per st.socket_number)

theorem placed_init (par : Params) : Placed par [] init_simpleproc [] where
  sound := sound_init
  last h := absurd rfl h

theorem FinishSpec.placed {par : Params} {inp : Input} {st : State} {t : Tick}
    (h : FinishSpec par inp st t) (is : List Input) (log : List Hint) :
    Placed par (inp :: is) t.state (log ++ t.hints) := by
  refine ⟨h.sound, fun _ queue hqueue => ?_⟩
  have hturn : queue.turn = st.dynamic_turn := by
    rw [h.turn] at hqueue
    cases hq : queue.turn <;> cases ht : st.dynamic_turn <;> simp_all [Turn.next]
  rw [h.socket_number]
  exact h.hintedIn hturn

theorem finishTick_spec (par : Params) (inp : Input) (st : State) (h : Sound st) :
    ∃ t, finishTick par inp st = some t ∧ FinishSpec par inp st t ∧
      ((∀ i ∈ t.used, InArrays i) ↔ st.socket_number = 1) := by
  obtain ⟨hn, hinv⟩ := h
  obtain ⟨a, ha, hpass⟩ := averagePass_spec inp.p_dynamic inp.averages hinv hn
    st.avgs
  obtain ⟨m, hm, hper, hused⟩ := moveSockets_spec st.dynamic_turn a.avgs inp.moves hn st.per
  have hmoved : ∀ s, m.per s =
      if Active st.socket_number s then nextBounds inp st.dynamic_turn st.per s else st.per s := by
    intro s
    rw [hper s]
    by_cases hs : Active st.socket_number s
    · have hread : readAt a.avgs.blk_queue_util_avg inp.moves.blk_queue_util_avg
          (NUMBER_OF_SOCKETS - s) = highRead inp st.per s := by
        fin_cases s
        · rfl
        · exact hpass.blk 1 hs
      rw [if_pos hs, if_pos hs, movedBounds, nextBounds, hread, hpass.blk s hs, hpass.net s hs,
        hpass.sys s hs]
    · rw [if_neg hs, if_neg hs]
  have hinv' : ∀ s, Inv s (m.per s) := by
    intro s
    rw [hmoved s]
    split
    · exact (hinv s).moveBounds ..
    · exact hinv s
  have hindices : (∀ i ∈ a.used ++ m.used, InArrays i) ↔ st.socket_number = 1 := by
    constructor
    · intro hall
      exact hpass.used.mp fun i hi => hall i (List.mem_append_left _ hi)
    · intro hone i hi
      rcases List.mem_append.mp hi with hi | hi
      · exact hpass.used.mpr hone i hi
      · exact hused hone i hi
  cases hturn : st.dynamic_turn with
  | blk =>
      have htick : finishTick par inp st = some {
          state := { st with per := m.per, avgs := a.avgs, dynamic_turn := .net }
          hints := redistributeBlk par m.per st.socket_number.toNat
          used := a.used ++ m.used } := by
        rw [hturn] at hm
        simp only [finishTick, ha, hm, hturn, Option.bind_eq_bind, Option.bind_some]
        rfl
      refine ⟨_, htick, ⟨⟨hn, hinv'⟩, rfl, ?_, hmoved, ?_⟩, hindices⟩
      · rw [hturn]
        rfl
      · rw [hturn]
        exact redistributeBlk_spec par hinv' hn
  | net =>
      have htick : finishTick par inp st = some {
          state := { st with per := m.per, avgs := a.avgs, dynamic_turn := .blk }
          hints := redistributeNet par m.per st.socket_number.toNat
          used := a.used ++ m.used } := by
        rw [hturn] at hm
        simp only [finishTick, ha, hm, hturn, Option.bind_eq_bind, Option.bind_some]
        rfl
      refine ⟨_, htick, ⟨⟨hn, hinv'⟩, rfl, ?_, hmoved, ?_⟩, hindices⟩
      · rw [hturn]
        rfl
      · rw [hturn]
        exact redistributeNet_spec par hinv' hn

end CorePartitioning.KTimer.Sockets
