import CorePartitioning.KTimer.App
import CorePartitioning.KTimer.Single
import CorePartitioning.KTimer.Sockets

/-!
# simple_proc — how the redistribution spreads the queues

The loops with a socket counter and an offset, for any number of sockets
and any number of queues. They deal the queues out over the ranges of the
active sockets, from the highest socket down, one queue a core, round and
round. The block and the net loop differ in how they write the test for the
end of a range.
-/

namespace CorePartitioning.KTimer

/-! ## The loops -/

section Loops

variable {S : Nat} (hS : 0 < S) (start stop : Fin S → Int) (socket_number Q : Nat)

/-- `NUMBER_OF_SOCKETS - k - 1` among `S` sockets. -/
def socketFrom (k : Nat) : Fin S := ⟨S - k - 1, by omega⟩

/-- The cores of the queues in the block loop of CROSS and PER. -/
def spreadBlk : List Int :=
  RoundRobin.walk socket_number (fun k => start (socketFrom hS k))
    (fun k i => stop (socketFrom hS k) == start (socketFrom hS k) + i) Q (0, 0)

/-- The cores of the queues in the net loop of CROSS, PER and APP. -/
def spreadNet : List Int :=
  RoundRobin.walk socket_number (fun k => start (socketFrom hS k))
    (fun k i => start (socketFrom hS k) + i == stop (socketFrom hS k)) Q (0, 0)

end Loops

/-- The loops of the modes. -/
theorem Sockets.redistributeBlk_eq_spread (par : Params) (per : Socket → Bounds) (n : Nat) :
    Sockets.redistributeBlk par per n
      = (List.finRange BLK_QUEUES).zipWith (fun j core => ⟨.blk j, par.irq_blk j, core⟩)
          (spreadBlk (by decide) (fun s => (per s).blk_start) (fun s => (per s).blk_end) n
            BLK_QUEUES) := rfl

theorem Sockets.redistributeNet_eq_spread (par : Params) (per : Socket → Bounds) (n : Nat) :
    Sockets.redistributeNet par per n
      = (List.finRange NET_QUEUES).zipWith (fun j core => ⟨.net j, par.irq_net j, core⟩)
          (spreadNet (by decide) (fun s => (per s).net_start) (fun s => (per s).net_end) n
            NET_QUEUES) := rfl

theorem App.redistributeNet_eq_spread (par : Params) (per : Socket → Bounds) (n : Nat) :
    App.redistributeNet par per n
      = (List.finRange NET_QUEUES).zipWith (fun j core => ⟨.net j, par.irq_net j, core⟩)
          (spreadNet (by decide) (fun s => (per s).net_start) (fun s => (per s).net_end) n
            NET_QUEUES) := rfl

/-- The formula of SINGLE mode. -/
def singleCore (start stop : Int) (j : Nat) : Int := (j : Int).tmod (stop - start + 1) + start

theorem Single.blkCore_eq_singleCore (st : Single.State) (j : Fin BLK_QUEUES) :
    Single.blkCore st j = singleCore st.blk_start BLK_END j := rfl

theorem Single.netCore_eq_singleCore (st : Single.State) (j : Fin NET_QUEUES) :
    Single.netCore st j = singleCore NET_START st.net_end j := rfl

/-! ## What they deal out -/

section Spread

variable {S : Nat} (hS : 0 < S) (start stop : Fin S → Int) (n Q : Nat)

/-- The ranges of the sockets `S - 1`, `S - 2`, .., `S - n`, one after the
other. -/
def rangesDown : List Int :=
  RoundRobin.concat (fun k => start (socketFrom hS k)) (fun k => stop (socketFrom hS k)) n

/-- The core is in the range of active socket `s`. -/
def InActive (core : Int) (s : Fin S) : Prop :=
  S - n ≤ (s : Nat) ∧ start s ≤ core ∧ core ≤ stop s

/-- The queues are dealt out in turn. -/
structure Spread (cores : List Int) : Prop where
  length : cores.length = Q
  core : ∀ j : Nat, j < Q →
    cores[j]? = (rangesDown hS start stop n)[j % (rangesDown hS start stop n).length]?
  active : ∀ core ∈ cores, ∃ s, InActive start stop n core s
  balanced : ∀ c c', (∃! s, InActive start stop n c s) → (∃! s, InActive start stop n c' s) →
    cores.count c ≤ cores.count c' + 1
  single : n = 1 → ∀ j : Nat, j < Q →
    cores[j]? = some (singleCore (start (socketFrom hS 0)) (stop (socketFrom hS 0)) j)

variable {start stop n}

/-- The active sockets, as the loop counts them. -/
theorem exists_active_iff (hnS : n ≤ S) (core : Int) :
    (∃ s, InActive start stop n core s) ↔
      ∃ k, k < n ∧ start (socketFrom hS k) ≤ core ∧ core ≤ stop (socketFrom hS k) := by
  constructor
  · rintro ⟨s, hs, hrange⟩
    have hsocket : socketFrom hS (S - 1 - s) = s := by
      ext
      show S - (S - 1 - s) - 1 = s
      omega
    exact ⟨S - 1 - s, by omega, by rwa [hsocket]⟩
  · rintro ⟨k, hk, hrange⟩
    refine ⟨socketFrom hS k, ?_, hrange⟩
    show S - n ≤ S - k - 1
    omega

theorem existsUnique_active (hnS : n ≤ S) {core : Int}
    (h : ∃! s, InActive start stop n core s) :
    ∃! k, k < n ∧ start (socketFrom hS k) ≤ core ∧ core ≤ stop (socketFrom hS k) := by
  obtain ⟨s, hs, hone⟩ := h
  obtain ⟨k, hk⟩ := (exists_active_iff hS hnS core).mp ⟨s, hs⟩
  have hsocket : ∀ k, k < n → start (socketFrom hS k) ≤ core ∧ core ≤ stop (socketFrom hS k) →
      S - k - 1 = s := by
    intro k hk hrange
    have heq : socketFrom hS k = s := by
      refine hone _ ⟨?_, hrange⟩
      show S - n ≤ S - k - 1
      omega
    rw [← heq]
    rfl
  refine ⟨k, hk, fun k' hk' => ?_⟩
  have h₁ := hsocket k hk.1 hk.2
  have h₂ := hsocket k' hk'.1 hk'.2
  omega

/-- The walk that both loops make. -/
theorem spread_walk (hn : 0 < n) (hnS : n ≤ S) (hle : ∀ s, start s ≤ stop s) :
    Spread hS start stop n Q (RoundRobin.walk n (fun k => start (socketFrom hS k))
      (RoundRobin.atEnd (fun k => start (socketFrom hS k)) fun k => stop (socketFrom hS k))
      Q (0, 0)) := by
  have hne : ∀ k < n, start (socketFrom hS k) ≤ stop (socketFrom hS k) := fun k _ => hle _
  have hcore := fun j (hj : j < Q) => RoundRobin.getElem?_walk hne hn hj
  refine ⟨RoundRobin.length_walk .., hcore, fun core hmem => ?_, fun c c' hc hc' => ?_, ?_⟩
  · exact (exists_active_iff hS hnS core).mpr (RoundRobin.mem_walk hne hn hmem)
  · have hshare := RoundRobin.count_walk hne hn Q (existsUnique_active hS hnS hc)
    have hshare' := RoundRobin.count_walk hne hn Q (existsUnique_active hS hnS hc')
    omega
  · rintro rfl j hj
    -- one range, and a position in it
    have hone : (RoundRobin.concat (fun k => start (socketFrom hS k))
        (fun k => stop (socketFrom hS k)) 1)
          = Int.range (start (socketFrom hS 0)) (stop (socketFrom hS 0) + 1) := by
      simp [RoundRobin.concat]
    have hsize := hle (socketFrom hS 0)
    have hlen : ((stop (socketFrom hS 0) + 1 - start (socketFrom hS 0)).toNat : Int)
        = stop (socketFrom hS 0) - start (socketFrom hS 0) + 1 := by
      rw [Int.toNat_of_nonneg (by omega)]
      ring
    have hmod := Int.emod_lt_of_pos (j : Int)
      (show 0 < stop (socketFrom hS 0) - start (socketFrom hS 0) + 1 by omega)
    rw [hcore j hj, hone, IntRange.length_range, IntRange.getElem?_range, Int.natCast_emod, hlen,
      singleCore, Int.tmod_eq_emod_of_nonneg (Int.natCast_nonneg j), Int.add_comm]
    rw [Int.natCast_emod, hlen]
    omega

/-- **The queues are dealt out round robin**, by the block and by the net
loop, for any number of sockets, active sockets and queues. -/
theorem redistribution_spreads (hn : 0 < n) (hnS : n ≤ S) (hle : ∀ s, start s ≤ stop s) :
    Spread hS start stop n Q (spreadBlk hS start stop n Q) ∧
      Spread hS start stop n Q (spreadNet hS start stop n Q) := by
  have hwalk := spread_walk hS Q hn hnS hle
  have hend : (fun k i => stop (socketFrom hS k) == start (socketFrom hS k) + (i : Nat))
      = RoundRobin.atEnd (fun k => start (socketFrom hS k)) fun k => stop (socketFrom hS k) := by
    funext k i
    exact Bool.beq_comm
  constructor
  · rw [spreadBlk, hend]
    exact hwalk
  · exact hwalk

end Spread

/-- The net ranges at the start, both sockets active. -/
theorem redistribution_spreads_init :
    Spread (by decide) (fun s : Socket => (Sockets.initBounds s).net_start)
        (fun s => (Sockets.initBounds s).net_end) 2 NET_QUEUES
        (spreadBlk (by decide) (fun s : Socket => (Sockets.initBounds s).net_start)
          (fun s => (Sockets.initBounds s).net_end) 2 NET_QUEUES) ∧
      Spread (by decide) (fun s : Socket => (Sockets.initBounds s).net_start)
        (fun s => (Sockets.initBounds s).net_end) 2 NET_QUEUES
        (spreadNet (by decide) (fun s : Socket => (Sockets.initBounds s).net_start)
          (fun s => (Sockets.initBounds s).net_end) 2 NET_QUEUES) :=
  redistribution_spreads (by decide) NET_QUEUES (by decide) (by decide) (by decide)

/-- Two ranges that share core 0: it gets four of six queues, core 1 gets two
less. -/
theorem shared_core_gets_more :
    ¬ ∀ (S n Q : Nat) (hS : 0 < S) (start stop : Fin S → Int), 0 < n → n ≤ S →
      (∀ s, start s ≤ stop s) → ∀ c c', (∃ s, InActive start stop n c s) →
        (∃ s, InActive start stop n c' s) →
        (spreadBlk hS start stop n Q).count c ≤ (spreadBlk hS start stop n Q).count c' + 1 := by
  intro h
  have hcount := h 2 2 6 (by decide) (fun _ => 0) (fun s => s) (by decide) (by decide)
    (by decide) 0 1 ⟨0, by decide, by decide, by decide⟩ ⟨1, by decide, by decide, by decide⟩
  revert hcount
  decide

end CorePartitioning.KTimer
