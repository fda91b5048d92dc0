import CorePartitioning.KTimer.Affinity

/-!
# simple_proc and affinity.c — a tick while the library reads

`show_stat_dynamic` reads the boundaries one after the other, and nothing
keeps a tick from changing them in between. What is printed then has some
numbers from before the tick and some from after it. It is still a
partition. In PER mode it is even the one from before or the one from after
for the node of the reader; in CROSS mode for every socket by itself; and in
SINGLE mode it is, unless the tick moves both boundaries.
-/

namespace CorePartitioning.KTimer

open Decimal Preload

/-! ## SINGLE -/

namespace Single

variable {par : Params} {st st' : State} {hints : List Hint} {u : Utils}

/-- A tick between the two lines: the first is from before it. -/
def torn (st st' : State) : State := { st with blk_start := st'.blk_start }

/-- The library takes the text for one that a state prints at once. -/
theorem show_torn (st st' : State) :
    show_stat_dynamic (torn st st') = line st.net_end ++ line st'.blk_start := rfl

theorem inv_torn_blk (h : BlkTick par st st' hints) : Inv (torn st st') where
  net := by
    have hnet := h.inv.net
    rwa [h.net_end] at hnet
  gap := by
    have hgap := h.inv.gap
    rwa [h.net_end] at hgap
  blk := h.inv.blk

theorem inv_torn_net (hinv : Inv st) (h : NetTick par u st st' hints) : Inv (torn st st') where
  net := hinv.net
  gap := by
    have hgap := hinv.gap
    show st.net_end + 3 ≤ st'.blk_start
    by_cases hboth : MovesBoth u st
    · have hmoved := h.moved hboth
      omega
    · rw [h.stayed hboth]
      exact hgap
  blk := h.inv.blk

/-- The library sees the partition of one of the two states. -/
def Whole (st st' : State) : Prop :=
  ((torn st st').net_end, (torn st st').blk_start) = (st.net_end, st.blk_start) ∨
    ((torn st st').net_end, (torn st st').blk_start) = (st'.net_end, st'.blk_start)

theorem whole_iff : Whole st st' ↔ st'.blk_start = st.blk_start ∨ st.net_end = st'.net_end := by
  simp [Whole, torn]

/-- The branch that moves both moves `net_end` too. -/
theorem moveNet_movesBoth (h : Inv st) (hboth : MovesBoth u st) :
    moveNet u st = some { st with blk_start := st.blk_start + 1, net_end := st.net_end + 1 } := by
  have hblk := fun x => h.cdiv_eq x (d := BLK_END - st.blk_start + 1) (by simp [divisors])
  have hnet := fun x => h.cdiv_eq x (d := st.net_end - NET_START + 1) (by simp [divisors])
  have hsys := fun x => h.cdiv_eq x (d := st.blk_start - st.net_end - 1) (by simp [divisors])
  simp only [MovesBoth, blkAvg, netAvg, sysAvg] at hboth
  obtain ⟨hutil, hnetsys, hmin, hsysblk, hlast⟩ := hboth
  simp only [moveNet, hblk, hnet, hsys, Option.bind_eq_bind, Option.bind_some]
  rw [if_pos hutil, if_pos hnetsys, if_neg (by omega), if_pos hsysblk, if_pos (Ne.symm hlast)]
  rfl

theorem net_end_of_movesBoth {p_dynamic : Int → Int} (h : Inv st) (hturn : st.dynamic_turn = .net)
    (htick : kerneltimer_timeover par p_dynamic st = some (st', hints))
    (hboth : MovesBoth (utils p_dynamic st) st) : st'.net_end = st.net_end + 1 := by
  obtain ⟨st₁, hmove, hinv, -⟩ := moveNet_spec (utils p_dynamic st) h
  have heq := hmove.symm.trans (moveNet_movesBoth h hboth)
  simp only [kerneltimer_timeover, hturn, hmove, Option.bind_eq_bind, Option.bind_some,
    hinv.redistributeNet_eq] at htick
  obtain ⟨rfl, -⟩ := Prod.mk.inj (Option.some.inj htick)
  rw [Option.some.inj heq]

theorem torn_tick (par : Params) (p_dynamic : Int → Int) (h : Inv st) :
    ∃ st' hints, kerneltimer_timeover par p_dynamic st = some (st', hints) ∧
      Inv (torn st st') ∧
      (Whole st st' ↔ ¬ (st.dynamic_turn = .net ∧ MovesBoth (utils p_dynamic st) st)) := by
  cases hturn : st.dynamic_turn with
  | blk =>
      obtain ⟨st', hints, htick, hspec⟩ := tick_blk par p_dynamic h hturn
      have hwhole : Whole st st' := whole_iff.mpr (.inr hspec.net_end.symm)
      exact ⟨st', hints, htick, inv_torn_blk hspec, iff_of_true hwhole (by simp)⟩
  | net =>
      obtain ⟨st', hints, htick, hspec⟩ := tick_net par p_dynamic h hturn
      refine ⟨st', hints, htick, inv_torn_net h hspec, ?_⟩
      rw [whole_iff]
      by_cases hboth : MovesBoth (utils p_dynamic st) st
      · have hmoved := hspec.moved hboth
        have hend := net_end_of_movesBoth h hturn htick hboth
        apply iff_of_false
        · omega
        · simp [hboth]
      · exact iff_of_true (.inl (hspec.stayed hboth)) (by simp [hboth])

end Single

/-! ## CROSS and PER -/

namespace Sockets

/-- Every number of the socket is from before or from after the tick. -/
structure Torn (b b' : Bounds) (c : SetCpu.PerSocket) : Prop where
  net_start : c.net_start_per = b.net_start ∨ c.net_start_per = b'.net_start
  net_end : c.net_end_per = b.net_end ∨ c.net_end_per = b'.net_end
  blk_start : c.blk_start_per = b.blk_start ∨ c.blk_start_per = b'.blk_start
  blk_end : c.blk_end_per = b.blk_end ∨ c.blk_end_per = b'.blk_end

/-- A tick moves one boundary of a socket, so its numbers stay together. -/
theorem Moved.whole {turn : Turn} {b b' : Bounds} {c : SetCpu.PerSocket} (h : Moved turn b b')
    (ht : Torn b b' c) : c = cells b ∨ c = cells b' := by
  obtain ⟨hstart, hend, hnet, hblk⟩ := h
  obtain ⟨htstart, htnet, htblk, htend⟩ := ht
  rw [hstart, or_self] at htstart
  rw [hend, or_self] at htend
  cases c
  cases turn with
  | blk =>
      rw [hnet rfl, or_self] at htnet
      rcases htblk with hold | hnew
      · left
        simp_all [cells]
      · right
        simp_all [cells]
  | net =>
      rw [hblk rfl, or_self] at htblk
      rcases htnet with hold | hnew
      · left
        simp_all [cells]
      · right
        simp_all [cells]

/-- Each socket's lines are from before or from after. -/
structure Mixed (per per' per'' : Socket → Bounds) : Prop where
  socket : ∀ s, per'' s = per s ∨ per'' s = per' s

/-- The lines of the sockets while a tick changes `per` to `per'`. -/
def TornText (per per' : Socket → Bounds) (text : List Char) : Prop :=
  ∃ c : Socket → SetCpu.PerSocket, (∀ s, Torn (per s) (per' s) (c s)) ∧
    text = (List.finRange NUMBER_OF_SOCKETS).flatMap fun i => (c i).lines

/-- They are the lines of some sockets that could be. -/
theorem exists_mixed {turn : Turn} {per per' : Socket → Bounds} {text : List Char}
    (hmoved : ∀ s, Moved turn (per s) (per' s)) (ht : TornText per per' text) :
    ∃ per'', Mixed per per' per'' ∧ text = showSockets per'' := by
  obtain ⟨c, hc, rfl⟩ := ht
  have hchoice : ∀ s, ∃ b, (b = per s ∨ b = per' s) ∧ c s = cells b := by
    intro s
    rcases (hmoved s).whole (hc s) with hold | hnew
    · exact ⟨per s, .inl rfl, hold⟩
    · exact ⟨per' s, .inr rfl, hnew⟩
  choose per'' hmix hcells using hchoice
  refine ⟨per'', ⟨hmix⟩, ?_⟩
  simp only [hcells]
  rfl

theorem Mixed.inv {per per' per'' : Socket → Bounds} (h : Mixed per per' per'')
    (hinv : ∀ s, Inv s (per s)) (hinv' : ∀ s, Inv s (per' s)) (s : Socket) : Inv s (per'' s) := by
  rcases h.socket s with hold | hnew
  · rw [hold]
    exact hinv s
  · rw [hnew]
    exact hinv' s

end Sockets

namespace Cross

open Sockets

/-- The text is that of a partition, each socket's of one of the two, and
the library takes it for that. -/
def Reads (st st' : State) (text : List Char) : Prop :=
  ∃ st'' : State, Mixed st.per st'.per st''.per ∧
    (st''.socket_number = st.socket_number ∨ st''.socket_number = st'.socket_number) ∧
    text = show_stat_dynamic st'' ∧ Agrees st''

theorem reads_torn {par : Params} {inp : Input} {st : State} {t : Tick} (h : Sound st)
    (hspec : TickSpec par inp st t) {n : Int} {text : List Char}
    (hn : n = st.socket_number ∨ n = t.state.socket_number)
    (ht : TornText st.per t.state.per text) : Reads st t.state (line n ++ text) := by
  obtain ⟨per'', hmix, rfl⟩ := exists_mixed hspec.rest.moved ht
  have hcounts : Counts n := by
    rcases hn with rfl | rfl
    · exact h.counts
    · exact hspec.rest.sound.counts
  exact ⟨{ st with per := per'', socket_number := n }, hmix, hn, rfl,
    agrees ⟨hcounts, hmix.inv h.inv hspec.rest.sound.inv⟩⟩

end Cross

namespace Per

open Sockets

/-- `set_cpu` looks at the node of its core only. -/
theorem set_cpuPer_congr {st st' : State} (h : Sound st) (h' : Sound st') {core : Fin 20}
    (hnode : st.per (node core) = st'.per (node core)) (NetorFile : Int) :
    SetCpu.set_cpuPer (show_stat_dynamic st) (core : Nat) NetorFile =
      SetCpu.set_cpuPer (show_stat_dynamic st') (core : Nat) NetorFile := by
  have hsocket : ∀ core : Fin 20,
      SetCpu.socket? (((core : Nat) : Int).tdiv SetCpu.CORES_PER_SOCKET) = some (node core) := by
    decide
  simp only [SetCpu.set_cpuPer, readSockets_eq h, readSockets_eq h', hsocket core,
    Option.bind_eq_bind, Option.bind_some, hnode]

/-- The mask for `core` is that of one of the two states. -/
def Whole (st st' : State) (text : List Char) (core : Fin 20) (NetorFile : Int) : Prop :=
  SetCpu.set_cpuPer text (core : Nat) NetorFile =
      SetCpu.set_cpuPer (show_stat_dynamic st) (core : Nat) NetorFile ∨
    SetCpu.set_cpuPer text (core : Nat) NetorFile =
      SetCpu.set_cpuPer (show_stat_dynamic st') (core : Nat) NetorFile

theorem whole_torn {par : Params} {inp : Input} {st : State} {t : Tick} (h : Sound st)
    (hspec : FinishSpec par inp { st with socket_number := NUMBER_OF_SOCKETS } t)
    {text : List Char} (ht : TornText st.per t.state.per text) (core : Fin 20) (NetorFile : Int) :
    Whole st t.state text core NetorFile := by
  obtain ⟨per'', hmix, rfl⟩ := exists_mixed hspec.moved ht
  have hsound : Sound { st with per := per'' } :=
    ⟨h.counts, hmix.inv h.inv hspec.sound.inv⟩
  rcases hmix.socket (node core) with hold | hnew
  · exact .inl (set_cpuPer_congr hsound h hold NetorFile)
  · exact .inr (set_cpuPer_congr hsound hspec.sound hnew NetorFile)

end Per

/-- **A tick while the library reads.** In every state of every run, for
every load of the tick that comes in between: in SINGLE mode what the
library reads is a partition, its masks are the groups of that partition and
not empty, and it is the one from before or from after unless the tick is a
turn for net irq that moves both boundaries; in CROSS mode, whichever of the
numbers are old and whichever new, it reads a partition that is old or new
on each socket; in PER mode it installs the old or the new mask. -/
theorem torn_readings (par : Params) :
    (∀ turn ps p_dynamic, ∃ st log st' hints, Single.run par turn ps = some (st, log) ∧
      Single.kerneltimer_timeover par p_dynamic st = some (st', hints) ∧
      Single.Agrees (Single.torn st st') ∧
      (Single.Whole st st' ↔
        ¬ (st.dynamic_turn = .net ∧ Single.MovesBoth (Single.utils p_dynamic st) st))) ∧
    (∀ is inp, ∃ st log t, Cross.run par is = some (st, log) ∧
      Cross.kerneltimer_timeover par inp st = some t ∧
      ∀ n text, n = st.socket_number ∨ n = t.state.socket_number →
        Sockets.TornText st.per t.state.per text → Cross.Reads st t.state (line n ++ text)) ∧
    (∀ is inp, ∃ st log t, Per.run par is = some (st, log) ∧
      Per.kerneltimer_timeover par inp st = some t ∧
      ∀ text, Sockets.TornText st.per t.state.per text →
        ∀ core NetorFile, Per.Whole st t.state text core NetorFile) := by
  constructor
  · intro turn ps p_dynamic
    obtain ⟨st, log, hrun, hinv, -⟩ := Single.run_inv par turn ps
    obtain ⟨st', hints, htick, htorn, hwhole⟩ := Single.torn_tick par p_dynamic hinv
    exact ⟨st, log, st', hints, hrun, htick, htorn.agrees, hwhole⟩
  constructor
  · intro is inp
    obtain ⟨st, log, hrun, hplaced⟩ := Cross.run_placed par is
    obtain ⟨t, ht, hspec⟩ := Cross.tick_spec par inp hplaced.sound
    exact ⟨st, log, t, hrun, ht, fun n text hn htext =>
      Cross.reads_torn hplaced.sound hspec hn htext⟩
  · intro is inp
    obtain ⟨st, log, hrun, hplaced⟩ := Per.run_placed par is
    obtain ⟨t, ht, hspec⟩ := Per.tick_spec par inp hplaced.sound
    exact ⟨st, log, t, hrun, ht, fun text htext core NetorFile =>
      Per.whole_torn hplaced.sound hspec htext core NetorFile⟩

end CorePartitioning.KTimer
