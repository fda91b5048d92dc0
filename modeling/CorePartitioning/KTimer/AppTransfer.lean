import CorePartitioning.KTimer.App
import CorePartitioning.Lib.Transfer

/-!
# simple_proc — the APP tick is a core transfer

The abstract reading of an APP tick: on each socket the four groups are
the groups of `Transfer`, with their sizes and integer average loads, and
a tick is one `Transfer.Step`. The route is bottom-up: the averages in
closed form, what the bubble sort and the fallback search select, what the
twelve branches do to the sizes, and the tick as a whole (`tick_spec`).
-/

namespace CorePartitioning.KTimer.App

open BubbleSort

/-! ## Groups -/

/-- The first core of each group of a socket. -/
def groupLo (b : Bounds) : Fin 4 → Int :=
  ![b.net_start, b.net_end + 1, b.app_start, b.blk_start]

/-- One past the last core of each group. -/
def groupHi (b : Bounds) : Fin 4 → Int :=
  ![b.net_end + 1, b.app_start, b.app_end + 1, b.blk_end + 1]

/-- The number of cores of each group. -/
def groupSize (b : Bounds) : Fin 4 → Int :=
  ![b.net_end - b.net_start + 1, b.app_start - b.net_end - 1,
    b.app_end - b.app_start + 1, b.blk_end - b.blk_start + 1]

/-- The integer average utilisation of each group (C's `/`). -/
noncomputable def groupAvg (p_dynamic : Int → Int) (b : Bounds) (g : Fin 4) : Int :=
  (∑ j ∈ Finset.Ico (groupLo b g) (groupHi b g), p_dynamic j).tdiv (groupSize b g)

theorem groupSize_eq (b : Bounds) (g : Fin 4) :
    groupSize b g = groupHi b g - groupLo b g := by
  fin_cases g <;> simp [groupSize, groupHi, groupLo] <;> omega

/-- Every group of the socket has a core. -/
def AllPos (b : Bounds) : Prop := ∀ g, 1 ≤ groupSize b g

theorem AllPos.bounds {b : Bounds} (h : AllPos b) :
    b.net_start ≤ b.net_end ∧ b.net_end + 2 ≤ b.app_start
      ∧ b.app_start ≤ b.app_end ∧ b.blk_start ≤ b.blk_end := by
  have h0 := h 0
  have h1 := h 1
  have h2 := h 2
  have h3 := h 3
  simp only [groupSize, Matrix.cons_val] at h0 h1 h2 h3
  omega

/-! ## The averages -/

/-- The load record of a socket, as the abstract quantities. -/
structure LoadSpec (p_dynamic : Int → Int) (b : Bounds) (l : SocketLoad) : Prop where
  util : ∀ g : Fin 4, l.util_arr g = groupAvg p_dynamic b g
  cores : ∀ g : Fin 4, l.core_counter g = groupSize b g
  reads : l.reads = Int.range b.blk_start (b.blk_end + 1)
    ++ Int.range b.net_start (b.net_end + 1) ++ Int.range (b.net_end + 1) b.app_start
    ++ Int.range b.app_start (b.app_end + 1)

theorem accumulate_group (p_dynamic : Int → Int) {b : Bounds} {g : Fin 4}
    (h : 1 ≤ groupSize b g) :
    accumulate p_dynamic (groupLo b g) (groupHi b g)
      = ⟨∑ j ∈ Finset.Ico (groupLo b g) (groupHi b g), p_dynamic j, groupSize b g,
        Int.range (groupLo b g) (groupHi b g)⟩ := by
  have hsize := groupSize_eq b g
  rw [accumulate_eq p_dynamic (by omega), hsize]

/-- With a core in every group no division traps. -/
theorem averages_spec (p_dynamic : Int → Int) {b : Bounds} (h : AllPos b) :
    ∃ l, averages p_dynamic b = some l ∧ LoadSpec p_dynamic b l := by
  have hacc := fun g => accumulate_group p_dynamic (h g)
  have hdiv : ∀ (g : Fin 4) (x : Int), cdiv x (groupSize b g) = some (x.tdiv (groupSize b g)) := by
    intro g x
    have hg := h g
    exact cdiv_eq_some (by omega)
  have hnet := hacc 0
  have hnetsys := hacc 1
  have happ := hacc 2
  have hblk := hacc 3
  refine ⟨⟨groupAvg p_dynamic b 0, groupAvg p_dynamic b 1, groupAvg p_dynamic b 2,
    groupAvg p_dynamic b 3, groupSize b 0, groupSize b 1, groupSize b 2, groupSize b 3, _⟩,
    ?_, ?_, ?_, rfl⟩
  · simp only [groupLo, groupHi, Matrix.cons_val] at hnet hnetsys happ hblk
    simp only [averages, hnet, hnetsys, happ, hblk, hdiv]
    rfl
  · intro g
    fin_cases g <;> rfl
  · intro g
    fin_cases g <;> rfl

/-! ## What the sort selects -/

/-- Group `i` comes before group `j` in the order of `(average, number)`. -/
def Before (l : SocketLoad) (i j : Nat) : Prop :=
  l.util_arr i < l.util_arr j ∨ l.util_arr i = l.util_arr j ∧ i < j

/-- The sorted group numbers: all four, in strictly ascending order. -/
theorem sort_index_arr_spec (l : SocketLoad) : ∃ a b c d,
    sort_index_arr l = [a, b, c, d] ∧ [a, b, c, d].Perm [0, 1, 2, 3]
      ∧ [a, b, c, d].Pairwise (Before l) := by
  have hperm : (sort_index_arr l).Perm [0, 1, 2, 3] := bubbleSort_perm _ 3 _
  have hlen : (sort_index_arr l).length = 4 := hperm.length_eq
  have hsort : (sort_index_arr l).Pairwise (Before l) :=
    bubbleSort_lex l.util_arr (r := (· < ·)) rfl (by decide)
  match hs : sort_index_arr l, hlen with
  | [a, b, c, d], _ =>
      rw [hs] at hperm hsort
      exact ⟨a, b, c, d, rfl, hperm, hsort⟩

/-- What `max` and `min` are, as far as the branches depend on it. -/
structure Selected (l : SocketLoad) (max min : Nat) : Prop where
  max_lt : max < 4
  min_lt : min < 4
  ne : min ≠ max
  greatest : ∀ i < 4, i ≠ max → Before l i max
  least : 2 ≤ l.core_counter min →
    ∀ i < 4, i ≠ max → i ≠ min → 2 ≤ l.core_counter i → Before l min i
  none : l.core_counter min < 2 → ∀ i < 4, i ≠ max → l.core_counter i < 2

/-- The fallback search: sorted position 0, else 1, else 2, else back to 0. -/
theorem selectMin_cases {l : SocketLoad} {a b c d : Nat} (hs : sort_index_arr l = [a, b, c, d]) :
    selectMin l = a ∧ 2 ≤ l.core_counter a
      ∨ selectMin l = b ∧ l.core_counter a < 2 ∧ 2 ≤ l.core_counter b
      ∨ selectMin l = c ∧ l.core_counter a < 2 ∧ l.core_counter b < 2 ∧ 2 ≤ l.core_counter c
      ∨ selectMin l = a ∧ l.core_counter a < 2 ∧ l.core_counter b < 2
        ∧ l.core_counter c < 2 := by
  by_cases h0 : l.core_counter a < 2
  · by_cases h1 : 2 ≤ l.core_counter b
    · simp [selectMin, hs, h0, h1]
    · by_cases h2 : 2 ≤ l.core_counter c
      · simp [selectMin, hs, h0, h1, h2]
        omega
      · simp [selectMin, hs, h0, h1, h2]
        omega
  · simp [selectMin, hs, h0]
    omega

theorem selected (l : SocketLoad) : Selected l (selectMax l) (selectMin l) := by
  obtain ⟨a, b, c, d, hs, hperm, hsort⟩ := sort_index_arr_spec l
  have hmem : ∀ i, i ∈ [a, b, c, d] ↔ i < 4 := by
    intro i
    rw [hperm.mem_iff]
    simp only [List.mem_cons, List.not_mem_nil, or_false]
    omega
  have hnodup : [a, b, c, d].Nodup := hperm.nodup_iff.mpr (by decide)
  simp only [List.pairwise_cons, List.mem_cons, List.not_mem_nil, or_false,
    forall_eq_or_imp, forall_eq] at hsort
  simp only [List.nodup_cons, List.mem_cons, List.not_mem_nil, or_false, not_or] at hnodup
  simp only [List.mem_cons, List.not_mem_nil, or_false] at hmem
  have ha := (hmem a).mp (by simp)
  have hb := (hmem b).mp (by simp)
  have hc := (hmem c).mp (by simp)
  have hd := (hmem d).mp (by simp)
  have hmax : selectMax l = d := by simp [selectMax, hs]
  have hmin := selectMin_cases hs
  rw [hmax]
  have hgreatest : ∀ i < 4, i ≠ d → Before l i d := by
    intro i hi hid
    rcases (hmem i).mpr hi with rfl | rfl | rfl | rfl
    · exact hsort.1.2.2
    · exact hsort.2.1.2
    · exact hsort.2.2.1
    · exact absurd rfl hid
  rcases hmin with ⟨he, h0⟩ | ⟨he, h0, h1⟩ | ⟨he, h0, h1, h2⟩ | ⟨he, h0, h1, h2⟩ <;> rw [he]
  · refine ⟨hd, ha, hnodup.1.2.2, hgreatest, ?_, ?_⟩
    · intro _ i hi hid hia _
      rcases (hmem i).mpr hi with rfl | rfl | rfl | rfl
      · exact absurd rfl hia
      · exact hsort.1.1
      · exact hsort.1.2.1
      · exact absurd rfl hid
    · intro hlt
      omega
  · refine ⟨hd, hb, hnodup.2.1.2, hgreatest, ?_, ?_⟩
    · intro _ i hi hid hib hci
      rcases (hmem i).mpr hi with rfl | rfl | rfl | rfl
      · omega
      · exact absurd rfl hib
      · exact hsort.2.1.1
      · exact absurd rfl hid
    · intro hlt
      omega
  · refine ⟨hd, hc, hnodup.2.2.1, hgreatest, ?_, ?_⟩
    · intro _ i hi hid hic hci
      rcases (hmem i).mpr hi with rfl | rfl | rfl | rfl
      · omega
      · omega
      · exact absurd rfl hic
      · exact absurd rfl hid
    · intro hlt
      omega
  · refine ⟨hd, ha, hnodup.1.2.2, hgreatest, ?_, ?_⟩
    · intro hge
      omega
    · intro _ i hi hid
      rcases (hmem i).mpr hi with rfl | rfl | rfl | rfl
      · exact h0
      · exact h1
      · exact h2
      · exact absurd rfl hid

/-! ## What the branches do -/

/-- The branch of the pair is taken. -/
def Taken (l : SocketLoad) (r d : Nat) : Prop :=
  2 ≤ l.core_counter d ∧ l.util_arr d < l.util_arr r - T_CHANGE

theorem moveBounds_of_not_taken {l : SocketLoad} {r d : Fin 4} {b : Bounds} (hne : d ≠ r)
    (h : ¬ Taken l r d) : moveBounds l r d b = b := by
  by_cases hc : l.core_counter d < 2
  · simp [moveBounds, hc]
  · have hgap : ¬ l.util_arr d < l.util_arr r - T_CHANGE := by
      intro hlt
      exact h ⟨by omega, hlt⟩
    simp only [moveBounds, if_neg hc]
    fin_cases r <;> fin_cases d <;>
      first
        | exact absurd rfl hne
        | (simp only [SocketLoad.util_arr] at hgap
           simp [hgap])

/-- **The twelve branches agree with the abstract move**: one core from the
donor to the receiver, the two other sizes untouched. -/
theorem groupSize_moveBounds {l : SocketLoad} {r d : Fin 4} {b : Bounds} (hne : d ≠ r)
    (h : Taken l r d) :
    groupSize (moveBounds l r d b) = Transfer.move (groupSize b) r d := by
  obtain ⟨hc, hgap⟩ := h
  have hc' : ¬ l.core_counter d < 2 := by omega
  simp only [moveBounds, if_neg hc']
  fin_cases r <;> fin_cases d <;>
    first
      | exact absurd rfl hne
      | (simp only [SocketLoad.util_arr] at hgap
         funext g
         fin_cases g <;> simp [groupSize, Transfer.move, hgap] <;> omega)

/-- What no branch touches, and the distance no branch changes. -/
structure Framed (b b' : Bounds) : Prop where
  net_start : b'.net_start = b.net_start
  blk_end : b'.blk_end = b.blk_end
  distance : b'.app_end - b'.blk_start = b.app_end - b.blk_start

theorem moveBounds_frame (l : SocketLoad) (max min : Nat) (b : Bounds) :
    Framed b (moveBounds l max min b) := by
  unfold moveBounds
  -- one goal for each leaf of the branch tree
  repeat'
    apply iteInduction
    all_goals intro _
  all_goals exact ⟨rfl, rfl, by simp⟩

/-! ## The tick -/

/-- The net groups of socket `s` take part in its selection. -/
def netSelected (l : SocketLoad) : Bool := selectMax l == 0 || selectMin l == 0

/-- Everything a tick does, socket by socket, in terms of the loads `ls`. -/
structure TickSpec (par : Params) (p_dynamic : Int → Int) (per : Socket → Bounds)
    (ls : Socket → SocketLoad) (t : Tick) : Prop where
  averages_eq : ∀ s, averages p_dynamic (per s) = some (ls s)
  load : ∀ s, LoadSpec p_dynamic (per s) (ls s)
  per_eq : ∀ s, t.per s = moveBounds (ls s) (selectMax (ls s)) (selectMin (ls s)) (per s)
  reads_eq : ∀ s, t.reads s = (ls s).reads
  hints_eq : t.hints = if netSelected (ls 1) || netSelected (ls 0)
    then redistributeNet par t.per NUMBER_OF_SOCKETS else []

theorem averagesAll_spec (p_dynamic : Int → Int) {per : Socket → Bounds}
    (h : ∀ s, AllPos (per s)) :
    ∃ ls, averagesAll p_dynamic per = some ls
      ∧ (∀ s, averages p_dynamic (per s) = some (ls s))
      ∧ ∀ s, LoadSpec p_dynamic (per s) (ls s) := by
  obtain ⟨l1, he1, hs1⟩ := averages_spec p_dynamic (h 1)
  obtain ⟨l0, he0, hs0⟩ := averages_spec p_dynamic (h 0)
  refine ⟨Function.update (Function.update (fun _ => ⟨0, 0, 0, 0, 0, 0, 0, 0, []⟩) 1 l1) 0 l0,
    ?_, ?_, ?_⟩
  · simp [averagesAll, socketLoop, he1, he0]
  · intro s
    fin_cases s
    · simpa using he0
    · simpa using he1
  · intro s
    fin_cases s
    · simpa using hs0
    · simpa using hs1

/-- Block numbers never reach the literal the block flag is compared with. -/
theorem adjustSocket_blk_flag (l : SocketLoad) (s : Socket) (a : Adjust) :
    (adjustSocket l s a).blk_flag = a.blk_flag := by
  have hsel := selected l
  have hmax := hsel.max_lt
  have hmin := hsel.min_lt
  have hno : ¬ (selectMin l = 4 ∨ selectMax l = 4) := by omega
  simp [adjustSocket, hno]

theorem adjustSocket_net_flag (l : SocketLoad) (s : Socket) (a : Adjust) :
    (adjustSocket l s a).net_flag = (netSelected l || a.net_flag) := by
  by_cases h : selectMax l = 0 ∨ selectMin l = 0
  · have hn : netSelected l = true := by simpa [netSelected] using h
    simp [adjustSocket, h, hn]
  · have hn : netSelected l = false := by simpa [netSelected] using h
    simp [adjustSocket, h, hn]

/-- **The tick, once and for all**: with a core in every group it returns,
and this is what it does. -/
theorem tick_spec (par : Params) (p_dynamic : Int → Int) {per : Socket → Bounds}
    (h : ∀ s, AllPos (per s)) :
    ∃ ls t, kerneltimer_timeover par p_dynamic per = some t
      ∧ TickSpec par p_dynamic per ls t := by
  obtain ⟨ls, hls, havg, hload⟩ := averagesAll_spec p_dynamic h
  -- the adjusting loop, socket 1 first
  obtain ⟨a, ha⟩ : ∃ a, a = adjustSocket (ls 0) 0 (adjustSocket (ls 1) 1
    { per, net_flag := false, blk_flag := false }) := ⟨_, rfl⟩
  have hblk : a.blk_flag = false := by
    rw [ha, adjustSocket_blk_flag, adjustSocket_blk_flag]
  have hnet : a.net_flag = (netSelected (ls 1) || netSelected (ls 0)) := by
    rw [ha, adjustSocket_net_flag, adjustSocket_net_flag, Bool.or_false, Bool.or_comm]
  refine ⟨ls, ⟨a.per, if netSelected (ls 1) || netSelected (ls 0)
      then redistributeNet par a.per NUMBER_OF_SOCKETS else [], fun s => (ls s).reads⟩,
    ?_, havg, hload, ?_, fun _ => rfl, rfl⟩
  · simp only [kerneltimer_timeover, hls, socketLoop, List.foldl_cons, List.foldl_nil,
      Option.bind_eq_bind, Option.bind_some, ← ha, hblk, hnet]
    simp
  · intro s
    rw [ha]
    fin_cases s <;> simp [adjustSocket]

/-! ## The refinement -/

section Refinement

variable {p_dynamic : Int → Int} {b : Bounds} {l : SocketLoad}

theorem LoadSpec.key_le (hl : LoadSpec p_dynamic b l) {i j : Fin 4} :
    Transfer.key (groupAvg p_dynamic b) i ≤ Transfer.key (groupAvg p_dynamic b) j
      ↔ i = j ∨ Before l i j := by
  rw [Transfer.key_le_iff, Before, hl.util, hl.util]
  constructor
  · rintro (h | ⟨h, hij⟩)
    · exact .inr (.inl h)
    · rcases lt_or_eq_of_le hij with hlt | heq
      · exact .inr (.inr ⟨h, hlt⟩)
      · exact .inl heq
  · rintro (rfl | h | ⟨h, hij⟩)
    · exact .inr ⟨rfl, le_rfl⟩
    · exact .inl h
    · exact .inr ⟨h, Fin.le_def.mpr (by omega)⟩

theorem LoadSpec.isReceiver (hl : LoadSpec p_dynamic b l) {max min : Fin 4}
    (hs : Selected l max min) : Transfer.IsReceiver (groupAvg p_dynamic b) max := by
  intro i
  rw [hl.key_le]
  by_cases hi : i = max
  · exact .inl hi
  · exact .inr (hs.greatest i i.isLt (fun h => hi (Fin.ext h)))

theorem LoadSpec.isDonor (hl : LoadSpec p_dynamic b l) {max min : Fin 4}
    (hs : Selected l max min) (hc : 2 ≤ l.core_counter min) :
    Transfer.IsDonor (groupAvg p_dynamic b) (groupSize b) max min := by
  refine ⟨fun h => hs.ne (congrArg Fin.val h), by rw [← hl.cores]; exact hc, ?_⟩
  intro i hi hci
  rw [hl.key_le]
  by_cases him : i = min
  · exact .inl him.symm
  · rw [← hl.cores] at hci
    exact .inr (hs.least hc i i.isLt (fun h => hi (Fin.ext h)) (fun h => him (Fin.ext h)) hci)

/-- The selected pair is taken exactly when the abstract transfer is due,
and the transfer is due for no other pair. -/
theorem LoadSpec.fires_iff (hl : LoadSpec p_dynamic b l) {max min : Fin 4}
    (hs : Selected l max min) (r d : Fin 4) :
    Transfer.Fires T_CHANGE (groupAvg p_dynamic b) (groupSize b) r d
      ↔ r = max ∧ d = min ∧ Taken l max min := by
  constructor
  · intro hf
    have hr : r = max := hf.receiver.unique (hl.isReceiver hs)
    subst hr
    have hcmin : 2 ≤ l.core_counter min := by
      by_contra hlt
      have hd := hs.none (by omega) d d.isLt (fun h => hf.donor.ne (Fin.ext h))
      have hspare := hf.donor.spare
      rw [← hl.cores] at hspare
      omega
    have hd : d = min := hf.donor.unique (hl.isDonor hs hcmin)
    subst hd
    refine ⟨rfl, rfl, hcmin, ?_⟩
    rw [hl.util, hl.util]
    exact hf.gap
  · rintro ⟨rfl, rfl, hc, hgap⟩
    rw [hl.util, hl.util] at hgap
    exact ⟨hl.isReceiver hs, hl.isDonor hs hc, hgap⟩

/-- **One socket of a tick is one transfer step.** -/
theorem LoadSpec.step (hl : LoadSpec p_dynamic b l) :
    Transfer.Step T_CHANGE (groupAvg p_dynamic b) (groupSize b)
        (groupSize (moveBounds l (selectMax l) (selectMin l) b))
      ∧ ((∀ r d, ¬ Transfer.Fires T_CHANGE (groupAvg p_dynamic b) (groupSize b) r d) →
          moveBounds l (selectMax l) (selectMin l) b = b) := by
  have hs := selected l
  obtain ⟨max, hmax⟩ : ∃ r : Fin 4, (r : Nat) = selectMax l := ⟨⟨_, hs.max_lt⟩, rfl⟩
  obtain ⟨min, hmin⟩ : ∃ d : Fin 4, (d : Nat) = selectMin l := ⟨⟨_, hs.min_lt⟩, rfl⟩
  rw [← hmax, ← hmin] at hs ⊢
  have hne : min ≠ max := fun h => hs.ne (congrArg Fin.val h)
  have hfires := hl.fires_iff hs
  by_cases ht : Taken l max min
  · have hf := (hfires max min).mpr ⟨rfl, rfl, ht⟩
    rw [groupSize_moveBounds hne ht]
    exact ⟨.moved hf, fun hno => absurd hf (hno _ _)⟩
  · have hstay : moveBounds l max min b = b := moveBounds_of_not_taken hne ht
    rw [hstay]
    exact ⟨.stays (fun r d hf => ht ((hfires r d).mp hf).2.2), fun _ => rfl⟩

end Refinement

/-- What a tick does to the boundaries of one socket: a function of that
socket's boundaries and of the utilisations only. -/
def socketTick (p_dynamic : Int → Int) (b : Bounds) : Bounds :=
  match averages p_dynamic b with
  | some l => moveBounds l (selectMax l) (selectMin l) b
  | none => b

theorem TickSpec.per_eq_socketTick {par : Params} {p_dynamic : Int → Int}
    {per : Socket → Bounds} {ls : Socket → SocketLoad} {t : Tick}
    (h : TickSpec par p_dynamic per ls t) (s : Socket) :
    t.per s = socketTick p_dynamic (per s) := by
  simp [socketTick, h.averages_eq, h.per_eq]

/-- **APP mode refines the core transfer.** From any boundaries with a core
in every group and any utilisations, the tick returns, works on each
socket by itself, and does there exactly the due unit transfer between the
groups (`Transfer.Fires`, ordered by integer average and group number, with
threshold `T_CHANGE`) — or nothing at all when none is due. -/
theorem app_tick_refines_transfer (par : Params) (p_dynamic : Int → Int)
    (per : Socket → Bounds) (h : ∀ s g, 1 ≤ groupSize (per s) g) :
    ∃ t, kerneltimer_timeover par p_dynamic per = some t ∧ ∀ s,
      t.per s = socketTick p_dynamic (per s)
      ∧ (∀ r d, Transfer.Fires T_CHANGE (groupAvg p_dynamic (per s)) (groupSize (per s)) r d →
          groupSize (t.per s) r = groupSize (per s) r + 1
          ∧ groupSize (t.per s) d = groupSize (per s) d - 1
          ∧ ∀ g, g ≠ r → g ≠ d → groupSize (t.per s) g = groupSize (per s) g)
      ∧ ((∀ r d, ¬ Transfer.Fires T_CHANGE (groupAvg p_dynamic (per s))
          (groupSize (per s)) r d) → t.per s = per s)
      ∧ (t.per s).net_start = (per s).net_start
      ∧ (t.per s).blk_end = (per s).blk_end
      ∧ (t.per s).app_end - (t.per s).blk_start = (per s).app_end - (per s).blk_start := by
  obtain ⟨ls, t, ht, hspec⟩ := tick_spec par p_dynamic h
  refine ⟨t, ht, fun s => ⟨hspec.per_eq_socketTick s, ?_, ?_, ?_⟩⟩
  · intro r d hf
    have hstep := (hspec.load s).step.1
    rw [← hspec.per_eq] at hstep
    have hmove : groupSize (t.per s) = Transfer.move (groupSize (per s)) r d :=
      hstep.unique (.moved hf)
    rw [hmove]
    exact ⟨Transfer.move_receiver .., Transfer.move_donor hf.donor.ne,
      fun g hr hd => Transfer.move_other hr hd⟩
  · intro hno
    rw [hspec.per_eq]
    exact (hspec.load s).step.2 hno
  · have hframe := moveBounds_frame (ls s) (selectMax (ls s)) (selectMin (ls s)) (per s)
    rw [hspec.per_eq]
    exact ⟨hframe.net_start, hframe.blk_end, hframe.distance⟩

/-- The tick after `init_simpleproc` with only the net cores of socket 0
busy: net queue takes a core from net sys. -/
theorem app_tick_refines_transfer_init :
    (∀ s g, 1 ≤ groupSize (init_simpleproc s) g)
      ∧ ∃ t, kerneltimer_timeover Params.unset (fun j => if j ≤ 1 then 100 else 0)
          init_simpleproc = some t
        ∧ t.per 0 = { init_simpleproc 0 with net_end := 2 } := by
  have hpos : ∀ s g, 1 ≤ groupSize (init_simpleproc s) g := by decide
  obtain ⟨t, ht, hall⟩ := app_tick_refines_transfer Params.unset
    (fun j => if j ≤ 1 then 100 else 0) init_simpleproc hpos
  exact ⟨hpos, t, ht, (hall 0).1.trans (by decide)⟩

end CorePartitioning.KTimer.App
