import CorePartitioning.KTimer.AppIrq
import CorePartitioning.KTimer.Per
import CorePartitioning.KTimer.SingleIrq

/-!
# simple_proc — the IRQs a tick touches

`module_param_array` stores how many IRQ numbers it was given in
`nr_blk_queue` and `nr_net_queue`, which nothing reads: a redistribution
goes over the whole array. The cells that were not given are 0, and so IRQ 0
is hinted, in every mode, unless the array is full or 0 is among the numbers
given.
-/

namespace CorePartitioning.KTimer

/-! ## The module parameters -/

/-- The numbers given as `irq_blk=` and `irq_net=`. -/
structure Supplied where
  irq_blk : List Int
  irq_net : List Int
  blk_le : irq_blk.length ≤ BLK_QUEUES
  net_le : irq_net.length ≤ NET_QUEUES

/-- The arrays they are stored in. -/
def Supplied.params (sup : Supplied) : Params where
  irq_blk j := sup.irq_blk.getD j 0
  irq_net j := sup.irq_net.getD j 0

def Supplied.irqs (sup : Supplied) : List Int := sup.irq_blk ++ sup.irq_net

/-- The numbers for one kind of queue. -/
def Supplied.ofTurn (sup : Supplied) : Turn → List Int
  | .blk => sup.irq_blk
  | .net => sup.irq_net

/-- The length of the array for one kind. -/
def arraySize : Turn → Nat
  | .blk => BLK_QUEUES
  | .net => NET_QUEUES

def Queue.index : Queue → Nat
  | .blk j => j
  | .net j => j

/-- The array of the kind is full, or IRQ 0 is one of the numbers given. -/
def Covers (sup : Supplied) (turn : Turn) : Prop :=
  (sup.ofTurn turn).length = arraySize turn ∨ 0 ∈ sup.irqs

/-- A batch of hints touches supplied IRQs only. -/
structure OnlySupplied (sup : Supplied) (log batch : List Hint) : Prop where
  hinted : ∀ h ∈ batch, h.irq ∈ sup.irqs
  rest : ∀ irq ∉ sup.irqs, lastIrqHint (log ++ batch) irq = lastIrqHint log irq

variable {sup : Supplied} {turn : Turn} {log batch : List Hint} {cores : Int → Prop}

theorem Supplied.ofTurn_le (sup : Supplied) (turn : Turn) :
    (sup.ofTurn turn).length ≤ arraySize turn := by
  cases turn with
  | blk => exact sup.blk_le
  | net => exact sup.net_le

theorem Supplied.mem_irqs_of_mem {irq : Int} (h : irq ∈ sup.ofTurn turn) : irq ∈ sup.irqs := by
  cases turn with
  | blk => exact List.mem_append_left _ h
  | net => exact List.mem_append_right _ h

theorem Supplied.irq_eq (sup : Supplied) (queue : Queue) :
    sup.params.irq queue = (sup.ofTurn queue.turn).getD queue.index 0 := by
  cases queue <;> rfl

theorem Queue.index_lt (queue : Queue) : queue.index < arraySize queue.turn := by
  cases queue with
  | blk j => exact j.isLt
  | net j => exact j.isLt

theorem exists_queue {i : Nat} (h : i < arraySize turn) :
    ∃ queue : Queue, queue.turn = turn ∧ queue.index = i := by
  cases turn with
  | blk => exact ⟨.blk ⟨i, h⟩, rfl, rfl⟩
  | net => exact ⟨.net ⟨i, h⟩, rfl, rfl⟩

/-! ## One redistribution -/

/-- The other IRQs are left alone as soon as only supplied ones are hinted. -/
theorem onlySupplied_of_hinted (h : ∀ x ∈ batch, x.irq ∈ sup.irqs) :
    OnlySupplied sup log batch := by
  refine ⟨h, fun irq hirq => lastCore_append_of_not fun x hx => ?_⟩
  rw [beq_eq_false_iff_ne]
  rintro rfl
  exact hirq (h x hx)

theorem onlySupplied_nil : OnlySupplied sup log [] :=
  onlySupplied_of_hinted fun _ hx => absurd hx List.not_mem_nil

/-- **A redistribution** touches supplied IRQs only, if and only if the
array is full or 0 is supplied. -/
theorem Redistributes.onlySupplied_iff (h : Redistributes sup.params turn cores batch) :
    OnlySupplied sup log batch ↔ Covers sup turn := by
  have hle := sup.ofTurn_le turn
  constructor
  · intro honly
    by_cases hfull : (sup.ofTurn turn).length = arraySize turn
    · exact .inl hfull
    · have hlt : (sup.ofTurn turn).length < arraySize turn := by omega
      obtain ⟨queue, hturn, hindex⟩ := exists_queue hlt
      obtain ⟨x, hx, hqueue⟩ := h.all queue hturn
      have hzero : x.irq = 0 := by
        rw [h.irq x hx, hqueue, sup.irq_eq, hturn, hindex, List.getD_eq_default _ _ le_rfl]
      right
      rw [← hzero]
      exact honly.hinted x hx
  · intro hcovers
    refine onlySupplied_of_hinted fun x hx => ?_
    have hindex := x.queue.index_lt
    rw [h.kind x hx] at hindex
    rw [h.irq x hx, sup.irq_eq, h.kind x hx]
    by_cases hlt : x.queue.index < (sup.ofTurn turn).length
    · rw [List.getD_eq_getElem _ _ hlt]
      exact Supplied.mem_irqs_of_mem (List.getElem_mem hlt)
    · rw [List.getD_eq_default _ _ (by omega)]
      rcases hcovers with hfull | hzero
      · omega
      · exact hzero

/-! ## The net redistribution of APP -/

namespace App

variable {p_dynamic : Int → Int} {b : Bounds} {l : SocketLoad} {per : Socket → Bounds}

/-- The net group of a socket receives a core or is the one to give it: it
is the most loaded, or the least loaded of the others with two cores, or,
when none of the others has two, the least loaded of all. -/
def NetTakesPart (p_dynamic : Int → Int) (b : Bounds) : Prop :=
  ∃ r : Fin 4, Transfer.IsReceiver (groupAvg p_dynamic b) r ∧
    (r = 0 ∨ Transfer.IsDonor (groupAvg p_dynamic b) (groupSize b) r 0 ∨
      ((∀ g, g ≠ r → groupSize b g < 2) ∧
        ∀ g, Transfer.key (groupAvg p_dynamic b) 0 ≤ Transfer.key (groupAvg p_dynamic b) g))

/-- Without a group that can give, the search falls back to the least
loaded one. -/
theorem selectMin_least (h : l.core_counter (selectMin l) < 2) :
    ∀ i < 4, i ≠ selectMin l → Before l (selectMin l) i := by
  obtain ⟨a, b, c, d, hs, hperm, hsort⟩ := sort_index_arr_spec l
  have hfirst : selectMin l = a := by
    rcases selectMin_cases hs with ⟨he, hc⟩ | ⟨he, -, hc⟩ | ⟨he, -, -, hc⟩ | ⟨he, -⟩
    · exact he
    · rw [he] at h
      omega
    · rw [he] at h
      omega
    · exact he
  rw [hfirst]
  intro i hi hne
  have hmem : i ∈ [a, b, c, d] := by
    rw [hperm.mem_iff]
    simp only [List.mem_cons, List.not_mem_nil, or_false]
    omega
  rcases List.mem_cons.mp hmem with heq | hrest
  · exact absurd heq hne
  · exact (List.pairwise_cons.mp hsort).1 i hrest

/-- The flag of a socket, by its loads and its sizes. -/
theorem LoadSpec.netSelected_iff (hl : LoadSpec p_dynamic b l) :
    netSelected l = true ↔ NetTakesPart p_dynamic b := by
  have hs := selected l
  have hleast := selectMin_least (l := l)
  obtain ⟨max, hmax⟩ : ∃ r : Fin 4, (r : Nat) = selectMax l := ⟨⟨_, hs.max_lt⟩, rfl⟩
  obtain ⟨min, hmin⟩ : ∃ d : Fin 4, (d : Nat) = selectMin l := ⟨⟨_, hs.min_lt⟩, rfl⟩
  have hsel : netSelected l = true ↔ max = 0 ∨ min = 0 := by
    simp only [netSelected, Bool.or_eq_true, beq_iff_eq, ← hmax, ← hmin, Fin.ext_iff]
    rfl
  rw [← hmax, ← hmin] at hs
  rw [← hmin] at hleast
  have hreceiver := hl.isReceiver hs
  have hne : min ≠ max := fun heq => hs.ne (congrArg Fin.val heq)
  rw [hsel]
  constructor
  · rintro (rfl | rfl)
    · exact ⟨0, hreceiver, .inl rfl⟩
    · refine ⟨max, hreceiver, .inr ?_⟩
      by_cases hspare : 2 ≤ l.core_counter (0 : Fin 4)
      · exact .inl (hl.isDonor hs hspare)
      · refine .inr ⟨fun g hg => ?_, fun g => ?_⟩
        · rw [← hl.cores]
          exact hs.none (by omega) g g.isLt fun heq => hg (Fin.ext heq)
        · rw [hl.key_le]
          by_cases hg : g = 0
          · exact .inl hg.symm
          · exact .inr (hleast (by omega) g g.isLt fun heq => hg (Fin.ext heq))
  · rintro ⟨r, hr, hcases⟩
    obtain rfl := hr.unique hreceiver
    rcases hcases with hzero | hdonor | ⟨hnone, hall⟩
    · exact .inl hzero
    · right
      have hspare := hdonor.spare
      rw [← hl.cores] at hspare
      by_cases hmin2 : 2 ≤ l.core_counter min
      · exact (hl.isDonor hs hmin2).unique hdonor
      · have hlt := hs.none (by omega) (0 : Fin 4) (Fin.isLt 0)
          fun heq => hdonor.ne (Fin.ext heq)
        omega
    · right
      have hlt := hnone min hne
      rw [← hl.cores] at hlt
      by_contra hmin0
      have hbefore := hleast hlt (0 : Fin 4) (Fin.isLt 0) fun heq => hmin0 (Fin.ext heq.symm)
      have hkey := Transfer.key_injective (groupAvg p_dynamic b)
        (le_antisymm (hl.key_le.mpr (.inr hbefore)) (hall min))
      exact hmin0 hkey

theorem redistributes_redistributeNet {par : Params} (h : ∀ s, AllPos (per s)) :
    Redistributes par .net (fun _ => True) (redistributeNet par per NUMBER_OF_SOCKETS) := by
  have hshape : ∀ x ∈ redistributeNet par per NUMBER_OF_SOCKETS,
      ∃ j : Fin NET_QUEUES, x.queue = .net j ∧ x.irq = par.irq_net j := by
    intro x hx
    obtain ⟨i, hi⟩ := List.getElem?_of_mem hx
    obtain ⟨j, -, hqueue, hirq, -⟩ := redistributeNet_shape h hi
    exact ⟨j, hqueue, hirq⟩
  refine ⟨fun x hx => ?_, fun x hx => ?_, fun _ _ => trivial, fun queue hturn => ?_⟩
  · obtain ⟨j, hqueue, -⟩ := hshape x hx
    rw [hqueue]
    rfl
  · obtain ⟨j, hqueue, hirq⟩ := hshape x hx
    rw [hirq, hqueue]
    rfl
  · cases queue with
    | blk j => cases hturn
    | net j =>
        obtain ⟨core, -, hget⟩ := getElem?_redistributeNet par h j
        exact ⟨_, List.mem_of_getElem? hget, rfl⟩

theorem TickSpec.onlySupplied_iff {ls : Socket → SocketLoad} {t : Tick}
    (h : TickSpec sup.params p_dynamic per ls t) (hpos : ∀ s, AllPos (t.per s)) :
    OnlySupplied sup log t.hints ↔ ((∃ s, NetTakesPart p_dynamic (per s)) → Covers sup .net) := by
  have hsel : (netSelected (ls 1) || netSelected (ls 0)) = true ↔
      ∃ s, NetTakesPart p_dynamic (per s) := by
    simp only [Bool.or_eq_true, (h.load _).netSelected_iff, Fin.exists_fin_two, or_comm]
  rw [h.hints_eq, ← hsel]
  by_cases hs : (netSelected (ls 1) || netSelected (ls 0)) = true
  · rw [if_pos hs, (redistributes_redistributeNet hpos).onlySupplied_iff]
    exact ⟨fun hcovers _ => hcovers, fun himp => himp hs⟩
  · rw [if_neg hs]
    exact ⟨fun _ hsel => absurd hsel hs, fun _ => onlySupplied_nil⟩

end App

/-! ## Every mode -/

/-- The ticks of SINGLE and of the two modes with sockets redistribute the
kind whose turn it is. -/
theorem Single.tick_onlySupplied_iff (log : List Hint) {st : Single.State} (h : Single.Inv st)
    (p_dynamic : Int → Int) :
    ∃ st' hints, Single.kerneltimer_timeover sup.params p_dynamic st = some (st', hints) ∧
      (OnlySupplied sup log hints ↔ Covers sup st.dynamic_turn) := by
  cases hturn : st.dynamic_turn with
  | blk =>
      obtain ⟨st', hints, htick, hspec⟩ := Single.tick_blk sup.params p_dynamic h hturn
      exact ⟨st', hints, htick, hspec.redistributes.onlySupplied_iff⟩
  | net =>
      obtain ⟨st', hints, htick, hspec⟩ := Single.tick_net sup.params p_dynamic h hturn
      exact ⟨st', hints, htick, hspec.redistributes.onlySupplied_iff⟩

/-- **The IRQs a tick touches.** Whatever is given as parameters, after any
run of any mode, a tick hints supplied IRQs only and leaves the others alone
if and only if the array of the kind it redistributes is full or 0 is
supplied. SINGLE, CROSS and PER redistribute the kind whose turn it is, APP
the net queues when a net group takes part in a selection. -/
theorem only_supplied_irqs_iff (sup : Supplied) :
    (∀ turn ps p_dynamic, ∃ st log st' hints,
      Single.run sup.params turn ps = some (st, log) ∧
      Single.kerneltimer_timeover sup.params p_dynamic st = some (st', hints) ∧
      (OnlySupplied sup log hints ↔ Covers sup st.dynamic_turn)) ∧
    (∀ is inp, ∃ st log t, Cross.run sup.params is = some (st, log) ∧
      Cross.kerneltimer_timeover sup.params inp st = some t ∧
      (OnlySupplied sup log t.hints ↔ Covers sup st.dynamic_turn)) ∧
    (∀ is inp, ∃ st log t, Per.run sup.params is = some (st, log) ∧
      Per.kerneltimer_timeover sup.params inp st = some t ∧
      (OnlySupplied sup log t.hints ↔ Covers sup st.dynamic_turn)) ∧
    (∀ ps p_dynamic, ∃ per log t, App.run sup.params ps = some (per, log) ∧
      App.kerneltimer_timeover sup.params p_dynamic per = some t ∧
      (OnlySupplied sup log t.hints ↔
        ((∃ s, App.NetTakesPart p_dynamic (per s)) → Covers sup .net))) := by
  refine ⟨fun turn ps p_dynamic => ?_, fun is inp => ?_, fun is inp => ?_, fun ps p_dynamic => ?_⟩
  · obtain ⟨st, log, hrun, hinv, -⟩ := Single.run_inv sup.params turn ps
    obtain ⟨st', hints, htick, honly⟩ := Single.tick_onlySupplied_iff log hinv p_dynamic
    exact ⟨st, log, st', hints, hrun, htick, honly⟩
  · obtain ⟨st, log, hrun, hplaced⟩ := Cross.run_placed sup.params is
    obtain ⟨t, htick, hspec⟩ := Cross.tick_spec sup.params inp hplaced.sound
    exact ⟨st, log, t, hrun, htick, hspec.rest.hints.onlySupplied_iff⟩
  · obtain ⟨st, log, hrun, hplaced⟩ := Per.run_placed sup.params is
    obtain ⟨t, htick, hspec⟩ := Per.tick_spec sup.params inp hplaced.sound
    exact ⟨st, log, t, hrun, htick, hspec.hints.onlySupplied_iff⟩
  · obtain ⟨per, log, hrun, hinv⟩ := App.run_inv sup.params ps
    obtain ⟨ls, t, htick, hspec⟩ := App.tick_spec sup.params p_dynamic fun s => (hinv s).pos
    have hinv' := App.Inv.tick hspec hinv
    exact ⟨per, log, t, hrun, htick, hspec.onlySupplied_iff fun s => (hinv' s).pos⟩

/-- One IRQ of each kind. -/
def oneEach : Supplied := ⟨[32], [24], by decide, by decide⟩

/-- Net cores at full load: the first tick of APP hints IRQ 24, and IRQ 0
for each of the seven cells that were not given. -/
theorem app_hints_irq_zero :
    ∃ t, App.kerneltimer_timeover oneEach.params (fun j => if j ≤ 1 then 100 else 0)
        App.init_simpleproc = some t ∧
      t.hints.map Hint.irq = [24, 0, 0, 0, 0, 0, 0, 0] ∧ ¬ OnlySupplied oneEach [] t.hints := by
  have hirqs : (App.kerneltimer_timeover oneEach.params (fun j => if j ≤ 1 then 100 else 0)
      App.init_simpleproc).map (fun t => t.hints.map Hint.irq)
        = some [24, 0, 0, 0, 0, 0, 0, 0] := by decide
  obtain ⟨t, htick, hvals⟩ := Option.map_eq_some_iff.mp hirqs
  refine ⟨t, htick, hvals, fun honly => ?_⟩
  have hmem : (0 : Int) ∈ t.hints.map Hint.irq := by
    rw [hvals]
    simp
  obtain ⟨x, hx, hzero⟩ := List.mem_map.mp hmem
  have hsup := honly.hinted x hx
  rw [hzero] at hsup
  simp [Supplied.irqs, oneEach] at hsup

end CorePartitioning.KTimer
