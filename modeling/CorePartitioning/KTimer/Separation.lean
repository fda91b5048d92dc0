import CorePartitioning.KTimer.Per
import CorePartitioning.KTimer.SingleIrq

/-!
# simple_proc — block and net interrupts never share a core

The partition separates the ranges of one state. What the hardware follows
is the last hint of every queue, and at most moments the last hints are not
of one state: a redistribution gives its hints one after the other, and the
queues of the other kind are where an earlier tick left them. Separation is
therefore a property of every prefix of the log.

In SINGLE mode the turn for net irq can take a core from under the block
queues; they are still one core away then.
-/

namespace CorePartitioning.KTimer

variable {par : Params} {log batch : List Hint} {turn turn' : Turn}
  {cores cores' blks nets : Int → Prop} {apart : Int → Int → Prop}

/-- Every queue of a kind that was hinted was last hinted to one of
`cores`. -/
structure LastIn (log : List Hint) (turn : Turn) (cores : Int → Prop) : Prop where
  core : ∀ queue core, queue.turn = turn → lastQueueHint log queue = some core → cores core

/-- The last hints of a net queue and of a block queue are `apart`. -/
def Separated (apart : Int → Int → Prop) (log : List Hint) : Prop :=
  ∀ i j blk net, lastQueueHint log (.blk i) = some blk → lastQueueHint log (.net j) = some net →
    apart net blk

/-- So they were after every single hint. -/
def AlwaysSeparated (apart : Int → Int → Prop) (log : List Hint) : Prop :=
  ∀ pre, pre <+: log → Separated apart pre

theorem lastIn_nil (turn : Turn) (cores : Int → Prop) : LastIn [] turn cores := by
  constructor
  intro queue core _ hlast
  cases hlast

theorem LastIn.mono (h : LastIn log turn cores) (hcores : ∀ core, cores core → cores' core) :
    LastIn log turn cores' := by
  constructor
  intro queue core hturn hlast
  exact hcores core (h.core queue core hturn hlast)

/-- The last hint of a queue is one of the batch, or it is the one from
before the batch. -/
theorem lastQueueHint_append_cases {queue : Queue} {core : Int}
    (h : lastQueueHint (log ++ batch) queue = some core) :
    (∃ x ∈ batch, x.queue = queue ∧ x.core = core) ∨ lastQueueHint log queue = some core := by
  by_cases hmem : ∃ x ∈ batch, (x.queue == queue) = true
  · obtain ⟨x, hx, hqueue, hlast⟩ := lastCore_append_of_mem log hmem
    have heq : some x.core = some core := hlast.symm.trans h
    exact .inl ⟨x, hx, eq_of_beq hqueue, Option.some.inj heq⟩
  · have hnot : ∀ x ∈ batch, (x.queue == queue) = false := by
      intro x hx
      cases hqueue : x.queue == queue with
      | false => rfl
      | true => exact absurd ⟨x, hx, hqueue⟩ hmem
    have hsame : lastQueueHint (log ++ batch) queue = lastQueueHint log queue :=
      lastCore_append_of_not hnot
    exact .inr (hsame.symm.trans h)

theorem LastIn.append (h : LastIn log turn cores)
    (hbatch : ∀ x ∈ batch, x.queue.turn = turn → cores x.core) :
    LastIn (log ++ batch) turn cores := by
  constructor
  intro queue core hturn hlast
  rcases lastQueueHint_append_cases hlast with ⟨x, hx, rfl, rfl⟩ | hold
  · exact hbatch x hx hturn
  · exact h.core queue core hturn hold

theorem alwaysSeparated_nil (apart : Int → Int → Prop) : AlwaysSeparated apart [] := by
  intro pre hpre i j blk net hblk
  rw [List.prefix_nil.mp hpre] at hblk
  cases hblk

/-- **The step.** A batch keeps the separation when the cores the queues
are on and those it hints them to are apart. -/
theorem AlwaysSeparated.append (h : AlwaysSeparated apart log) (hblk : LastIn log .blk blks)
    (hnet : LastIn log .net nets)
    (hblks : ∀ x ∈ batch, x.queue.turn = .blk → blks x.core)
    (hnets : ∀ x ∈ batch, x.queue.turn = .net → nets x.core)
    (hapart : ∀ net blk, nets net → blks blk → apart net blk) :
    AlwaysSeparated apart (log ++ batch) := by
  intro pre hpre
  rcases List.prefix_or_prefix_of_prefix hpre (List.prefix_append log batch) with hold | hnew
  · exact h pre hold
  · obtain ⟨done, rfl⟩ := hnew
    have hdone : ∀ x ∈ done, x ∈ batch := by
      intro x hx
      exact ((List.prefix_append_right_inj log).mp hpre).subset hx
    have hblk' := hblk.append fun x hx => hblks x (hdone x hx)
    have hnet' := hnet.append fun x hx => hnets x (hdone x hx)
    intro i j blk net hlast hlast'
    exact hapart net blk (hnet'.core _ net rfl hlast') (hblk'.core _ blk rfl hlast)

namespace Redistributes

theorem lastIn (h : Redistributes par turn cores batch) (log : List Hint) :
    LastIn (log ++ batch) turn cores := by
  constructor
  intro queue core hturn hlast
  have hin : HintedIn par (log ++ batch) queue cores := h.hintedIn hturn
  obtain ⟨core', hlast', hcore⟩ := hin.last
  obtain rfl : core' = core := Option.some.inj (hlast'.symm.trans hlast)
  exact hcore

theorem lastIn_other (h : Redistributes par turn cores batch) (hne : turn' ≠ turn)
    (hlog : LastIn log turn' cores') : LastIn (log ++ batch) turn' cores' := by
  apply hlog.append
  intro x hx hturn
  exact absurd (hturn.symm.trans (h.kind x hx)) hne

/-- A block redistribution. -/
theorem alwaysSeparated_blk (h : Redistributes par .blk cores batch)
    (halways : AlwaysSeparated apart log) (hblk : LastIn log .blk blks)
    (hnet : LastIn log .net nets) (hcores : ∀ core, cores core → blks core)
    (hapart : ∀ net blk, nets net → blks blk → apart net blk) :
    AlwaysSeparated apart (log ++ batch) := by
  apply halways.append hblk hnet _ _ hapart
  · intro x hx _
    exact hcores x.core (h.core x hx)
  · intro x hx hturn
    rw [h.kind x hx] at hturn
    cases hturn

/-- A net redistribution. -/
theorem alwaysSeparated_net (h : Redistributes par .net cores batch)
    (halways : AlwaysSeparated apart log) (hblk : LastIn log .blk blks)
    (hnet : LastIn log .net nets) (hcores : ∀ core, cores core → nets core)
    (hapart : ∀ net blk, nets net → blks blk → apart net blk) :
    AlwaysSeparated apart (log ++ batch) := by
  apply halways.append hblk hnet _ _ hapart
  · intro x hx hturn
    rw [h.kind x hx] at hturn
    cases hturn
  · intro x hx _
    exact hcores x.core (h.core x hx)

/-- The queues of the turn move from their old cores to the new ones, the
others stay: it is enough that the old cores are apart, and the new ones. -/
theorem alwaysSeparated (h : Redistributes par turn cores batch) {old : Turn → Int → Prop}
    (new : Turn → Int → Prop) (halways : AlwaysSeparated apart log)
    (hlast : ∀ turn', LastIn log turn' (old turn')) (hcores : ∀ core, cores core → new turn core)
    (hother : ∀ turn', turn' ≠ turn → new turn' = old turn')
    (hold : ∀ net blk, old .net net → old .blk blk → apart net blk)
    (hnew : ∀ net blk, new .net net → new .blk blk → apart net blk) :
    AlwaysSeparated apart (log ++ batch) := by
  have hmoving : LastIn log turn fun core => old turn core ∨ new turn core :=
    (hlast turn).mono fun core => Or.inl
  cases turn with
  | blk =>
      have heq : new .net = old .net := hother .net (by decide)
      apply h.alwaysSeparated_blk halways hmoving (hlast .net)
      · intro core hcore
        exact .inr (hcores core hcore)
      · intro net blk hnet hblk
        rcases hblk with hblk | hblk
        · exact hold net blk hnet hblk
        · rw [← heq] at hnet
          exact hnew net blk hnet hblk
  | net =>
      have heq : new .blk = old .blk := hother .blk (by decide)
      apply h.alwaysSeparated_net halways (hlast .blk) hmoving
      · intro core hcore
        exact .inr (hcores core hcore)
      · intro net blk hnet hblk
        rcases hnet with hnet | hnet
        · exact hold net blk hnet hblk
        · rw [← heq] at hblk
          exact hnew net blk hnet hblk

end Redistributes

/-! ## SINGLE -/

namespace Single

/-- There is a core between the two. -/
def CoreBetween (net blk : Int) : Prop := net + 2 ≤ blk

/-- What holds between the ticks. The block queues are in the block range
only after their own turn; what they keep after any is the core between
them and the net range. -/
structure KeptApart (st : State) (log : List Hint) : Prop where
  inv : Inv st
  net : LastIn log .net fun core => core ≤ st.net_end
  blk : LastIn log .blk fun core => st.net_end + 2 ≤ core
  fresh : st.dynamic_turn = .net → LastIn log .blk fun core => st.blk_start ≤ core
  always : AlwaysSeparated CoreBetween log

theorem keptApart_init (turn : Turn) :
    KeptApart { init_simpleproc with dynamic_turn := turn } [] where
  inv := inv_init turn
  net := lastIn_nil ..
  blk := lastIn_nil ..
  fresh _ := lastIn_nil ..
  always := alwaysSeparated_nil _

variable {st st' : State} {hints : List Hint} {u : Utils}

theorem KeptApart.blkTick (h : KeptApart st log) (htick : BlkTick par st st' hints) :
    KeptApart st' (log ++ hints) := by
  have hgap := htick.inv.gap
  have hend := htick.net_end
  have hredist := htick.redistributes
  have hfresh := hredist.lastIn log
  constructor
  case inv => exact htick.inv
  case net =>
    rw [hend]
    exact hredist.lastIn_other (by decide) h.net
  case blk =>
    apply hfresh.mono
    intro core hcore
    have hlo := hcore.1
    omega
  case fresh =>
    intro _
    exact hfresh.mono fun core hcore => hcore.1
  case always =>
    apply hredist.alwaysSeparated_blk h.always h.blk h.net
    · intro core hcore
      have hlo := hcore.1
      omega
    · intro net blk hnet hblk
      unfold CoreBetween
      omega

/-- The turn for net irq takes at most the first block core, and then the
net range grows by the core before it. -/
theorem NetTick.reaches (htick : NetTick par u st st' hints) :
    st'.net_end + 2 ≤ st.blk_start := by
  have hgap := htick.inv.gap
  by_cases hboth : MovesBoth u st
  · have hmoved := htick.moved hboth
    omega
  · have hstayed := htick.stayed hboth
    omega

theorem KeptApart.netTick (h : KeptApart st log) (hturn : st.dynamic_turn = .net)
    (htick : NetTick par u st st' hints) : KeptApart st' (log ++ hints) := by
  have hgap := h.inv.gap
  have hreach := htick.reaches
  have hredist := htick.redistributes
  have hfresh := h.fresh hturn
  constructor
  case inv => exact htick.inv
  case net => exact (hredist.lastIn log).mono fun core hcore => hcore.2
  case blk =>
    apply hredist.lastIn_other (by decide)
    apply hfresh.mono
    intro core hcore
    omega
  case fresh =>
    intro hnet
    rw [htick.turn] at hnet
    cases hnet
  case always =>
    -- the net queues, on their way, are below `blk_start` as it was
    have hbelow : LastIn log .net fun core => core + 2 ≤ st.blk_start := by
      apply h.net.mono
      intro core hcore
      omega
    apply hredist.alwaysSeparated_net h.always hfresh hbelow
    · intro core hcore
      have hhi := hcore.2
      omega
    · intro net blk hnet hblk
      unfold CoreBetween
      omega

theorem run_keptApart (par : Params) (turn : Turn) (ps : List (Int → Int)) :
    ∃ st log, run par turn ps = some (st, log) ∧ KeptApart st log := by
  apply Ticks.run_invariant (P := fun _ => KeptApart) (keptApart_init turn)
  intro p_dynamic _ st log h
  cases hturn : st.dynamic_turn with
  | blk =>
      obtain ⟨st', hints, htick, hspec⟩ := tick_blk par p_dynamic h.inv hturn
      exact ⟨st', hints, htick, h.blkTick hspec⟩
  | net =>
      obtain ⟨st', hints, htick, hspec⟩ := tick_net par p_dynamic h.inv hturn
      exact ⟨st', hints, htick, h.netTick hturn hspec⟩

end Single

/-! ## CROSS and PER -/

namespace Sockets

/-- The cores of the turn's queues on all the sockets, active or not. -/
def anyRange (turn : Turn) (per : Socket → Bounds) (core : Int) : Prop :=
  ∃ s, range turn (per s) core

/-- The block range of a socket and the net range of a socket are
disjoint. -/
theorem anyRange_ne {per : Socket → Bounds} (h : ∀ s, Inv s (per s)) {net blk : Int}
    (hnet : anyRange .net per net) (hblk : anyRange .blk per blk) : net ≠ blk := by
  obtain ⟨s, hlo, hhi⟩ := hnet
  obtain ⟨s', hlo', hhi'⟩ := hblk
  obtain ⟨hstart, hend, hnet, hgap, hblk⟩ := h s
  obtain ⟨hstart', hend', hnet', hgap', hblk'⟩ := h s'
  fin_cases s <;> fin_cases s' <;> simp [initBounds] at * <;> omega

structure KeptApart (st : State) (log : List Hint) : Prop where
  sound : Sound st
  last : ∀ turn, LastIn log turn (anyRange turn st.per)
  always : AlwaysSeparated (· ≠ ·) log

theorem keptApart_init : KeptApart init_simpleproc [] where
  sound := sound_init
  last _ := lastIn_nil ..
  always := alwaysSeparated_nil _

variable {inp : Input} {st : State} {t : Tick} {n : Int}

/-- The other kind's ranges are those from before the tick. -/
theorem FinishSpec.anyRange_eq (h : FinishSpec par inp { st with socket_number := n } t)
    (hne : turn ≠ st.dynamic_turn) : anyRange turn t.state.per = anyRange turn st.per := by
  funext core
  simp only [anyRange, fun s => (h.moved s).range_eq hne]

theorem KeptApart.finish (h : KeptApart st log)
    (hspec : FinishSpec par inp { st with socket_number := n } t) :
    KeptApart t.state (log ++ t.hints) := by
  have hcore : ∀ core, activeRange st.dynamic_turn t.state.per n core →
      anyRange st.dynamic_turn t.state.per core := by
    intro core hactive
    obtain ⟨s, -, hrange⟩ := hactive
    exact ⟨s, hrange⟩
  have hother : ∀ turn, turn ≠ st.dynamic_turn → LastIn log turn (anyRange turn t.state.per) := by
    intro turn hne
    rw [hspec.anyRange_eq hne]
    exact h.last turn
  have hredist := hspec.hints
  constructor
  case sound => exact hspec.sound
  case last =>
    intro turn
    by_cases hturn : turn = st.dynamic_turn
    · rw [hturn]
      exact (hredist.lastIn log).mono hcore
    · exact hredist.lastIn_other hturn (hother turn hturn)
  case always =>
    apply hredist.alwaysSeparated (fun turn => anyRange turn t.state.per) h.always h.last hcore
    · intro turn hne
      exact hspec.anyRange_eq hne
    · intro net blk hnet hblk
      exact anyRange_ne h.sound.inv hnet hblk
    · intro net blk hnet hblk
      exact anyRange_ne hspec.sound.inv hnet hblk

end Sockets

theorem Cross.run_keptApart (par : Params) (is : List Sockets.Input) :
    ∃ st log, Cross.run par is = some (st, log) ∧ Sockets.KeptApart st log := by
  apply Ticks.run_invariant (P := fun _ => Sockets.KeptApart) Sockets.keptApart_init
  intro inp _ st log h
  obtain ⟨t, ht, hspec⟩ := Cross.tick_spec par inp h.sound
  exact ⟨t.state, t.hints, by rw [ht]; rfl, h.finish hspec.rest⟩

theorem Per.run_keptApart (par : Params) (is : List Sockets.Input) :
    ∃ st log, Per.run par is = some (st, log) ∧ Sockets.KeptApart st log := by
  apply Ticks.run_invariant (P := fun _ => Sockets.KeptApart) Sockets.keptApart_init
  intro inp _ st log h
  obtain ⟨t, ht, hspec⟩ := Per.tick_spec par inp h.sound
  exact ⟨t.state, t.hints, by rw [ht]; rfl, h.finish hspec⟩

/-! ## The modes together -/

/-- **Block and net interrupts never share a core.** In SINGLE, CROSS and
PER mode, under any utilisations, any memory past the arrays and any number
of ticks, after every single hint of every tick no block queue was last
hinted to the core that a net queue was last hinted to. In SINGLE mode,
whichever turn is first, there is even a core between the two. -/
theorem irqs_always_separated (par : Params) :
    (∀ turn ps, ∃ st log, Single.run par turn ps = some (st, log) ∧
      AlwaysSeparated Single.CoreBetween log) ∧
    (∀ is, ∃ st log, Cross.run par is = some (st, log) ∧ AlwaysSeparated (· ≠ ·) log) ∧
    (∀ is, ∃ st log, Per.run par is = some (st, log) ∧ AlwaysSeparated (· ≠ ·) log) := by
  constructor
  · intro turn ps
    obtain ⟨st, log, hrun, hapart⟩ := Single.run_keptApart par turn ps
    exact ⟨st, log, hrun, hapart.always⟩
  constructor
  · intro is
    obtain ⟨st, log, hrun, hapart⟩ := Cross.run_keptApart par is
    exact ⟨st, log, hrun, hapart.always⟩
  · intro is
    obtain ⟨st, log, hrun, hapart⟩ := Per.run_keptApart par is
    exact ⟨st, log, hrun, hapart.always⟩

end CorePartitioning.KTimer
