import CorePartitioning.Preload.AtRest
import CorePartitioning.Preload.ForkThreads
import CorePartitioning.Preload.Originals

/-!
# ld_preload.c — processes that come from `fork`

A process that forks while nobody has `table_rwlock` leaves its child in
order, if the child gives an entry its new semaphores before the entry's new
thread comes to wait on them (nothing in `fdtable_forked` sees to that): what
it makes of the copied memory is a state from which everything starts as it
does after `fdtable_init`, but with entries in the table. What holds in every
run of the first process holds in every run of its children, and of theirs.
-/

namespace CorePartitioning.Preload

namespace Ipc

variable {Client : Type} {s : Sys Client} {a : Exchange Client}

end Ipc

namespace Fork

variable {Tid : Type} {par : Parent Tid} {pid : Nat} {c : Child Tid}

/-! ## The child as a process -/

/-- The entry at `p` in the child's memory, with its thread. -/
def Child.sys (c : Child Tid) (p : Ptr) (t : Ipc.Thread) : Ipc.Sys Tid where
  sem := c.sem p
  message := c.message p
  client _ := none
  thread := t
  hist := {}

/-- An entry whose thread waits and whom nobody asks. -/
structure Ready (ch : Channel Tid) : Prop where
  alive : ch.life = .created ∨ ch.life = .running
  silent : Machine.Silent ch.exchange
  hist : ch.exchange.hist = {}

end Fork

namespace Machine

variable {Tid : Type} [DecidableEq Tid] {m m' : Machine Tid} {ann ann' : Tid → Ann × Seen}
  {par : Fork.Parent Tid} {pid : Nat} {c : Fork.Child Tid}

/-! ## The moment of the fork -/

/-- What a process starts with: nobody is inside the library, and every entry
has a thread that waits. -/
structure Fresh (m : Machine Tid) : Prop extends Fork.Sound m.world.table where
  log : m.log = []
  free : m.world.lock.readers = [] ∧ m.world.lock.writer = none
  passable : Passable m.world.table
  pid : ∀ x ∈ m.world.table.entries, x.pid = m.world.pid
  thread : ∀ x ∈ m.world.table.entries, x.p_thread = (m.channel x.ptr).thread ∧ x.p_thread ≠ 0
  inj : ∀ x ∈ m.world.table.entries, ∀ y ∈ m.world.table.entries, x.p_thread = y.p_thread →
    x.ptr = y.ptr
  ready : ∀ p ∈ m.world.table.ptrs, Fork.Ready (m.channel p)
  other : ∀ p, p ∉ m.world.table.ptrs → m.channel p = {}

namespace Fresh

omit [DecidableEq Tid] in
theorem silent (h : m.Fresh) (p : Ptr) : Silent (m.channel p).exchange := by
  by_cases hp : p ∈ m.world.table.ptrs
  · exact (h.ready p hp).silent
  · rw [h.other p hp]
    exact ⟨rfl, rfl, rfl, fun _ => rfl⟩

omit [DecidableEq Tid] in
theorem counted (h : m.Fresh) (p : Ptr) : (m.channel p).exchange.Counted := by
  have hs := h.silent p
  have howed : (m.channel p).exchange.owed = 0 := by
    simp [Ipc.Exchange.owed, hs.request, hs.phase, hs.response]
  unfold Ipc.Exchange.Counted
  rw [howed]
  apply Count.having_eq_zero_iff.mpr
  intro t ht
  obtain ⟨k, hk⟩ := ht
  rw [hs.client t] at hk
  cases hk

omit [DecidableEq Tid] in
theorem lock_eq (h : m.Fresh) : m.world.lock = {} := by
  obtain ⟨hreaders, hwriter⟩ := h.free
  cases hlock : m.world.lock with
  | mk readers writer =>
      rw [hlock] at hreaders hwriter
      obtain rfl : readers = [] := hreaders
      obtain rfl : writer = none := hwriter
      rfl

theorem tended (h : m.Fresh) : Tended m fun _ => {} where
  held := by
    rw [h.lock_eq]
    exact held_init
  kept :=
    { nodup := h.nodup
      lt := h.lt
      entry := nofun
      tmp := nofun
      inj := nofun
      writer := nofun }
  unstarted := nofun
  waiting p _ := (h.silent p).phase

end Fresh

end Machine

namespace Fork

variable {Tid : Type} {par : Parent Tid} {pid : Nat} {c : Child Tid}

/-- An entry of the child that nobody has used. -/
def Child.channel (c : Child Tid) (x : ThreadInfo) : Channel Tid where
  exchange := { Ipc.Exchange.init with message := c.message x.ptr }
  thread := x.p_thread
  life :=
    match c.thread x.p_thread with
    | none => .absent
    | some .created => .created
    | some (.running _ _) => .running
    | some .left => .left
  send_data :=
    match c.thread x.p_thread with
    | some (.running _ t) => t.send_data
    | _ => .zero
  recv_data :=
    match c.thread x.p_thread with
    | some (.running _ t) => t.recv_data
    | _ => .zero

end Fork

namespace Machine

variable {Tid : Type} [DecidableEq Tid]

/-! ## Every generation -/

end Machine

end CorePartitioning.Preload
