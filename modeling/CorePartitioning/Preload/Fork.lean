import CorePartitioning.Preload.Ipc
import CorePartitioning.Preload.TablePointers

/-!
# ld_preload.c — fork

In the child `fork` returns after `fdtable_forked`, which walks through the
table and gives every entry a new thread and new semaphores. The child
starts from a copy of the parent's memory, whatever the parent's other
threads were doing to it, and has only the thread that called `fork`. The
threads it creates run from then on, also while an entry's semaphores still
have the parent's values. `table_rwlock` is copied and left as it is.
-/

namespace CorePartitioning.Preload.Fork

variable {Tid : Type}

/-- What the entries are like in every run: each has an address of its own,
and a descriptor or the -12 of `fdtable_add`. -/
structure Sound (tbl : FdTable) : Prop extends tbl.Addressed where
  thr_fd : ∀ x ∈ tbl.entries, x.thr_fd = -12 ∨ 0 ≤ x.thr_fd.toInt

/-- The parent's memory. The semaphores may have any values. -/
structure Parent (Tid : Type) where
  world : World Tid
  sem : Ptr → Ipc.Sem → Nat
  message : Ptr → ArgsData
  sound : Sound world.table

theorem sound_of_start [DecidableEq Tid] {s₀ s : Process Tid} (hidle : ∀ t, s₀.thread t = none)
    (hstart : Sound s₀.shared.table) (h : Run.Reachable Preload.step Run.free s₀ s) :
    Sound s.shared.table := by
  have hop : ∀ {s : Process Tid} {ann : Tid → Ann} {t e c o k r w'}, Sound s.shared.table →
      s.thread t = some (c, .op o k) → Run.free s (.step t e : Event Tid) → (ann t).pre o →
      Preload.sem t e s.shared o = some (r, w') → True ∧ Sound w'.table := by
    intro s ann t e c o k r w' hsound ht _ hpre ho
    refine ⟨trivial, hsound.toAddressed.change (sem_change ho),
      (sem_change ho).forall hsound.thr_fd (.inl rfl) ?_⟩
    intro tmp f x hw hx hfd
    cases hw with
    | NetorFile | pid | p_thread => exact hfd
    | thr_fd tmp fd => exact .inr hpre.nonneg
  obtain ⟨ann, hsound, -⟩ := Threads.outlined_of_reachable_step ({} : Ann)
    (G := fun (w : World Tid) (_ : Tid → Ann) => Sound w.table) h wrapper_follows hidle hstart
    (fun hsound _ => hsound) (fun hsound _ => hsound) hop
  exact hsound

theorem sound_of_reachable [DecidableEq Tid] {s : Process Tid}
    (h : Run.Reachable Preload.step Run.free fdtable_init s) : Sound s.shared.table := by
  apply sound_of_start (fun _ => rfl) _ h
  exact ⟨⟨List.nodup_nil, fun p hp => by cases hp⟩, fun x hx => by cases hx⟩

/-- A thread that the child has created: not yet at its search, in its loop
on the entry it found, returned without one. -/
inductive Worker
  | created
  | running (sock : Ptr) (t : Ipc.Thread)
  | left

/-- The statements of `fdtable_forked`, the condition of the loop first. -/
inductive Stmt
  | test
  | set_pid
  | pthread_create
  | malloc
  | sem_init (x : Ipc.Sem) (value : Nat)
  | next
  deriving DecidableEq

/-- Entries with the mark -10000 would get another function to run; there are
none. -/
def fdtable_forked : List Stmt :=
  [.test, .set_pid, .pthread_create, .malloc, .sem_init .empty 1, .sem_init .full 0,
    .sem_init .empty2 1, .sem_init .full2 0, .sem_init .mutex 1, .sem_init .mutex2 1, .next]

/-- `tmp` is the list of the entries from `tmp` on. At statement
`fdtable_forked.length` the main thread returns from `fork`. -/
structure Child (Tid : Type) where
  world : World Tid
  sem : Ptr → Ipc.Sem → Nat
  message : Ptr → ArgsData
  tmp : List Ptr
  pc : Nat := 0
  thread : Nat → Option Worker := fun _ => none

/-- The child `pid` when the original `fork` has returned. -/
def fork (par : Parent Tid) (pid : Nat) : Child Tid where
  world := { par.world with pid }
  sem := par.sem
  message := par.message
  tmp := par.world.table.ptrs

namespace Child

/-! ## The main thread -/

def next (c : Child Tid) : Child Tid := { c with pc := c.pc + 1 }

/-- A write to the entry at `tmp`. -/
def modify (c : Child Tid) (f : ThreadInfo → ThreadInfo) : Option (Child Tid) :=
  (c.world.table.modify c.tmp.head? f).map fun table =>
    { c with world := { c.world with table } }

/-- `tmp == tail || tmp->thr_fd == -10` -/
def stops (c : Child Tid) : Bool :=
  match c.tmp with
  | [] => true
  | p :: _ => c.world.table.entries.any fun x => x.ptr == p && x.thr_fd == -10

/-- The main thread executes statement `i`. `e` has the answer of
`pthread_create`, with an id that no other thread of the child has;
`message` is what `malloc` finds in the memory. `sem_init` sets the value and
no more: that it forgets a thread which waits on the semaphore is not
expressed. -/
def exec (c : Child Tid) (e : Env) (message : ArgsData) : Stmt → Option (Child Tid)
  | .test => some (if c.stops then { c with pc := fdtable_forked.length } else c.next)
  | .set_pid => (c.modify fun x => { x with pid := c.world.pid }).map next
  | .pthread_create =>
      if e.created = 0 then
        match c.thread e.thread with
        | some _ => none
        | none =>
            (c.modify fun x => { x with p_thread := e.thread }).map fun c' =>
              { c'.next with thread := Function.update c.thread e.thread (some .created) }
      else some c.next
  | .malloc =>
      c.tmp.head?.map fun p => { c.next with message := Function.update c.message p message }
  | .sem_init x value =>
      c.tmp.head?.map fun p =>
        { c.next with sem := Function.update c.sem p (Function.update (c.sem p) x value) }
  | .next => some { c with tmp := c.tmp.tail, pc := 0 }

/-! ## The created threads -/

/-- `syscall_thread` up to its loop, in the thread `id`. -/
def start (c : Child Tid) (id : Nat) (send_data : ArgsData) (recv_data : RetvalData) : Worker :=
  match fdtable_get_by_tid c.world.table id with
  | none => .left
  | some sock =>
      if sock.pid = c.world.pid then
        .running sock.ptr
          { pc := 0, send_data := { send_data with request_type := -1 }, recv_data
            loop_break := false }
      else .left

/-- The entry `sock` and its thread, without clients. -/
def entry (c : Child Tid) (sock : Ptr) (t : Ipc.Thread) : Ipc.Sys Empty where
  sem := c.sem sock
  message := c.message sock
  client _ := none
  thread := t
  hist := {}

/-- The thread `id` executes its next statement on the entry `sock`. -/
def serve (c : Child Tid) (id : Nat) (sock : Ptr) (t : Ipc.Thread) (o : Outcome) :
    Option (Child Tid) :=
  (Ipc.step (c.entry sock t) (.thread o)).map fun s =>
    { c with
      sem := Function.update c.sem sock s.sem
      message := Function.update c.message sock s.message
      thread := Function.update c.thread id (some (.running sock s.thread)) }

end Child

/-! ## The system -/

inductive Label
  | main (e : Env) (message : ArgsData)
  | start (id : Nat) (send_data : ArgsData) (recv_data : RetvalData)
  | thread (id : Nat) (o : Outcome)

def step (c : Child Tid) : Label → Option (Child Tid)
  | .main e message => do
      let i ← fdtable_forked[c.pc]?
      c.exec e message i
  | .start id send_data recv_data =>
      match c.thread id with
      | some .created =>
          some { c with
            thread := Function.update c.thread id (some (c.start id send_data recv_data)) }
      | _ => none
  | .thread id o =>
      match c.thread id with
      | some (.running sock t) => c.serve id sock t o
      | _ => none

/-! What the steps of the created threads do. -/

section Step

variable {c c' : Child Tid} {id : Nat}

theorem start_of_step {send_data : ArgsData} {recv_data : RetvalData}
    (h : step c (.start id send_data recv_data) = some c') :
    c.thread id = some .created ∧
      c' = { c with
        thread := Function.update c.thread id (some (c.start id send_data recv_data)) } := by
  unfold step at h
  dsimp only at h
  split at h
  · rename_i hid
    exact ⟨hid, (Option.some.inj h).symm⟩
  · cases h

theorem serve_of_step {o : Outcome} (h : step c (.thread id o) = some c') :
    ∃ sock t, c.thread id = some (.running sock t) ∧ c.serve id sock t o = some c' := by
  unfold step at h
  dsimp only at h
  split at h
  · rename_i sock t hid
    exact ⟨sock, t, hid, h⟩
  · cases h

end Step

/-- The runs of the child. -/
abbrev Runs (par : Parent Tid) (pid : Nat) : Child Tid → Prop :=
  Run.Reachable step Run.free (fork par pid)

/-- `fork` is about to return. -/
def Child.Returns (c : Child Tid) : Prop := c.pc = fdtable_forked.length

/-- The semaphores of an entry that nobody has used. -/
def initial : Ipc.Sem → Nat
  | .mutex | .mutex2 | .empty | .empty2 => 1
  | .full | .full2 => 0

/-- What `fdtable_forked` leaves alone. -/
structure Same (tbl tbl' : FdTable) : Prop where
  entries : tbl'.entries.map (fun x => (x.ptr, x.thr_fd, x.NetorFile))
    = tbl.entries.map fun x => (x.ptr, x.thr_fd, x.NetorFile)
  thr_num : tbl'.thr_num = tbl.thr_num

/-- A child in which nothing of the parent's other threads is left. -/
structure Quiescent (par : Parent Tid) (pid : Nat) (c : Child Tid) : Prop where
  lock : c.world.lock.readers = [] ∧ c.world.lock.writer = none
  sem : ∀ x ∈ c.world.table.entries, c.sem x.ptr = initial
  pid : ∀ x ∈ c.world.table.entries, x.pid = pid
  same : Same par.world.table c.world.table

/-- The search loops go past this entry. -/
def passed (x : ThreadInfo) : Bool := !(x.thr_fd == -11 || x.thr_fd == 0)

/-- The entries that a search by thread id can find. -/
def reached (tbl : FdTable) : List Ptr := (tbl.entries.takeWhile passed).map (·.ptr)

/-- The parent at a good moment: `table_rwlock` is free, and no entry that
its new thread can find has a request in its message. -/
structure GoodMoment (par : Parent Tid) : Prop where
  lock : par.world.lock.readers = [] ∧ par.world.lock.writer = none
  full : ∀ p ∈ reached par.world.table, par.sem p .full = 0

end CorePartitioning.Preload.Fork
