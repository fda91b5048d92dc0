import CorePartitioning.Preload.Dispatch
import CorePartitioning.Preload.IpcRefines
import CorePartitioning.Preload.LockModes
import CorePartitioning.Preload.TableChange

/-!
# ld_preload.c — the process with its system call threads

`sem` leaves to the environment what an entry's thread answers. Here the
threads are part of the state: every entry has an exchange, at the level of
its copies, and a `syscall_thread` that looks itself up in the table,
serves and leaves. `CPART_send_to_thread` waits until the slot is free,
`CPART_recv_from_thread` until there is a response, `pthread_join` until
the thread has left. The thread's search, which it makes without the lock, is
one step as every operation on the table is, and no `sem_wait` is interrupted
by a signal.

`log` is not part of the program: it records the calls as the application
makes them and sees them return, and the original calls as they are
performed. No step reads it.
-/

namespace CorePartitioning.Preload

/-! ## The exchange, function by function -/

namespace Ipc.Exchange

variable {Client : Type} [DecidableEq Client]

def send_to_thread (a : Exchange Client) (c : Client) (args : ArgsData) :
    Option (Exchange Client) :=
  if a.client c = .idle ∧ a.request = false then
    let k : Call := ⟨a.hist.nextId, args⟩
    some { a with
      message := args
      client := Function.update a.client c (.pending k)
      request := true
      hist := a.hist.start.request k }
  else none

def recv_from_thread (a : Exchange Client) (c : Client) :
    Option (RetvalData × Exchange Client) :=
  match a.client c with
  | .pending k =>
      if a.response then
        some (a.message.retval, { a with
          client := Function.update a.client c .idle
          response := false
          hist := a.hist.receive k a.message.retval })
      else none
  | _ => none

def recv_from_app (a : Exchange Client) : Option (ArgsData × Exchange Client) :=
  if a.phase = .waiting ∧ a.request = true then
    some (a.message,
      { a with phase := .serving, request := false, hist := a.hist.deliver a.message })
  else none

/-- The `switch`, with the response `r`. -/
def produce (a : Exchange Client) (r : RetvalData) : Option (Exchange Client) :=
  if a.phase = .serving then some { a with phase := .replying r, hist := a.hist.produce r }
  else none

def send_to_app (a : Exchange Client) : Option (Exchange Client) :=
  match a.phase with
  | .replying r =>
      if a.response then none
      else
        some { a with
          message := a.message.overwrite r
          phase := .waiting
          response := true
          hist := a.hist.respond }
  | _ => none

end Ipc.Exchange

/-! ## The state -/

/-- An entry's thread: not created, not yet at its loop, in it, returned. -/
inductive Life
  | absent | created | running | left
  deriving DecidableEq

/-- What an entry shares with its thread, and the thread's own variables.
`thread` is what `pthread_self` returns there. -/
structure Channel (Tid : Type) where
  exchange : Ipc.Exchange Tid := .init
  life : Life := .absent
  thread : Nat := 0
  send_data : ArgsData := .zero
  recv_data : RetvalData := .zero

/-- After the response the thread leaves its loop. -/
def Channel.ends {Tid : Type} (ch : Channel Tid) : Bool :=
  isOneOf ch.send_data.request_type [.TYPE_CLOSE, .TYPE_SHUTDOWN] ||
    isOneOf ch.send_data.request_type [.TYPE_OPENAT] && ch.recv_data.return_value == -1

/-- An original call is performed by an application thread or by an entry's
thread. -/
inductive LogEntry (Tid : Type)
  | issued (t : Tid) (c : Syscall)
  | performed (t : Option Tid) (c : Syscall) (w : Word)
  | returned (t : Tid) (c : Syscall) (a : Word)

structure Machine (Tid : Type) where
  world : World Tid := {}
  channel : Ptr → Channel Tid := fun _ => {}
  log : List (LogEntry Tid) := []

variable {Tid : Type}

def Machine.write (m : Machine Tid) (x : LogEntry Tid) : Machine Tid :=
  { m with log := m.log ++ [x] }

def Machine.set (m : Machine Tid) (p : Ptr) (ch : Channel Tid) : Machine Tid :=
  { m with channel := Function.update m.channel p ch }

/-! ## The application threads -/

/-- What an operation does outside `World`. -/
def Machine.after (m : Machine Tid) (t : Tid) (e : Env) : (o : Op) → o.Res → Machine Tid
  | .fdtable_add, some p => m.set p {}
  | .pthread_create (some p), r =>
      if r = 0 then m.set p { m.channel p with life := .created, thread := e.thread } else m
  | .original c, w => m.write (.performed (some t) c w)
  | _, _ => m

variable [DecidableEq Tid]

/-- Thread `t` executes an operation. -/
def Machine.sem (t : Tid) (e : Env) (m : Machine Tid) : (o : Op) → Option (o.Res × Machine Tid)
  | .CPART_send_to_thread args p =>
      ((m.channel p).exchange.send_to_thread t args).map fun a =>
        ((), m.set p { m.channel p with exchange := a })
  | .CPART_recv_from_thread p =>
      ((m.channel p).exchange.recv_from_thread t).map fun x =>
        (x.1, m.set p { m.channel p with exchange := x.2 })
  | .pthread_join p => if (m.channel p).life = .left then some ((), m) else none
  | o => (Preload.sem t e m.world o).map fun x => (x.1, { m.after t e o x.1 with world := x.2 })

/-! ## The system call threads -/

/-- A step of the thread of the entry at `p`. Its variables are
uninitialised when it starts. -/
inductive ThreadStep
  | start (p : Ptr) (send_data : ArgsData) (recv_data : RetvalData)
  | recv_from_app (p : Ptr)
  | switch (p : Ptr) (o : Outcome)
  | send_to_app (p : Ptr)

/-- The search for the own entry. Two threads never have the same id, so
another entry is not found. -/
def Machine.start (m : Machine Tid) (p : Ptr) (send_data : ArgsData) (recv_data : RetvalData) :
    Option (Machine Tid) :=
  let ch := m.channel p
  match fdtable_get_by_tid m.world.table ch.thread with
  | none => some (m.set p { ch with life := .left })
  | some sock =>
      if sock.ptr = p then
        some (m.set p { ch with
          life := if sock.pid = m.world.pid then .running else .left
          send_data := { send_data with request_type := -1 }
          recv_data := recv_data })
      else none

/-- The original call of the `switch`, if its `case` makes one. -/
def Machine.perform (m : Machine Tid) (send_data : ArgsData) (w : Word) : Machine Tid :=
  match dispatch send_data with
  | some c => m.write (.performed none c w)
  | none => m

/-- One step of a `syscall_thread`. `o` is what the original call does. -/
def Machine.syscall_thread (m : Machine Tid) : ThreadStep → Option (Machine Tid)
  | .start p send_data recv_data =>
      if (m.channel p).life = .created then m.start p send_data recv_data else none
  | .recv_from_app p =>
      let ch := m.channel p
      if ch.life = .running then
        ch.exchange.recv_from_app.map fun x =>
          m.set p { ch with exchange := x.2, send_data := x.1 }
      else none
  | .switch p o =>
      let ch := m.channel p
      let r := serve ch.send_data ch.recv_data o
      if ch.life = .running then
        (ch.exchange.produce r).map fun a =>
          (m.set p { ch with exchange := a, recv_data := r }).perform ch.send_data o.result
      else none
  | .send_to_app p =>
      let ch := m.channel p
      if ch.life = .running then
        ch.exchange.send_to_app.map fun a =>
          m.set p { ch with exchange := a, life := if ch.ends then .left else .running }
      else none

/-! ## The system -/

namespace Machine

abbrev State (Tid : Type) := Threads.State Tid Syscall Op Op.Res (Machine Tid) Word

abbrev Label (Tid : Type) := Threads.Label Tid Syscall Env ⊕ ThreadStep

def enter (t : Tid) (c : Syscall) (m : Machine Tid) : Machine Tid := m.write (.issued t c)

def leave (t : Tid) (c : Syscall) (a : Word) (m : Machine Tid) : Machine Tid :=
  m.write (.returned t c a)

def step : State Tid → Label Tid → Option (State Tid) :=
  Threads.openStep wrapper sem enter leave fun b m => m.syscall_thread b

/-- The thread's next operation. -/
def nextOp : Option (Syscall × Wrapper Word) → Option Op
  | some (_, .op o _) => some o
  | _ => none

/-- After `fdtable_init`, before any call. -/
def init : State Tid := { shared := {}, thread := fun _ => none }

end Machine

end CorePartitioning.Preload
