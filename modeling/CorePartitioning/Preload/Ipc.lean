import CorePartitioning.Lib.Run
import CorePartitioning.Preload.DataTypes

/-!
# ipc.c — the exchange between a table entry's clients and its thread

One table entry: the six semaphores and the `message` of its `thread_info`,
any number of application threads that delegate calls to it, and its single
`syscall_thread`. Each of the four `CPART_*` functions is the list of its
statements; a delegated wrapper runs `CPART_send_to_thread` and then
`CPART_recv_from_thread`, the thread loops over `CPART_recv_from_app`, the
`switch` and `CPART_send_to_app`. A step executes one statement of one
party: a semaphore operation, one `memcpy`, the `switch`, the loop test.

`History` is not part of the program. It records which requests and
responses went where, so that statements about routing can be written down;
no step reads it to decide anything.
-/

namespace CorePartitioning.Preload.Ipc

/-- The semaphores of `thread_info` that ipc.c uses. -/
inductive Sem
  | full | full2 | empty | empty2 | mutex | mutex2
  deriving DecidableEq, Repr

inductive Instr
  | sem_wait (x : Sem)
  | sem_post (x : Sem)
  | memcpy_in
  | memcpy_out
  | switch
  | loop
  deriving DecidableEq, Repr

def CPART_send_to_app : List Instr :=
  [.sem_wait .empty2, .sem_wait .mutex2, .memcpy_in, .sem_post .mutex2, .sem_post .full2]

def CPART_recv_from_app : List Instr :=
  [.sem_wait .full, .sem_wait .mutex, .memcpy_out, .sem_post .mutex, .sem_post .empty]

def CPART_send_to_thread : List Instr :=
  [.sem_wait .empty, .sem_wait .mutex, .memcpy_in, .sem_post .mutex, .sem_post .full]

def CPART_recv_from_thread : List Instr :=
  [.sem_wait .full2, .sem_wait .mutex2, .memcpy_out, .sem_post .mutex2, .sem_post .empty2]

/-- The exchange of a delegated wrapper: statements 0 to 9. -/
def exchange : List Instr := CPART_send_to_thread ++ CPART_recv_from_thread

/-- One iteration of `syscall_thread`: statements 0 to 11. -/
def syscall_thread : List Instr :=
  CPART_recv_from_app ++ [.switch] ++ CPART_send_to_app ++ [.loop]

/-- A delegated call: its number, for the history, and its request. -/
structure Call where
  id : Nat
  args : ArgsData
  deriving DecidableEq, Repr

/-- An application thread inside a delegated call, about to execute
statement `pc` of `exchange`. -/
structure Running where
  pc : Nat
  call : Call
  deriving DecidableEq, Repr

/-- The entry's `syscall_thread`, about to execute statement `pc`. -/
structure Thread where
  pc : Nat
  send_data : ArgsData
  recv_data : RetvalData
  loop_break : Bool
  deriving DecidableEq, Repr

/-- What was exchanged. `holds` is the call whose request the message holds
untouched, `serving` the call the thread's current request came from. -/
structure History where
  nextId : Nat := 0
  holds : Option Nat := none
  serving : Option Nat := none
  sent : List ArgsData := []
  delivered : List ArgsData := []
  produced : List (Option Nat × RetvalData) := []
  obtained : List (Nat × RetvalData) := []
  deriving DecidableEq, Repr

namespace History

def start (h : History) : History := { h with nextId := h.nextId + 1 }

/-- `memcpy` of a request into the message. -/
def request (h : History) (k : Call) : History :=
  { h with holds := some k.id, sent := h.sent ++ [k.args] }

/-- `memcpy` of the message into the thread's `send_data`. -/
def deliver (h : History) (message : ArgsData) : History :=
  { h with serving := h.holds, delivered := h.delivered ++ [message] }

def produce (h : History) (r : RetvalData) : History :=
  { h with produced := h.produced ++ [(h.serving, r)] }

/-- `memcpy` of a response into the message. -/
def respond (h : History) : History := { h with holds := none }

/-- `memcpy` of the message into the caller's `recv_data`. -/
def receive (h : History) (k : Call) (r : RetvalData) : History :=
  { h with obtained := h.obtained ++ [(k.id, r)] }

end History

/-- One entry of the table with everybody who uses it. -/
structure Sys (Client : Type) where
  sem : Sem → Nat
  message : ArgsData
  client : Client → Option Running
  thread : Thread
  hist : History

/-- A step: a wrapper is entered, a client or the thread executes its next
statement. `o` is what the original call does, should that be the `switch`. -/
inductive Label (Client : Type)
  | call (c : Client) (args : ArgsData)
  | client (c : Client)
  | thread (o : Outcome)
  deriving DecidableEq, Repr

/-- The entry as `fdtable_add` initialises it and the thread before its first
iteration. Its locals are uninitialised but for `request_type = -1`. -/
def newEntry {Client : Type} (send_data : ArgsData) (recv_data : RetvalData) :
    Sys Client where
  sem
    | .mutex | .mutex2 | .empty | .empty2 => 1
    | .full | .full2 => 0
  message := .zero
  client _ := none
  thread :=
    { pc := 0, send_data := { send_data with request_type := -1 }, recv_data
      loop_break := false }
  hist := {}

/-- `sem_wait` when it does not block, `sem_post` always. -/
def down (sem : Sem → Nat) (x : Sem) : Sem → Nat := Function.update sem x (sem x - 1)
def up (sem : Sem → Nat) (x : Sem) : Sem → Nat := Function.update sem x (sem x + 1)

/-- The next statement of the exchange, or back in the application. -/
def Running.next (r : Running) : Option Running :=
  if r.pc + 1 < exchange.length then some { r with pc := r.pc + 1 } else none

/-- The end of an iteration: `loop_break`, then the condition of the `while`.
`syscall_thread.length` is the thread that has returned. -/
def Thread.loop (t : Thread) : Thread :=
  let closing := isOneOf t.send_data.request_type [.TYPE_CLOSE, .TYPE_SHUTDOWN]
  { t with pc := if t.loop_break || closing then syscall_thread.length else 0 }

/-- The `switch`. Only `TYPE_OPENAT` can end the loop early. -/
def Thread.switch (t : Thread) (o : Outcome) : Thread :=
  let r := serve t.send_data t.recv_data o
  let failed := isOneOf t.send_data.request_type [.TYPE_OPENAT] && r.return_value == -1
  { t with pc := t.pc + 1, recv_data := r, loop_break := t.loop_break || failed }

variable {Client : Type} [DecidableEq Client]

/-- Client `c` executes statement `i`. -/
def clientExec (s : Sys Client) (c : Client) (r : Running) : Instr → Option (Sys Client)
  | .sem_wait x =>
      if 0 < s.sem x then
        some { s with client := Function.update s.client c r.next, sem := down s.sem x }
      else none
  | .sem_post x =>
      some { s with client := Function.update s.client c r.next, sem := up s.sem x }
  | .memcpy_in =>
      some { s with
        client := Function.update s.client c r.next
        message := r.call.args
        hist := s.hist.request r.call }
  | .memcpy_out =>
      some { s with
        client := Function.update s.client c r.next
        hist := s.hist.receive r.call s.message.retval }
  | .switch | .loop => none

/-- The thread executes statement `i`. -/
def threadExec (s : Sys Client) (o : Outcome) : Instr → Option (Sys Client)
  | .sem_wait x =>
      if 0 < s.sem x then
        some { s with thread := { s.thread with pc := s.thread.pc + 1 }, sem := down s.sem x }
      else none
  | .sem_post x =>
      some { s with thread := { s.thread with pc := s.thread.pc + 1 }, sem := up s.sem x }
  | .memcpy_in =>
      some { s with
        thread := { s.thread with pc := s.thread.pc + 1 }
        message := s.message.overwrite s.thread.recv_data
        hist := s.hist.respond }
  | .memcpy_out =>
      some { s with
        thread := { s.thread with pc := s.thread.pc + 1, send_data := s.message }
        hist := s.hist.deliver s.message }
  | .switch =>
      some { s with
        thread := s.thread.switch o
        hist := s.hist.produce (serve s.thread.send_data s.thread.recv_data o) }
  | .loop => some { s with thread := s.thread.loop }

/-- One step of the entry. -/
def step (s : Sys Client) : Label Client → Option (Sys Client)
  | .call c args =>
      match s.client c with
      | some _ => none
      | none =>
          some { s with
            client := Function.update s.client c (some ⟨0, ⟨s.hist.nextId, args⟩⟩)
            hist := s.hist.start }
  | .client c => do
      let r ← s.client c
      let i ← exchange[r.pc]?
      clientExec s c r i
  | .thread o => do
      let i ← syscall_thread[s.thread.pc]?
      threadExec s o i

/-! What each kind of step does. -/

section Step

variable {s s' : Sys Client}

theorem step_call_iff {c : Client} {args : ArgsData} :
    step s (.call c args) = some s' ↔ s.client c = none ∧
      { s with
        client := Function.update s.client c (some ⟨0, ⟨s.hist.nextId, args⟩⟩)
        hist := s.hist.start } = s' := by
  unfold step
  cases hc : s.client c with
  | some r => simp [hc]
  | none => simp [hc]

theorem step_client_iff {c : Client} :
    step s (.client c) = some s' ↔ ∃ r, s.client c = some r ∧
      ∃ i, exchange[r.pc]? = some i ∧ clientExec s c r i = some s' := by
  simp only [step, Option.bind_eq_bind, Option.bind_eq_some_iff]

theorem step_thread_iff {o : Outcome} :
    step s (.thread o) = some s' ↔
      ∃ i, syscall_thread[s.thread.pc]? = some i ∧ threadExec s o i = some s' := by
  simp only [step, Option.bind_eq_bind, Option.bind_eq_some_iff]

end Step

end CorePartitioning.Preload.Ipc
