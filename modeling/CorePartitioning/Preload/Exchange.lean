import CorePartitioning.Lib.Slot
import CorePartitioning.Preload.Ipc

/-!
# The exchange at the level of its five copies

What the semaphore code implements, without the semaphores: a client writes
its request into the message, the thread takes it out, produces a response
and writes it into the same message, a client takes that out. Two flags say
whether the message slot is loaded for the thread (`request`) and for the
clients (`response`); nothing ties a flag to a client, and nothing keeps
the two from being set together, because the code's two semaphore triples
are independent.

`Sim` relates the code to this system: the flags are the `loaded` of two
one-slot buffers, `empty`/`full` and `full2`/`empty2`.
-/

namespace CorePartitioning.Preload.Ipc

open Slot (Holder Place Represents)

/-- Where a client is in its call. -/
inductive Stage
  | idle
  | calling (k : Call)   -- request not written yet
  | pending (k : Call)   -- request written, response not read yet
  | done
  deriving DecidableEq

/-- Where the thread is in its iteration. -/
inductive Phase
  | waiting
  | serving
  | replying (r : RetvalData)
  deriving DecidableEq

structure Exchange (Client : Type) where
  message : ArgsData
  client : Client → Stage
  phase : Phase
  request : Bool
  response : Bool
  hist : History

inductive Action (Client : Type)
  | start (c : Client) (args : ArgsData)
  | request (c : Client)
  | deliver
  | produce (r : RetvalData)
  | respond
  | receive (c : Client)
  | finish (c : Client)

variable {Client : Type} [DecidableEq Client]

/-- The steps of the exchange. -/
inductive Exchange.Step (a : Exchange Client) : Action Client → Exchange Client → Prop
  | start {c : Client} (args : ArgsData) (hc : a.client c = .idle) :
      Step a (.start c args)
        { a with
          client := Function.update a.client c (.calling ⟨a.hist.nextId, args⟩)
          hist := a.hist.start }
  | request {c : Client} {k : Call} (hc : a.client c = .calling k) (hr : a.request = false) :
      Step a (.request c)
        { a with
          message := k.args
          client := Function.update a.client c (.pending k)
          request := true
          hist := a.hist.request k }
  | deliver (hp : a.phase = .waiting) (hr : a.request = true) :
      Step a .deliver
        { a with phase := .serving, request := false, hist := a.hist.deliver a.message }
  | produce (r : RetvalData) (hp : a.phase = .serving) :
      Step a (.produce r) { a with phase := .replying r, hist := a.hist.produce r }
  | respond {r : RetvalData} (hp : a.phase = .replying r) (hr : a.response = false) :
      Step a .respond
        { a with
          message := a.message.overwrite r
          phase := .waiting
          response := true
          hist := a.hist.respond }
  | receive {c : Client} {k : Call} (hc : a.client c = .pending k) (hr : a.response = true) :
      Step a (.receive c)
        { a with
          client := Function.update a.client c .done
          response := false
          hist := a.hist.receive k a.message.retval }
  | finish {c : Client} (hc : a.client c = .done) :
      Step a (.finish c) { a with client := Function.update a.client c .idle }

/-! ## The places of the parties -/

/-- A client's stage. Statement 2 writes the request, 7 reads the response. -/
def stage : Option Running → Stage
  | none => .idle
  | some r =>
      if r.pc ≤ 2 then .calling r.call else if r.pc ≤ 7 then .pending r.call else .done

/-- The thread's phase. Statement 2 reads the request, 5 is the `switch`, 8
writes the response. -/
def phase (t : Thread) : Phase :=
  if 3 ≤ t.pc ∧ t.pc ≤ 5 then .serving
  else if 6 ≤ t.pc ∧ t.pc ≤ 8 then .replying t.recv_data
  else .waiting

/-- Between the wait at statement `n`, the copy at `n + 2` and the post at
`n + 4`: the shape all four functions share. -/
def placeFrom (n pc : Nat) : Place :=
  if pc = n + 1 ∨ pc = n + 2 then .before
  else if pc = n + 3 ∨ pc = n + 4 then .after
  else .away

/-- A client's place in the function that starts at statement `m`. -/
def clientPlace (m : Nat) (r : Option Running) : Place :=
  r.elim .away fun r => placeFrom m r.pc

/-- The slot whose clients wait on `e` at statement `m` and post `f`, and
whose thread waits on `f` at statement `n` and posts `e`. -/
def SlotIs (e f : Sem) (m n : Nat) (sem : Sem → Nat) (client : Client → Option Running)
    (pc : Nat) (loaded : Bool) : Prop :=
  ∃ h : Holder Client Unit,
    Represents h (sem e) (sem f) (clientPlace m ∘ client) (fun _ => placeFrom n pc) ∧
      h.loaded = loaded

/-- **The simulation relation.** In the second slot the clients wait on
`full2` and post `empty2`: read as producers, what they fill the slot with
is the room for the next response, so `loaded` is the absence of one. -/
structure Sim (s : Sys Client) (a : Exchange Client) : Prop where
  message : a.message = s.message
  hist : a.hist = s.hist
  client : a.client = stage ∘ s.client
  phase : a.phase = phase s.thread
  request : SlotIs .empty .full 0 0 s.sem s.client s.thread.pc a.request
  response : SlotIs .full2 .empty2 5 6 s.sem s.client s.thread.pc (!a.response)

end CorePartitioning.Preload.Ipc
