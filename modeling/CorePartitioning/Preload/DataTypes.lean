import Mathlib.Logic.Function.Basic

/-!
# data_types.h, print.h — requests, responses and the message they share

`args_data` (64 bytes) and `retval_data` (32 bytes) are copied in and out of
the same `tmp->message`, so what matters is where their fields lie. Both
records are cut at the offsets of either one:

    offset   0        8             12            16           24         28      32
    args     msgtype  request_type  padding       union ...
    retval   msgtype  request_type  return_value  return_size  thr_errno  padding  (end)

A response therefore replaces the first 32 bytes of the message and leaves
the second half of the union as it was.
-/

namespace CorePartitioning.Preload

/-- `enum REQ_MSG` of print.h. -/
inductive RequestType
  | TYPE_OPEN | TYPE_FOPEN | TYPE_SOCKET | TYPE_BIND | TYPE_LISTEN | TYPE_ACCEPT
  | TYPE_CONNECT | TYPE_SEND | TYPE_RECV | TYPE_SETSOCKOPT | TYPE_READ | TYPE_WRITE
  | TYPE_POLL | TYPE_PPOLL | TYPE_EPOLL_WAIT | TYPE_EPOLL_CREATE | TYPE_EPOLL_CTL
  | TYPE_SOCKETPAIR | TYPE_SELECT | TYPE_SENDTO | TYPE_RECVFROM | TYPE_SENDMSG
  | TYPE_RECVMSG | TYPE_SHUTDOWN | TYPE_GETSOCKNAME | TYPE_GETPEERNAME
  | TYPE_GETSOCKOPT | TYPE_OPENAT | TYPE_OPENAT64 | TYPE_OPEN64 | TYPE_LSEEK
  | TYPE_LSEEK64 | TYPE_STAT | TYPE_STAT64 | TYPE_CLOSE
  deriving DecidableEq, Repr

/-- The value the enumerator has in a message. -/
def RequestType.code (t : RequestType) : BitVec 32 := BitVec.ofNat 32 t.ctorIdx

/-- The requests whose `case` in `syscall_thread` stores into `return_value`. -/
def returnsValue : List RequestType :=
  [.TYPE_SOCKET, .TYPE_BIND, .TYPE_LISTEN, .TYPE_ACCEPT, .TYPE_CONNECT, .TYPE_SETSOCKOPT,
   .TYPE_GETSOCKOPT, .TYPE_POLL, .TYPE_PPOLL, .TYPE_EPOLL_WAIT, .TYPE_EPOLL_CREATE,
   .TYPE_EPOLL_CTL, .TYPE_SOCKETPAIR, .TYPE_GETSOCKNAME, .TYPE_GETPEERNAME, .TYPE_OPEN,
   .TYPE_OPENAT, .TYPE_LSEEK, .TYPE_LSEEK64, .TYPE_STAT, .TYPE_STAT64]

/-- The requests whose `case` stores into `return_size`. -/
def returnsSize : List RequestType :=
  [.TYPE_SEND, .TYPE_RECV, .TYPE_READ, .TYPE_WRITE, .TYPE_SENDTO, .TYPE_RECVFROM,
   .TYPE_SENDMSG, .TYPE_RECVMSG]

/-- `request_type` is one of `ts`. -/
def isOneOf (request_type : BitVec 32) (ts : List RequestType) : Bool :=
  ts.any fun t => t.code == request_type

/-- `args_data`, and with it the contents of `tmp->message`. -/
structure ArgsData where
  msgtype : BitVec 64
  request_type : BitVec 32
  pad12 : BitVec 32
  word16 : BitVec 64
  word24 : BitVec 32
  word28 : BitVec 32
  rest32 : BitVec 256
  deriving DecidableEq, Repr

/-- `retval_data`. -/
structure RetvalData where
  msgtype : BitVec 64
  request_type : BitVec 32
  return_value : BitVec 32
  return_size : BitVec 64
  thr_errno : BitVec 32
  pad28 : BitVec 32
  deriving DecidableEq, Repr

/-- The message after `memset(new->message, 0, sizeof(args_data))`. -/
def ArgsData.zero : ArgsData := ⟨0, 0, 0, 0, 0, 0, 0⟩
def RetvalData.zero : RetvalData := ⟨0, 0, 0, 0, 0, 0⟩

/-- `memcpy(tmp->message, &recv_data, sizeof(retval_data))`. -/
def ArgsData.overwrite (message : ArgsData) (recv_data : RetvalData) : ArgsData :=
  { message with
    msgtype := recv_data.msgtype
    request_type := recv_data.request_type
    pad12 := recv_data.return_value
    word16 := recv_data.return_size
    word24 := recv_data.thr_errno
    word28 := recv_data.pad28 }

/-- `memcpy(recv_data, tmp->message, sizeof(retval_data))`. -/
def ArgsData.retval (message : ArgsData) : RetvalData :=
  ⟨message.msgtype, message.request_type, message.pad12, message.word16, message.word24,
   message.word28⟩

/-- A response is read back as it was written. -/
theorem ArgsData.retval_overwrite (message : ArgsData) (recv_data : RetvalData) :
    (message.overwrite recv_data).retval = recv_data := rfl

/-- What the original system call did: its result, and the `errno` it set
(0 when it set none). -/
structure Outcome where
  result : BitVec 64
  errno : BitVec 32
  deriving DecidableEq, Repr

/-- The `switch` of `syscall_thread` with the two assignments before it.
`recv_data` lives across iterations, so a field that no `case` stores into
keeps the value of an earlier request. -/
def serve (send_data : ArgsData) (recv_data : RetvalData) (o : Outcome) : RetvalData :=
  let r := { recv_data with request_type := send_data.request_type, thr_errno := 0 }
  if isOneOf send_data.request_type returnsSize then
    { r with return_size := o.result, thr_errno := o.errno }
  else if isOneOf send_data.request_type returnsValue then
    -- an `int` field: the result is cut to 32 bits
    { r with return_value := o.result.setWidth 32, thr_errno := o.errno }
  else r

end CorePartitioning.Preload
