import CorePartitioning.Lib.Prog
import CorePartitioning.Lib.RwLock
import CorePartitioning.Preload.FdTable

/-!
# ld_preload.c — the wrappers

Every wrapper that takes `table_rwlock`, as a program over the operations
it executes: the lock, the table, the exchange with an entry's thread, the
thread's `errno` and the original function. The build has `__FILEIO__` and
not `__POOL__`; logging and `set_cpu_app` are left out.

Eighteen of the wrappers have one shape, `delegated`; they differ in the
descriptor they look up, in what they do to `errno` and in the field of the
response they return.
-/

namespace CorePartitioning.Preload

/-- The operations of a wrapper. A pointer that may be NULL is an option. -/
inductive Op
  | errno
  | set_errno (e : CInt)
  | pthread_rwlock (x : RwLock.Op)
  | fdtable_get_by_fd_all (fd : CInt)
  | fdtable_get_by_fd (fd : CInt) (NetorFile : Bool)
  | fdtable_getnumber
  | fdtable_add
  | fdtable_delete (fd : CInt)
  | set_NetorFile (tmp : Option Ptr) (NetorFile : Bool)
  | set_pid (tmp : Option Ptr)
  | set_thr_fd (tmp : Option Ptr) (fd : CInt)
  | pthread_create (tmp : Option Ptr)
  | pthread_join (tmp : Ptr)
  | CPART_send_to_thread (send_data : ArgsData) (tmp : Ptr)
  | CPART_recv_from_thread (tmp : Ptr)
  | original (c : Syscall)

@[reducible] def Op.Res : Op → Type
  | .errno => CInt
  | .fdtable_get_by_fd_all _ | .fdtable_get_by_fd _ _ => Option Ptr
  | .fdtable_getnumber => Int
  | .fdtable_add => Option Ptr
  | .fdtable_delete _ => CInt
  | .pthread_create _ => CInt
  | .CPART_recv_from_thread _ => RetvalData
  | .original _ => Word
  | .set_errno _ | .pthread_rwlock _ | .set_NetorFile _ _ | .set_pid _ | .set_thr_fd _ _
  | .pthread_join _ | .CPART_send_to_thread _ _ => Unit

abbrev Wrapper := Prog Op Op.Res

abbrev op (o : Op) : Wrapper o.Res := .call o
abbrev pthread_rwlock_rdlock : Wrapper Unit := op (.pthread_rwlock .rdlock)
abbrev pthread_rwlock_wrlock : Wrapper Unit := op (.pthread_rwlock .wrlock)
abbrev pthread_rwlock_unlock : Wrapper Unit := op (.pthread_rwlock .unlock)

/-- A result of an `int` function, as the caller sees it. -/
def intResult (r : Word) : Word := (r.setWidth 32).signExtend 64

/-! ## Delegated calls -/

/-- What distinguishes one delegated wrapper from another. -/
structure Delegation where
  call : Syscall
  /-- the lookup -/
  fd : CInt
  NetorFile : Bool
  /-- `errno` before the original call when there is no entry; `none` leaves it -/
  missErrno : CInt → Option CInt
  /-- the original's result in the wrapper's return type -/
  missResult : Word → Word
  /-- `errno` and the result from the response and the saved `errno` -/
  replyErrno : RetvalData → CInt → CInt
  replyResult : RetvalData → Word

def delegated (d : Delegation) : Wrapper Word := do
  let func_errno ← op .errno
  pthread_rwlock_rdlock
  let tmp ← op (.fdtable_get_by_fd d.fd d.NetorFile)
  match tmp with
  | none => do
      pthread_rwlock_unlock
      match d.missErrno func_errno with
      | some e => do
          op (.set_errno e)
          let r ← op (.original d.call)
          pure (d.missResult r)
      | none => do
          let r ← op (.original d.call)
          pure (d.missResult r)
  | some tmp => do
      op (.CPART_send_to_thread (send_data d.call) tmp)
      let recv_data ← op (.CPART_recv_from_thread tmp)
      pthread_rwlock_unlock
      op (.set_errno (d.replyErrno recv_data func_errno))
      pure (d.replyResult recv_data)

/-- `errno = recv_data_p->thr_errno` -/
def thrErrno (r : RetvalData) (_ : CInt) : CInt := r.thr_errno
/-- `if (recv_data_p->thr_errno != 0) errno = recv_data_p->thr_errno; else errno = func_errno` -/
def thrErrnoOr (r : RetvalData) (func_errno : CInt) : CInt :=
  if r.thr_errno ≠ 0 then r.thr_errno else func_errno
def returnValue (r : RetvalData) : Word := r.return_value.signExtend 64
def returnSize (r : RetvalData) : Word := r.return_size

def lseek (fd : CInt) (offset : Word) (whence : CInt) : Wrapper Word :=
  delegated ⟨.lseek fd offset whence, fd, true, some, id, thrErrnoOr, returnValue⟩

def read (fildes : CInt) (buf nbyte : Word) : Wrapper Word :=
  delegated ⟨.read fildes buf nbyte, fildes, true, some, id, thrErrnoOr, returnSize⟩

/-- `write` drops the thread's `errno`. -/
def write (fildes : CInt) (buf nbyte : Word) : Wrapper Word :=
  delegated ⟨.write fildes buf nbyte, fildes, true, some, id, fun _ func_errno => func_errno,
    returnSize⟩

def bind (socket : CInt) (address : Word) (address_len : CInt) : Wrapper Word :=
  delegated ⟨.bind socket address address_len, socket, false, some, intResult, thrErrno,
    returnValue⟩

def listen (sockfd backlog : CInt) : Wrapper Word :=
  delegated ⟨.listen sockfd backlog, sockfd, false, some, intResult, thrErrno, returnValue⟩

def connect (socket : CInt) (address : Word) (address_len : CInt) : Wrapper Word :=
  delegated ⟨.connect socket address address_len, socket, false, some, intResult, thrErrno,
    returnValue⟩

def send (socket : CInt) (buffer length : Word) (flags : CInt) : Wrapper Word :=
  delegated ⟨.send socket buffer length flags, socket, false, some, id, thrErrno, returnSize⟩

def recv (socket : CInt) (buf length : Word) (flags : CInt) : Wrapper Word :=
  delegated ⟨.recv socket buf length flags, socket, false, some, id, thrErrno, returnSize⟩

def setsockopt (socket level option_name : CInt) (option_value : Word) (option_len : CInt) :
    Wrapper Word :=
  delegated ⟨.setsockopt socket level option_name option_value option_len, socket, false, some,
    intResult, thrErrno, returnValue⟩

def getsockopt (socket level option_name : CInt) (buf addrlen : Word) : Wrapper Word :=
  delegated ⟨.getsockopt socket level option_name buf addrlen, socket, false, some, intResult,
    thrErrno, returnValue⟩

def epoll_ctl (epfd op fd : CInt) (events : Word) : Wrapper Word :=
  delegated ⟨.epoll_ctl epfd op fd events, epfd, false, some, intResult, thrErrnoOr,
    returnValue⟩

/-- The entry is looked up by the LAST descriptor, `ufds[nfds - 1]` in
unsigned arithmetic. -/
def poll (ufds : Word) (fds : Nat → CInt) (nfds timeout : CInt) : Wrapper Word :=
  delegated ⟨.poll ufds fds nfds timeout, fds (nfds - 1).toNat, false, some, intResult,
    thrErrnoOr, returnValue⟩

def sendto (socket : CInt) (buffer length : Word) (flags : CInt) (address : Word)
    (address_len : CInt) : Wrapper Word :=
  delegated ⟨.sendto socket buffer length flags address address_len, socket, false, some, id,
    thrErrno, returnSize⟩

/-- `sendmsg` clears `errno` when there is no entry. -/
def sendmsg (socket : CInt) (msg : Word) (flags : CInt) : Wrapper Word :=
  delegated ⟨.sendmsg socket msg flags, socket, false, fun _ => some 0, id, thrErrno, returnSize⟩

def recvfrom (socket : CInt) (buf length : Word) (flags : CInt) (addr addrlen : Word) :
    Wrapper Word :=
  delegated ⟨.recvfrom socket buf length flags addr addrlen, socket, false, some, id,
    thrErrnoOr, returnSize⟩

def recvmsg (socket : CInt) (msg_rcv : Word) (flags : CInt) : Wrapper Word :=
  delegated ⟨.recvmsg socket msg_rcv flags, socket, false, some, id, thrErrno, returnSize⟩

def getsockname (socket : CInt) (addr addrlen : Word) : Wrapper Word :=
  delegated ⟨.getsockname socket addr addrlen, socket, false, some, intResult, thrErrno,
    returnValue⟩

/-- `getpeername` leaves `errno` alone when there is no entry. -/
def getpeername (socket : CInt) (addr addrlen : Word) : Wrapper Word :=
  delegated ⟨.getpeername socket addr addrlen, socket, false, fun _ => none, intResult,
    thrErrnoOr, returnValue⟩

/-! ## Calls that end an entry -/

/-- The exchange that makes the entry's thread leave its loop, its join and
the removal of the entry, with the lock held for writing. -/
def retire (c : Syscall) (fd : CInt) (tmp : Ptr) : Wrapper Word := do
  op (.CPART_send_to_thread (send_data c) tmp)
  let _ ← op (.CPART_recv_from_thread tmp)
  op (.pthread_join tmp)
  let _ ← op (.fdtable_delete fd)
  pthread_rwlock_unlock
  let r ← op (.original c)
  pure (intResult r)

def close (fildes : CInt) : Wrapper Word := do
  let func_errno ← op .errno
  pthread_rwlock_wrlock
  let tmp ← op (.fdtable_get_by_fd_all fildes)
  match tmp with
  | none => do
      pthread_rwlock_unlock
      op (.set_errno func_errno)
      let r ← op (.original (.close fildes))
      pure (intResult r)
  | some tmp => retire (.close fildes) fildes tmp

def shutdown (socket flags : CInt) : Wrapper Word := do
  pthread_rwlock_wrlock
  let tmp ← op (.fdtable_get_by_fd_all socket)
  match tmp with
  | none => do
      pthread_rwlock_unlock
      let r ← op (.original (.shutdown socket flags))
      pure (intResult r)
  | some tmp => retire (.shutdown socket flags) socket tmp

/-! ## Calls that make an entry -/

/-- The way out of these wrappers: `errno` is restored, the descriptor returned. -/
def finish (func_errno ret : CInt) : Wrapper Word := do
  op (.set_errno func_errno)
  pure (ret.signExtend 64)

/-- The original call with `errno = 0` before it, and the `errno` to restore:
the one it set, else the one from before. -/
def withErrno (c : Syscall) : Wrapper (CInt × CInt) := do
  let func_errno ← op .errno
  op (.set_errno 0)
  let r ← op (.original c)
  let e ← op .errno
  if e ≠ 0 then pure (r.setWidth 32, e)
  else do
    op (.set_errno func_errno)
    pure (r.setWidth 32, func_errno)

def socket (domain type protocol : CInt) : Wrapper Word := do
  let r ← op (.original (.socket domain type protocol))
  let ret : CInt := r.setWidth 32
  let func_errno ← op .errno
  pthread_rwlock_wrlock
  let found ← op (.fdtable_get_by_fd_all ret)
  if found.isSome ∨ ret.toInt < 0 then do
    pthread_rwlock_unlock
    finish func_errno ret
  else do
    let num ← op .fdtable_getnumber
    if num < MAXTHREAD then do
      let tmp ← op .fdtable_add
      -- the thread is created before the entry's fields are written
      let _ ← op (.pthread_create tmp)
      op (.set_NetorFile tmp false)
      op (.set_pid tmp)
      op (.set_thr_fd tmp ret)
      pthread_rwlock_unlock
      finish func_errno ret
    else do
      pthread_rwlock_unlock
      finish func_errno ret

/-- The common part of `open` and `openat`. -/
def registerFile (ret func_errno : CInt) : Wrapper Word := do
  let tmp ← op .fdtable_add
  op (.set_NetorFile tmp true)
  op (.set_pid tmp)
  op (.set_thr_fd tmp ret)
  let _ ← op (.pthread_create tmp)
  pthread_rwlock_unlock
  finish func_errno ret

def open_ (path : Word) (flags mode : CInt) : Wrapper Word := do
  let (ret, func_errno) ← withErrno (.open path flags mode)
  if ret.toInt < 3 then pure (ret.signExtend 64)
  else do
    pthread_rwlock_wrlock
    let found ← op (.fdtable_get_by_fd_all ret)
    if found.isSome ∨ ret.toInt < 0 then do
      pthread_rwlock_unlock
      finish func_errno ret
    else do
      let num ← op .fdtable_getnumber
      if num < MAXTHREAD then registerFile ret func_errno
      else do
        pthread_rwlock_unlock
        finish func_errno ret

def openat (dirfd : CInt) (pathname : Word) (flags mode : CInt) : Wrapper Word := do
  let (ret, _) ← withErrno (.openat dirfd pathname flags mode)
  let func_errno ← op .errno
  pthread_rwlock_wrlock
  let found ← op (.fdtable_get_by_fd_all ret)
  if found.isSome ∨ ret.toInt < 0 then do
    pthread_rwlock_unlock
    finish func_errno ret
  else if 0 < ret.toInt then do
    let num ← op .fdtable_getnumber
    if num < MAXTHREAD then registerFile ret func_errno
    else do
      pthread_rwlock_unlock
      finish func_errno ret
  else do
    pthread_rwlock_unlock
    finish func_errno ret

/-- The second half of `epoll_create`: a descriptor without an entry. -/
def registerEpoll (ret func_errno : CInt) : Wrapper Word := do
  let num ← op .fdtable_getnumber
  if num < MAXTHREAD then do
    let tmp ← op .fdtable_add
    op (.set_pid tmp)
    op (.set_NetorFile tmp false)
    op (.set_thr_fd tmp ret)
    let _ ← op (.pthread_create tmp)
    pthread_rwlock_unlock
    finish func_errno ret
  else do
    pthread_rwlock_unlock
    finish func_errno ret

/-- The lock is taken for READING, and where the other wrappers unlock on
the first way out this one locks again. -/
def epoll_create (size : CInt) : Wrapper Word := do
  let (ret, func_errno) ← withErrno (.epoll_create size)
  pthread_rwlock_rdlock
  let found ← op (.fdtable_get_by_fd_all ret)
  if found.isSome ∨ ret.toInt < 0 then do
    pthread_rwlock_rdlock
    finish func_errno ret
  else registerEpoll ret func_errno

/-- `accept` delegates like the others, then inserts an entry for the new
descriptor under the READ lock. `tmp->pid` is the listening entry's. -/
def accept (socket : CInt) (addr addrlen : Word) : Wrapper Word := do
  pthread_rwlock_rdlock
  let tmp ← op (.fdtable_get_by_fd socket false)
  match tmp with
  | none => do
      pthread_rwlock_unlock
      op (.set_errno 0)
      let r ← op (.original (.accept socket addr addrlen))
      pure (intResult r)
  | some tmp => do
      op (.CPART_send_to_thread (send_data (.accept socket addr addrlen)) tmp)
      let recv_data ← op (.CPART_recv_from_thread tmp)
      if 0 < recv_data.return_value.toInt then do
        let found ← op (.fdtable_get_by_fd_all recv_data.return_value)
        match found with
        | none => do
            let tmp2 ← op .fdtable_add
            op (.set_NetorFile tmp2 false)
            op (.set_pid (some tmp))
            op (.set_thr_fd tmp2 recv_data.return_value)
            let _ ← op (.pthread_create tmp2)
            pthread_rwlock_unlock
            finish recv_data.thr_errno recv_data.return_value
        | some _ => do
            pthread_rwlock_unlock
            finish recv_data.thr_errno recv_data.return_value
      else do
        pthread_rwlock_unlock
        finish recv_data.thr_errno recv_data.return_value

/-- The wrapper of a call. -/
def wrapper : Syscall → Wrapper Word
  | .close fildes => close fildes
  | .socket domain type protocol => socket domain type protocol
  | .open path flags mode => open_ path flags mode
  | .openat dirfd pathname flags mode => openat dirfd pathname flags mode
  | .lseek fd offset whence => lseek fd offset whence
  | .read fildes buf nbyte => read fildes buf nbyte
  | .write fildes buf nbyte => write fildes buf nbyte
  | .bind socket address address_len => bind socket address address_len
  | .listen sockfd backlog => listen sockfd backlog
  | .accept socket addr addrlen => accept socket addr addrlen
  | .connect socket address address_len => connect socket address address_len
  | .send socket buffer length flags => send socket buffer length flags
  | .recv socket buf length flags => recv socket buf length flags
  | .setsockopt socket level option_name option_value option_len =>
      setsockopt socket level option_name option_value option_len
  | .getsockopt socket level option_name buf addrlen =>
      getsockopt socket level option_name buf addrlen
  | .epoll_create size => epoll_create size
  | .epoll_ctl epfd op fd events => epoll_ctl epfd op fd events
  | .poll ufds fds nfds timeout => poll ufds fds nfds timeout
  | .sendto socket buffer length flags address address_len =>
      sendto socket buffer length flags address address_len
  | .sendmsg socket msg flags => sendmsg socket msg flags
  | .recvfrom socket buf length flags addr addrlen =>
      recvfrom socket buf length flags addr addrlen
  | .recvmsg socket msg_rcv flags => recvmsg socket msg_rcv flags
  | .getsockname socket addr addrlen => getsockname socket addr addrlen
  | .getpeername socket addr addrlen => getpeername socket addr addrlen
  | .shutdown socket flags => shutdown socket flags

end CorePartitioning.Preload
