import CorePartitioning.Preload.DataTypes

/-!
# ld_preload.c — the intercepted calls and the requests they become

`Syscall` is a call with its arguments, as the application makes it and as
the original function receives it. `send_data` is the `args_data` a wrapper
fills in for the entry's thread: `msgtype` is 1, every byte of the union
that no assignment reaches is 0, and each field lies where the member
structures of data_types.h put it.
-/

namespace CorePartitioning.Preload

/-- C's `int` (also `socklen_t`, `unsigned int`) and the 64-bit types: pointers,
`size_t`, `off_t`, `ssize_t`. -/
abbrev CInt := BitVec 32
abbrev Word := BitVec 64

/-- The calls whose wrapper takes `table_rwlock`. `fds` is the memory at
`ufds`: the `fd` member of each `pollfd`. -/
inductive Syscall
  | close (fildes : CInt)
  | socket (domain type protocol : CInt)
  | open (path : Word) (flags mode : CInt)
  | openat (dirfd : CInt) (pathname : Word) (flags mode : CInt)
  | lseek (fd : CInt) (offset : Word) (whence : CInt)
  | read (fildes : CInt) (buf nbyte : Word)
  | write (fildes : CInt) (buf nbyte : Word)
  | bind (socket : CInt) (address : Word) (address_len : CInt)
  | listen (sockfd backlog : CInt)
  | accept (socket : CInt) (addr addrlen : Word)
  | connect (socket : CInt) (address : Word) (address_len : CInt)
  | send (socket : CInt) (buffer length : Word) (flags : CInt)
  | recv (socket : CInt) (buf length : Word) (flags : CInt)
  | setsockopt (socket level option_name : CInt) (option_value : Word) (option_len : CInt)
  | getsockopt (socket level option_name : CInt) (buf addrlen : Word)
  | epoll_create (size : CInt)
  | epoll_ctl (epfd op fd : CInt) (events : Word)
  | poll (ufds : Word) (fds : Nat → CInt) (nfds timeout : CInt)
  | sendto (socket : CInt) (buffer length : Word) (flags : CInt) (address : Word)
      (address_len : CInt)
  | sendmsg (socket : CInt) (msg : Word) (flags : CInt)
  | recvfrom (socket : CInt) (buf length : Word) (flags : CInt) (addr addrlen : Word)
  | recvmsg (socket : CInt) (msg_rcv : Word) (flags : CInt)
  | getsockname (socket : CInt) (addr addrlen : Word)
  | getpeername (socket : CInt) (addr addrlen : Word)
  | shutdown (socket flags : CInt)

/-- Eight bytes that hold two `int` fields, the first at the lower address,
or one and padding. -/
def ints (lo hi : CInt) : Word := hi ++ lo
def int (lo : CInt) : Word := ints lo 0

/-- A request from the six words of the union. -/
def ArgsData.ofWords (t : RequestType) (w16 w24 w32 w40 w48 w56 : Word) : ArgsData where
  msgtype := 1
  request_type := t.code
  pad12 := 0
  word16 := w16
  word24 := w24.setWidth 32
  word28 := (w24 >>> 32).setWidth 32
  rest32 := w56 ++ w48 ++ w40 ++ w32

/-- The request of a wrapper. `socket`, `open`, `openat` and `epoll_create`
call the original function themselves and send none; the field `send` of
the union carries `shutdown`. -/
def send_data : Syscall → ArgsData
  | .close fildes => .ofWords .TYPE_CLOSE (int fildes) 0 0 0 0 0
  | .lseek fd offset whence => .ofWords .TYPE_LSEEK (int fd) offset (int whence) 0 0 0
  | .read fildes buf nbyte => .ofWords .TYPE_READ (int fildes) buf nbyte 0 0 0
  | .write fildes buf nbyte => .ofWords .TYPE_WRITE (int fildes) buf nbyte 0 0 0
  | .bind socket address address_len =>
      .ofWords .TYPE_BIND (int socket) address (int address_len) 0 0 0
  | .listen sockfd backlog => .ofWords .TYPE_LISTEN (ints sockfd backlog) 0 0 0 0 0
  | .accept socket addr addrlen => .ofWords .TYPE_ACCEPT (int socket) addr addrlen 0 0 0
  | .connect socket address address_len =>
      .ofWords .TYPE_CONNECT (int socket) address (int address_len) 0 0 0
  | .send socket buffer length flags =>
      .ofWords .TYPE_SEND (int socket) buffer length (int flags) 0 0
  | .recv socket buf length flags =>
      .ofWords .TYPE_RECV (int socket) buf length (int flags) 0 0
  | .setsockopt socket level option_name option_value option_len =>
      .ofWords .TYPE_SETSOCKOPT (ints socket level) (int option_name) option_value
        (int option_len) 0 0
  | .getsockopt socket level option_name buf addrlen =>
      .ofWords .TYPE_GETSOCKOPT (ints socket level) (int option_name) buf addrlen 0 0
  | .epoll_ctl epfd op fd events =>
      .ofWords .TYPE_EPOLL_CTL (ints epfd op) (int fd) events 0 0 0
  | .poll ufds _ nfds timeout => .ofWords .TYPE_POLL ufds (ints nfds timeout) 0 0 0 0
  | .sendto socket buffer length flags address address_len =>
      .ofWords .TYPE_SENDTO (int socket) buffer length (int flags) address (int address_len)
  | .sendmsg socket msg flags =>
      .ofWords .TYPE_SENDMSG (int socket) msg 0 (int flags) 0 0
  | .recvfrom socket buf length flags addr addrlen =>
      .ofWords .TYPE_RECVFROM (int socket) buf length (int flags) addr addrlen
  | .recvmsg socket msg_rcv flags =>
      .ofWords .TYPE_RECVMSG (int socket) 0 msg_rcv (int flags) 0 0
  | .getsockname socket addr addrlen =>
      .ofWords .TYPE_GETSOCKNAME (int socket) addr addrlen 0 0 0
  | .getpeername socket addr addrlen =>
      .ofWords .TYPE_GETPEERNAME (int socket) addr addrlen 0 0 0
  | .shutdown socket flags => .ofWords .TYPE_SHUTDOWN (int socket) 0 0 (int flags) 0 0
  | .socket .. | .open .. | .openat .. | .epoll_create .. => .zero

end CorePartitioning.Preload
