import CorePartitioning.Preload.Outlines

/-!
# ld_preload.c — what the `switch` of `syscall_thread` makes of a request

Each `case` calls one original function with the fields of one member of
the union. `dispatch` reads these fields where data_types.h puts them, so
that it can be compared with `send_data`, which wrote them: the call that
is executed is the call that was made, and the field of the response that
the wrapper looks at is the one its result was put into.
-/

namespace CorePartitioning.Preload

/-- The enumerator with a given value. -/
def RequestType.ofCode (code : BitVec 32) : Option RequestType :=
  [TYPE_OPEN, TYPE_FOPEN, TYPE_SOCKET, TYPE_BIND, TYPE_LISTEN, TYPE_ACCEPT, TYPE_CONNECT,
    TYPE_SEND, TYPE_RECV, TYPE_SETSOCKOPT, TYPE_READ, TYPE_WRITE, TYPE_POLL, TYPE_PPOLL,
    TYPE_EPOLL_WAIT, TYPE_EPOLL_CREATE, TYPE_EPOLL_CTL, TYPE_SOCKETPAIR, TYPE_SELECT,
    TYPE_SENDTO, TYPE_RECVFROM, TYPE_SENDMSG, TYPE_RECVMSG, TYPE_SHUTDOWN, TYPE_GETSOCKNAME,
    TYPE_GETPEERNAME, TYPE_GETSOCKOPT, TYPE_OPENAT, TYPE_OPENAT64, TYPE_OPEN64, TYPE_LSEEK,
    TYPE_LSEEK64, TYPE_STAT, TYPE_STAT64, TYPE_CLOSE].find? fun t => t.code == code

/-- The words of the union, from offset 16 on. -/
def ArgsData.w16 (a : ArgsData) : Word := a.word16
def ArgsData.w24 (a : ArgsData) : Word := a.word28 ++ a.word24
def ArgsData.w32 (a : ArgsData) : Word := a.rest32.setWidth 64
def ArgsData.w40 (a : ArgsData) : Word := (a.rest32 >>> 64).setWidth 64
def ArgsData.w48 (a : ArgsData) : Word := (a.rest32 >>> 128).setWidth 64
def ArgsData.w56 (a : ArgsData) : Word := (a.rest32 >>> 192).setWidth 64

/-- The `int` at the lower and at the higher address of a word. -/
def lo (w : Word) : CInt := w.setWidth 32
def hi (w : Word) : CInt := (w >>> 32).setWidth 32

/-- The original call of a `case`. `TYPE_CLOSE` and `TYPE_SHUTDOWN` make none;
nor do the types without a `case`. The memory at `ufds` is not in the
message. The cases of calls whose wrappers do not take `table_rwlock`
(`TYPE_PPOLL`, `TYPE_EPOLL_WAIT`, `TYPE_SOCKETPAIR`, `TYPE_LSEEK64`,
`TYPE_STAT`, `TYPE_STAT64`) are left out. -/
def dispatch (a : ArgsData) : Option Syscall :=
  match RequestType.ofCode a.request_type with
  | some .TYPE_SOCKET => some (.socket (lo a.w16) (hi a.w16) (lo a.w24))
  | some .TYPE_BIND => some (.bind (lo a.w16) a.w24 (lo a.w32))
  | some .TYPE_LISTEN => some (.listen (lo a.w16) (hi a.w16))
  | some .TYPE_ACCEPT => some (.accept (lo a.w16) a.w24 a.w32)
  | some .TYPE_CONNECT => some (.connect (lo a.w16) a.w24 (lo a.w32))
  | some .TYPE_SEND => some (.send (lo a.w16) a.w24 a.w32 (lo a.w40))
  | some .TYPE_RECV => some (.recv (lo a.w16) a.w24 a.w32 (lo a.w40))
  | some .TYPE_SETSOCKOPT =>
      some (.setsockopt (lo a.w16) (hi a.w16) (lo a.w24) a.w32 (lo a.w40))
  | some .TYPE_GETSOCKOPT => some (.getsockopt (lo a.w16) (hi a.w16) (lo a.w24) a.w32 a.w40)
  | some .TYPE_READ => some (.read (lo a.w16) a.w24 a.w32)
  | some .TYPE_WRITE => some (.write (lo a.w16) a.w24 a.w32)
  | some .TYPE_POLL => some (.poll a.w16 (fun _ => 0) (lo a.w24) (hi a.w24))
  | some .TYPE_EPOLL_CREATE => some (.epoll_create (lo a.w16))
  | some .TYPE_EPOLL_CTL => some (.epoll_ctl (lo a.w16) (hi a.w16) (lo a.w24) a.w32)
  | some .TYPE_SENDTO => some (.sendto (lo a.w16) a.w24 a.w32 (lo a.w40) a.w48 (lo a.w56))
  | some .TYPE_RECVFROM => some (.recvfrom (lo a.w16) a.w24 a.w32 (lo a.w40) a.w48 a.w56)
  | some .TYPE_SENDMSG => some (.sendmsg (lo a.w16) a.w24 (lo a.w40))
  | some .TYPE_RECVMSG => some (.recvmsg (lo a.w16) a.w32 (lo a.w40))
  | some .TYPE_GETSOCKNAME => some (.getsockname (lo a.w16) a.w24 a.w32)
  | some .TYPE_GETPEERNAME => some (.getpeername (lo a.w16) a.w24 a.w32)
  | some .TYPE_OPEN => some (.open a.w16 (lo a.w24) (hi a.w24))
  | some .TYPE_OPENAT => some (.openat (lo a.w16) a.w24 (lo a.w32) (hi a.w32))
  | some .TYPE_LSEEK => some (.lseek (lo a.w16) a.w24 (lo a.w32))
  | _ => none

theorem RequestType.ofCode_code (t : RequestType) : RequestType.ofCode t.code = some t := by
  cases t <;> rfl

/-! ## The fields are read where they were written -/

theorem append_low {m n : Nat} (x : BitVec m) (y : BitVec n) : (x ++ y).setWidth n = y := by
  simp [BitVec.setWidth_append]

theorem append_high {m n k : Nat} (x : BitVec m) (y : BitVec n) (i : Nat) :
    ((x ++ y) >>> (n + i)).setWidth k = (x >>> i).setWidth k := by
  ext j hj
  simp only [BitVec.getElem_setWidth, BitVec.getLsbD_ushiftRight, BitVec.getLsbD_append]
  rw [if_neg (by omega)]
  congr 1
  omega

theorem lo_ints (x y : CInt) : lo (ints x y) = x := append_low y x

theorem hi_ints (x y : CInt) : hi (ints x y) = y := by
  refine (append_high y x 0).trans ?_
  simp

theorem lo_int (x : CInt) : lo (int x) = x := lo_ints x 0

section OfWords

variable (t : RequestType) (a b c d e f : Word)

theorem request_type_ofWords : (ArgsData.ofWords t a b c d e f).request_type = t.code := rfl

theorem w16_ofWords : (ArgsData.ofWords t a b c d e f).w16 = a := rfl

theorem w24_ofWords : (ArgsData.ofWords t a b c d e f).w24 = b := by
  unfold ArgsData.w24 ArgsData.ofWords
  ext i hi
  simp
  grind

theorem w32_ofWords : (ArgsData.ofWords t a b c d e f).w32 = c := append_low (f ++ e ++ d) c

theorem w40_ofWords : (ArgsData.ofWords t a b c d e f).w40 = d := by
  refine (append_high (f ++ e ++ d) c 0).trans ?_
  exact append_low (f ++ e) d

theorem w48_ofWords : (ArgsData.ofWords t a b c d e f).w48 = e := by
  refine (append_high (f ++ e ++ d) c 64).trans ?_
  refine (append_high (f ++ e) d 0).trans ?_
  exact append_low f e

theorem w56_ofWords : (ArgsData.ofWords t a b c d e f).w56 = f := by
  refine (append_high (f ++ e ++ d) c 128).trans ?_
  refine (append_high (f ++ e) d 64).trans ?_
  refine (append_high f e 0).trans ?_
  simp

end OfWords

/-- The wrapper sends a request that the `switch` turns back into its call.
The memory at `ufds` is not part of the message. -/
def Syscall.marshals : Syscall → Bool
  | .close .. | .shutdown .. | .socket .. | .open .. | .openat .. | .epoll_create ..
  | .poll .. => false
  | _ => true

/-- **Every `case` reads the member that the wrapper wrote.** -/
theorem dispatch_send_data {c : Syscall} (hc : c.marshals = true) :
    dispatch (send_data c) = some c := by
  cases c with
  | close | shutdown | socket | «open» | openat | epoll_create | poll => cases hc
  | _ =>
      simp only [dispatch, send_data, request_type_ofWords, RequestType.ofCode_code, w16_ofWords,
        w24_ofWords, w32_ofWords, w40_ofWords, w48_ofWords, w56_ofWords, lo_ints, hi_ints, lo_int]

theorem serve_return_size {send_data : ArgsData} (h : isOneOf send_data.request_type returnsSize)
    (recv_data : RetvalData) (o : Outcome) :
    (serve send_data recv_data o).return_size = o.result := by
  unfold serve
  dsimp only
  rw [if_pos h]

theorem serve_return_value {send_data : ArgsData}
    (hsize : isOneOf send_data.request_type returnsSize = false)
    (h : isOneOf send_data.request_type returnsValue) (recv_data : RetvalData) (o : Outcome) :
    (serve send_data recv_data o).return_value = o.result.setWidth 32 := by
  unfold serve
  dsimp only
  rw [if_neg (by rw [hsize]; nofun), if_pos h]

/-- The field of the response that the wrapper looks at is the one its result
was put into. `lseek` loses the upper half of its result. -/
theorem replyValue_serve {c : Syscall} (hc : c.marshals = true)
    (hlseek : ∀ fd offset whence, c ≠ .lseek fd offset whence) (stale : RetvalData)
    (o : Outcome) : c.replyValue (serve (send_data c) stale o) = c.origValue o.result := by
  cases c with
  | close | shutdown | socket | «open» | openat | epoll_create | poll => cases hc
  | lseek fd offset whence => exact absurd rfl (hlseek fd offset whence)
  | read | write | send | recv | sendto | sendmsg | recvfrom | recvmsg =>
      exact serve_return_size rfl stale o
  | _ =>
      show (serve _ stale o).return_value.signExtend 64 = intResult o.result
      rw [serve_return_value rfl rfl]
      rfl

/-- The requests that end the thread make no original call. -/
theorem dispatch_terminates {c : Syscall} (hc : c.terminates = true) :
    dispatch (send_data c) = none := by
  cases c with
  | close | shutdown =>
      simp only [dispatch, send_data, request_type_ofWords, RequestType.ofCode_code]
  | _ => cases hc

/-- No `case` closes or shuts down. -/
theorem dispatch_not_terminates {a : ArgsData} {c : Syscall} (h : dispatch a = some c) :
    c.terminates = false := by
  unfold dispatch at h
  split at h <;> cases h <;> rfl

end CorePartitioning.Preload
