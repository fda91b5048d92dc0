import CorePartitioning.Preload.System

/-!
# ld_preload.c — the locking discipline of the wrappers

What each wrapper does with `table_rwlock` on all of its paths, read off
its text: it gives back what it took, and it changes the table only with
the write hold. Twenty-three wrappers keep both rules whatever the answers.
`accept` inserts under a read hold when the new descriptor has no entry;
`epoll_create` does so too, and keeps two read holds when there is one or
the call failed. The lemmas about these two take the rules as parameters
and say on which answers they matter.
-/

namespace CorePartitioning.Preload

open RwLock (Hold)

/-- The operations that change the table or an entry. -/
def mutates : Op → Bool
  | .fdtable_add | .fdtable_delete _ | .set_NetorFile _ _ | .set_pid _ | .set_thr_fd _ _
  | .pthread_create _ => true
  | _ => false

/-- The table is changed under the write hold only. -/
def MutatesExclusively (h : Hold) (o : Op) : Prop := mutates o = true → h.write = true

/-- Rules for answers and operations: a thread with the write hold never
gets past another lock call, and `pre` restricts at most the changes of the
table without the write hold. -/
structure Rules (ok : Hold → (o : Op) → o.Res → Prop) (pre : Hold → Op → Prop) : Prop where
  lock : ∀ {h x r}, ok h (.pthread_rwlock x) r → x ≠ .unlock → h.write = false
  quiet : ∀ {h o}, mutates o = false → pre h o
  write : ∀ {h o}, h.write = true → pre h o

variable {ok : Hold → (o : Op) → o.Res → Prop} {pre : Hold → Op → Prop} {post : Hold → Prop}
  {h : Hold} {α : Type}

/-- An operation that does not change the table. -/
theorem Rules.op (hp : Rules ok pre) {o : Op} {k : o.Res → Wrapper α}
    (hm : mutates o = false)
    (hk : ∀ r, ok h o r → Prog.Safe nextHold ok pre post (nextHold h o) (k r)) :
    Prog.Safe nextHold ok pre post h (.op o k) :=
  ⟨hp.quiet hm, hk⟩

/-- A change of the table under the write hold. -/
theorem Rules.change (hp : Rules ok pre) {o : Op} {k : o.Res → Wrapper α}
    (hw : h.write = true)
    (hk : ∀ r, ok h o r → Prog.Safe nextHold ok pre post (nextHold h o) (k r)) :
    Prog.Safe nextHold ok pre post h (.op o k) :=
  ⟨hp.write hw, hk⟩

/-- Taking the lock, for reading or writing: the hold from before comes back
with the matching unlock. -/
theorem Rules.acquire (hp : Rules ok pre) {x : RwLock.Op} {k : Unit → Wrapper α}
    (hx : x ≠ .unlock)
    (hk : (h.step x).step .unlock = h → Prog.Safe nextHold ok pre post (h.step x) (k ())) :
    Prog.Safe nextHold ok pre post h (.op (.pthread_rwlock x) k) :=
  ⟨hp.quiet rfl, fun _ hr => hk (Hold.step_unlock (hp.lock hr hx) hx)⟩

/-! ## The wrappers that keep both rules -/

section Keep

variable (hp : Rules ok pre)
include hp

theorem delegated_safe (d : Delegation) :
    Prog.Safe nextHold ok pre (· = h) h (delegated d) := by
  simp only [delegated, Prog.call_bind]
  refine hp.op rfl fun func_errno _ => hp.acquire nofun fun hb => ?_
  refine hp.op rfl fun tmp _ => ?_
  cases tmp with
  | none =>
      refine hp.op rfl fun _ _ => ?_
      cases d.missErrno func_errno with
      | none => exact hp.op rfl fun _ _ => hb
      | some e => exact hp.op rfl fun _ _ => hp.op rfl fun _ _ => hb
  | some tmp =>
      refine hp.op rfl fun _ _ => hp.op rfl fun recv_data _ => ?_
      exact hp.op rfl fun _ _ => hp.op rfl fun _ _ => hb

/-- The way out of a wrapper, from the hold `h'` it runs under. -/
theorem unlock_finish_safe {h' : Hold} (hb : post (h'.step .unlock)) (func_errno ret : CInt) :
    Prog.Safe nextHold ok pre post h'
      (.op (.pthread_rwlock .unlock) fun _ => finish func_errno ret) :=
  hp.op rfl fun _ _ => hp.op rfl fun _ _ => hb

theorem retire_safe (hb : post ((h.step .wrlock).step .unlock)) (c : Syscall) (fd : CInt)
    (tmp : Ptr) : Prog.Safe nextHold ok pre post (h.step .wrlock) (retire c fd tmp) := by
  simp only [retire, Prog.call_bind]
  refine hp.op rfl fun _ _ => hp.op rfl fun _ _ => hp.op rfl fun _ _ => ?_
  exact hp.change rfl fun _ _ => hp.op rfl fun _ _ => hp.op rfl fun _ _ => hb

theorem close_safe (fildes : CInt) : Prog.Safe nextHold ok pre (· = h) h (close fildes) := by
  simp only [close, Prog.call_bind]
  refine hp.op rfl fun func_errno _ => hp.acquire nofun fun hb => ?_
  refine hp.op rfl fun tmp _ => ?_
  cases tmp with
  | none => exact hp.op rfl fun _ _ => hp.op rfl fun _ _ => hp.op rfl fun _ _ => hb
  | some tmp => exact retire_safe hp hb _ _ tmp

theorem shutdown_safe (socket flags : CInt) :
    Prog.Safe nextHold ok pre (· = h) h (shutdown socket flags) := by
  simp only [shutdown, Prog.call_bind]
  refine hp.acquire nofun fun hb => hp.op rfl fun tmp _ => ?_
  cases tmp with
  | none => exact hp.op rfl fun _ _ => hp.op rfl fun _ _ => hb
  | some tmp => exact retire_safe hp hb _ _ tmp

theorem socket_safe (domain type protocol : CInt) :
    Prog.Safe nextHold ok pre (· = h) h (socket domain type protocol) := by
  simp only [socket, Prog.call_bind]
  refine hp.op rfl fun r _ => hp.op rfl fun func_errno _ => ?_
  refine hp.acquire nofun fun hb => hp.op rfl fun found _ => ?_
  split
  · exact unlock_finish_safe hp hb _ _
  · refine hp.op rfl fun num _ => ?_
    split
    · refine hp.change rfl fun tmp _ => hp.change rfl fun _ _ => hp.change rfl fun _ _ => ?_
      refine hp.change rfl fun _ _ => hp.change rfl fun _ _ => ?_
      exact unlock_finish_safe hp hb _ _
    · exact unlock_finish_safe hp hb _ _

theorem registerFile_safe (hb : post ((h.step .wrlock).step .unlock)) (ret func_errno : CInt) :
    Prog.Safe nextHold ok pre post (h.step .wrlock) (registerFile ret func_errno) := by
  simp only [registerFile, Prog.call_bind]
  refine hp.change rfl fun tmp _ => hp.change rfl fun _ _ => hp.change rfl fun _ _ => ?_
  refine hp.change rfl fun _ _ => hp.change rfl fun _ _ => ?_
  exact unlock_finish_safe hp hb _ _

/-- The original call with its `errno` bookkeeping takes no lock. -/
theorem withErrno_safe (c : Syscall) {f : CInt × CInt → Wrapper α}
    (hf : ∀ x, Prog.Safe nextHold ok pre post h (f x)) :
    Prog.Safe nextHold ok pre post h (withErrno c >>= f) := by
  simp only [withErrno, Prog.call_bind, Prog.op_bind]
  refine hp.op rfl fun func_errno _ => hp.op rfl fun _ _ => hp.op rfl fun r _ => ?_
  refine hp.op rfl fun e _ => ?_
  split
  · exact hf _
  · exact hp.op rfl fun _ _ => hf _

theorem open_safe (path : Word) (flags mode : CInt) :
    Prog.Safe nextHold ok pre (· = h) h (open_ path flags mode) := by
  refine withErrno_safe hp _ fun x => ?_
  obtain ⟨ret, func_errno⟩ := x
  simp only [Prog.call_bind]
  split
  · exact rfl
  · refine hp.acquire nofun fun hb => hp.op rfl fun found _ => ?_
    split
    · exact unlock_finish_safe hp hb _ _
    · refine hp.op rfl fun num _ => ?_
      split
      · exact registerFile_safe hp hb _ _
      · exact unlock_finish_safe hp hb _ _

theorem openat_safe (dirfd : CInt) (pathname : Word) (flags mode : CInt) :
    Prog.Safe nextHold ok pre (· = h) h (openat dirfd pathname flags mode) := by
  refine withErrno_safe hp _ fun x => ?_
  simp only [Prog.call_bind]
  refine hp.op rfl fun func_errno _ => hp.acquire nofun fun hb => ?_
  refine hp.op rfl fun found _ => ?_
  split
  · exact unlock_finish_safe hp hb _ _
  · split
    · refine hp.op rfl fun num _ => ?_
      split
      · exact registerFile_safe hp hb _ _
      · exact unlock_finish_safe hp hb _ _
    · exact unlock_finish_safe hp hb _ _

end Keep

/-! ## The two that do not -/

/-- `accept` gives back its hold. If it may find no entry for the descriptor
it accepted, `pre` must allow everything. -/
theorem accept_safe (hp : Rules ok pre) (socket : CInt) (addr addrlen : Word)
    (hins : ∀ h fd, ok h (.fdtable_get_by_fd_all fd) none → ∀ h o, pre h o) :
    Prog.Safe nextHold ok pre (· = h) h (accept socket addr addrlen) := by
  simp only [accept, Prog.call_bind]
  refine hp.acquire nofun fun hb => hp.op rfl fun tmp _ => ?_
  cases tmp with
  | none => exact hp.op rfl fun _ _ => hp.op rfl fun _ _ => hp.op rfl fun _ _ => hb
  | some tmp =>
      refine hp.op rfl fun _ _ => hp.op rfl fun recv_data _ => ?_
      split
      · refine hp.op rfl fun found hfound => ?_
        cases found with
        | some _ => exact unlock_finish_safe hp hb _ _
        | none =>
            have hall := hins _ _ hfound
            refine ⟨hall _ _, fun tmp2 _ => ⟨hall _ _, fun _ _ => ⟨hall _ _, fun _ _ => ?_⟩⟩⟩
            refine ⟨hall _ _, fun _ _ => ⟨hall _ _, fun _ _ => ?_⟩⟩
            exact unlock_finish_safe hp hb _ _
      · exact unlock_finish_safe hp hb _ _

theorem registerEpoll_safe (hp : Rules ok pre) (hb : post ((h.step .rdlock).step .unlock))
    (ret func_errno : CInt)
    (hins : ∀ h num, ok h .fdtable_getnumber num → num < MAXTHREAD → ∀ h o, pre h o) :
    Prog.Safe nextHold ok pre post (h.step .rdlock) (registerEpoll ret func_errno) := by
  simp only [registerEpoll, Prog.call_bind]
  refine hp.op rfl fun num hnum => ?_
  split
  · rename_i hroom
    have hall := hins _ num hnum hroom
    refine ⟨hall _ _, fun tmp _ => ⟨hall _ _, fun _ _ => ⟨hall _ _, fun _ _ => ?_⟩⟩⟩
    refine ⟨hall _ _, fun _ _ => ⟨hall _ _, fun _ _ => ?_⟩⟩
    exact unlock_finish_safe hp hb _ _
  · exact unlock_finish_safe hp hb _ _

/-- `epoll_create` ends with two more read holds if it may find an entry or
a negative descriptor. If it may find room, `pre` must allow everything. -/
theorem epoll_create_safe (hp : Rules ok pre) (size : CInt) (hpost : post h)
    (hleak : ∀ h' fd r, ok h' (.fdtable_get_by_fd_all fd) r → r.isSome ∨ fd.toInt < 0 →
      post ((h.step .rdlock).step .rdlock))
    (hins : ∀ h num, ok h .fdtable_getnumber num → num < MAXTHREAD → ∀ h o, pre h o) :
    Prog.Safe nextHold ok pre post h (epoll_create size) := by
  refine withErrno_safe hp _ fun x => ?_
  obtain ⟨ret, func_errno⟩ := x
  simp only [Prog.call_bind]
  refine hp.acquire nofun fun hb => hp.op rfl fun found hfound => ?_
  split
  · rename_i hbad
    exact hp.op rfl fun _ _ => hp.op rfl fun _ _ => hleak _ _ _ hfound hbad
  · exact registerEpoll_safe hp (by rwa [hb]) _ _ hins

/-- **The discipline, wrapper by wrapper.** -/
theorem wrapper_safe (hp : Rules ok pre) (c : Syscall) (hpost : post h)
    (haccept : ∀ socket addr addrlen, c = .accept socket addr addrlen →
      ∀ h fd, ok h (.fdtable_get_by_fd_all fd) none → ∀ h o, pre h o)
    (hleak : ∀ size, c = .epoll_create size →
      ∀ h' fd r, ok h' (.fdtable_get_by_fd_all fd) r → r.isSome ∨ fd.toInt < 0 →
        post ((h.step .rdlock).step .rdlock))
    (hepoll : ∀ size, c = .epoll_create size →
      ∀ h num, ok h .fdtable_getnumber num → num < MAXTHREAD → ∀ h o, pre h o) :
    Prog.Safe nextHold ok pre post h (wrapper c) := by
  have keep : ∀ {p : Wrapper Word}, Prog.Safe nextHold ok pre (· = h) h p →
      Prog.Safe nextHold ok pre post h p :=
    fun hs => hs.mono fun h' heq => heq ▸ hpost
  cases c with
  | close => exact keep (close_safe hp _)
  | shutdown => exact keep (shutdown_safe hp _ _)
  | socket => exact keep (socket_safe hp _ _ _)
  | «open» => exact keep (open_safe hp _ _ _)
  | openat => exact keep (openat_safe hp _ _ _ _)
  | accept => exact keep (accept_safe hp _ _ _ (haccept _ _ _ rfl))
  | epoll_create => exact epoll_create_safe hp _ hpost (hleak _ rfl) (hepoll _ rfl)
  | _ => exact keep (delegated_safe hp _)

end CorePartitioning.Preload
