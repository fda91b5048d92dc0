import CorePartitioning.Preload.Outlines

/-!
# ld_preload.c — the pointers a wrapper writes through

A wrapper writes through pointers it has got from the table since it took
the lock: the entry it has added and, in `accept`, the entry of the
listening socket, whose `pid` it writes again. When `calloc` succeeds none
of them is NULL. A wrapper that does not lock for reading a second time
gives the lock back.
-/

namespace CorePartitioning.Preload

/-- The pointer an operation writes through. -/
def Op.target : Op → Option (Option Ptr)
  | .set_NetorFile tmp _ | .set_pid tmp | .set_thr_fd tmp _ | .pthread_create tmp => some tmp
  | _ => none

/-- Whether a call holds the lock, whether it has locked again while it held
it, and the pointers it has got from the table and may still use. -/
structure Seen where
  held : Bool := false
  relocked : Bool := false
  ptrs : List Ptr := []

def Seen.next (s : Seen) : (o : Op) → o.Res → Seen
  | .fdtable_get_by_fd_all _, r | .fdtable_get_by_fd _ _, r | .fdtable_add, r =>
      { s with ptrs := (r : Option Ptr).toList ++ s.ptrs }
  | .pthread_rwlock .unlock, _ => {}
  | .pthread_rwlock _, _ => { s with held := true, relocked := s.held }
  | .fdtable_delete _, _ => { s with ptrs := [] }
  | _, _ => s

/-- What is written through has been seen. -/
def Seen.Writes (s : Seen) (o : Op) : Prop :=
  ∀ tmp, o.target = some tmp → ∃ p ∈ s.ptrs, tmp = some p

/-- `fdtable_add` returns an entry. -/
def Allocated : (o : Op) → o.Res → Prop
  | .fdtable_add, r => r ≠ none
  | _, _ => True

/-- The program writes through what it has seen only, and keeps the lock only
if it has locked again. -/
abbrev WritesValid (s : Seen) (p : Wrapper Word) : Prop :=
  p.Outline Seen.next (fun _ => Allocated) Seen.Writes (fun s _ => s.held = s.relocked) s

section

variable {s : Seen} {o : Op}

/-- An operation that writes through nothing. -/
theorem WritesValid.op {k : o.Res → Wrapper Word} (ho : o.target = none)
    (hk : ∀ r, Allocated o r → WritesValid (s.next o r) (k r)) : WritesValid s (.op o k) :=
  ⟨fun _ h => by simp [ho] at h, hk⟩

/-- A write through a pointer that has been seen. -/
theorem WritesValid.write {k : o.Res → Wrapper Word} {p : Ptr} (ho : o.target = some (some p))
    (hp : p ∈ s.ptrs) (hk : ∀ r, WritesValid (s.next o r) (k r)) : WritesValid s (.op o k) :=
  ⟨fun tmp h => ⟨p, hp, by rw [ho] at h; exact (Option.some.inj h).symm⟩, fun r _ => hk r⟩

/-- The new entry. -/
theorem WritesValid.add {k : Option Ptr → Wrapper Word}
    (hk : ∀ p, WritesValid { s with ptrs := p :: s.ptrs } (k (some p))) :
    WritesValid s (.op .fdtable_add k) := by
  refine .op rfl fun r hr => ?_
  cases r with
  | none => exact absurd rfl hr
  | some p => exact hk p

end

/-! ## The texts -/

theorem delegated_valid (d : Delegation) : WritesValid {} (delegated d) := by
  simp only [delegated, Prog.call_bind]
  refine .op rfl fun func_errno _ => .op rfl fun _ _ => .op rfl fun tmp _ => ?_
  cases tmp with
  | none =>
      refine .op rfl fun _ _ => ?_
      cases d.missErrno func_errno with
      | none => exact .op rfl fun r _ => rfl
      | some e => exact .op rfl fun _ _ => .op rfl fun r _ => rfl
  | some tmp =>
      refine .op rfl fun _ _ => .op rfl fun recv_data _ => .op rfl fun _ _ => ?_
      exact .op rfl fun _ _ => rfl

theorem retire_valid (s : Seen) (c : Syscall) (fd : CInt) (tmp : Ptr) :
    WritesValid s (retire c fd tmp) := by
  simp only [retire, Prog.call_bind]
  refine .op rfl fun _ _ => .op rfl fun _ _ => .op rfl fun _ _ => .op rfl fun _ _ => ?_
  exact .op rfl fun _ _ => .op rfl fun _ _ => rfl

theorem close_valid (fildes : CInt) : WritesValid {} (close fildes) := by
  simp only [close, Prog.call_bind]
  refine .op rfl fun func_errno _ => .op rfl fun _ _ => .op rfl fun tmp _ => ?_
  cases tmp with
  | none => exact .op rfl fun _ _ => .op rfl fun _ _ => .op rfl fun _ _ => rfl
  | some tmp => exact retire_valid _ _ _ tmp

theorem shutdown_valid (socket flags : CInt) :
    WritesValid {} (shutdown socket flags) := by
  simp only [shutdown, Prog.call_bind]
  refine .op rfl fun _ _ => .op rfl fun tmp _ => ?_
  cases tmp with
  | none => exact .op rfl fun _ _ => .op rfl fun _ _ => rfl
  | some tmp => exact retire_valid _ _ _ tmp

theorem unlock_finish_valid (s : Seen) (func_errno ret : CInt) :
    WritesValid s (.op (.pthread_rwlock .unlock) fun _ => finish func_errno ret) :=
  .op rfl fun _ _ => .op rfl fun _ _ => rfl

theorem withErrno_valid (s : Seen) (c : Syscall) {f : CInt × CInt → Wrapper Word}
    (hf : ∀ x, WritesValid s (f x)) : WritesValid s (withErrno c >>= f) := by
  simp only [withErrno, Prog.call_bind, Prog.op_bind]
  refine .op rfl fun func_errno _ => .op rfl fun _ _ => .op rfl fun r _ => .op rfl fun e _ => ?_
  split
  · exact hf _
  · exact .op rfl fun _ _ => hf _

theorem socket_valid (domain type protocol : CInt) :
    WritesValid {} (socket domain type protocol) := by
  simp only [socket, Prog.call_bind]
  refine .op rfl fun r _ => .op rfl fun func_errno _ => .op rfl fun _ _ => .op rfl fun found _ => ?_
  split
  · exact unlock_finish_valid _ _ _
  · refine .op rfl fun num _ => ?_
    split
    · refine .add fun p => ?_
      refine .write rfl List.mem_cons_self fun _ => .write rfl List.mem_cons_self fun _ => ?_
      refine .write rfl List.mem_cons_self fun _ => .write rfl List.mem_cons_self fun _ => ?_
      exact unlock_finish_valid _ _ _
    · exact unlock_finish_valid _ _ _

theorem registerFile_valid (s : Seen) (ret func_errno : CInt) :
    WritesValid s (registerFile ret func_errno) := by
  simp only [registerFile, Prog.call_bind]
  refine .add fun p => ?_
  refine .write rfl List.mem_cons_self fun _ => .write rfl List.mem_cons_self fun _ => ?_
  refine .write rfl List.mem_cons_self fun _ => .write rfl List.mem_cons_self fun _ => ?_
  exact unlock_finish_valid _ _ _

theorem open_valid (path : Word) (flags mode : CInt) :
    WritesValid {} (open_ path flags mode) := by
  refine withErrno_valid _ _ fun x => ?_
  obtain ⟨ret, func_errno⟩ := x
  simp only [Prog.call_bind]
  split
  · exact rfl
  · refine .op rfl fun _ _ => .op rfl fun found _ => ?_
    split
    · exact unlock_finish_valid _ _ _
    · refine .op rfl fun num _ => ?_
      split
      · exact registerFile_valid _ _ _
      · exact unlock_finish_valid _ _ _

theorem openat_valid (dirfd : CInt) (pathname : Word) (flags mode : CInt) :
    WritesValid {} (openat dirfd pathname flags mode) := by
  refine withErrno_valid _ _ fun x => ?_
  simp only [Prog.call_bind]
  refine .op rfl fun func_errno _ => .op rfl fun _ _ => .op rfl fun found _ => ?_
  split
  · exact unlock_finish_valid _ _ _
  · split
    · refine .op rfl fun num _ => ?_
      split
      · exact registerFile_valid _ _ _
      · exact unlock_finish_valid _ _ _
    · exact unlock_finish_valid _ _ _

theorem epoll_create_valid (size : CInt) :
    WritesValid {} (epoll_create size) := by
  refine withErrno_valid _ _ fun x => ?_
  obtain ⟨ret, func_errno⟩ := x
  simp only [Prog.call_bind]
  refine .op rfl fun _ _ => .op rfl fun found _ => ?_
  split
  · exact .op rfl fun _ _ => .op rfl fun _ _ => rfl
  · simp only [registerEpoll, Prog.call_bind]
    refine .op rfl fun num _ => ?_
    split
    · refine .add fun p => ?_
      refine .write rfl List.mem_cons_self fun _ => .write rfl List.mem_cons_self fun _ => ?_
      refine .write rfl List.mem_cons_self fun _ => .write rfl List.mem_cons_self fun _ => ?_
      exact unlock_finish_valid _ _ _
    · exact unlock_finish_valid _ _ _

/-- The listening socket's entry is written to after a second lookup and an
insertion. -/
theorem accept_valid (socket : CInt) (addr addrlen : Word) :
    WritesValid {} (accept socket addr addrlen) := by
  simp only [accept, Prog.call_bind]
  refine .op rfl fun _ _ => .op rfl fun tmp _ => ?_
  cases tmp with
  | none => exact .op rfl fun _ _ => .op rfl fun _ _ => .op rfl fun _ _ => rfl
  | some tmp =>
      refine .op rfl fun _ _ => .op rfl fun recv_data _ => ?_
      split
      · refine .op rfl fun found _ => ?_
        cases found with
        | some _ => exact unlock_finish_valid _ _ _
        | none =>
            refine .add fun p => .write rfl List.mem_cons_self fun _ => ?_
            refine .write rfl (List.mem_cons_of_mem _ List.mem_cons_self) fun _ => ?_
            refine .write rfl List.mem_cons_self fun _ => .write rfl List.mem_cons_self fun _ => ?_
            exact unlock_finish_valid _ _ _
      · exact unlock_finish_valid _ _ _

/-- **No wrapper writes through a pointer it has not just got.** -/
theorem wrapper_valid (c : Syscall) : WritesValid {} (wrapper c) := by
  cases c with
  | close => exact close_valid _
  | shutdown => exact shutdown_valid _ _
  | socket => exact socket_valid _ _ _
  | «open» => exact open_valid _ _ _
  | openat => exact openat_valid _ _ _ _
  | accept => exact accept_valid _ _ _
  | epoll_create => exact epoll_create_valid _
  | _ => exact delegated_valid _

end CorePartitioning.Preload
