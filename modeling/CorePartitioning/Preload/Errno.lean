import CorePartitioning.Lib.Outline
import CorePartitioning.Preload.System

/-!
# ld_preload.c — the caller's `errno`

Every wrapper saves `errno` at entry and puts a value back at the end. What
it puts back differs: the delegated wrappers set the thread's `thr_errno`,
or only if it is not 0, or (`write`) never; the others restore what they
saved. Run alone, a wrapper therefore ends with the original function's
error except in `write`, and with its own `errno` on success except in the
twelve wrappers that set `thr_errno` also when it is 0.
-/

namespace CorePartitioning.Preload

variable {Tid : Type} [DecidableEq Tid]

/-- The original function of `c` does `o`, wherever it is executed: by the
caller, or by the entry's thread, whose `recv_data` was `stale` before. -/
structure OriginalDoes (c : Syscall) (o : Outcome) (e : Env) : Prop where
  result : e.result = o.result
  errno : e.errno = if o.errno = 0 then none else some o.errno
  recv_data : ∃ stale, e.recv_data = serve (send_data c) stale o

/-- The wrappers that delegate to an entry's thread. -/
def Syscall.delegates : Syscall → Bool
  | .close .. | .shutdown .. | .socket .. | .open .. | .openat .. | .epoll_create .. => false
  | _ => true

/-- The wrapper finds an entry and loses the thread's `errno`. -/
def DropsErrno (tbl : FdTable) : Syscall → Prop
  | .write fd .. => (fdtable_get_by_fd tbl fd true).isSome
  | _ => False

/-- The wrapper sets `errno` to 0 when the original function sets none. -/
def ResetsErrno (tbl : FdTable) : Syscall → Prop
  | .bind fd .. | .listen fd .. | .connect fd .. | .send fd .. | .recv fd .. | .setsockopt fd ..
  | .getsockopt fd .. | .sendto fd .. | .recvmsg fd .. | .getsockname fd .. =>
      (fdtable_get_by_fd tbl fd false).isSome
  | .accept .. | .sendmsg .. => True
  | _ => False

theorem serve_thr_errno {c : Syscall} (hc : c.delegates = true) (stale : RetvalData)
    (o : Outcome) : (serve (send_data c) stale o).thr_errno = o.errno := by
  cases c with
  | close | shutdown | socket | «open» | openat | epoll_create => cases hc
  | _ => rfl

namespace OriginalDoes

variable {c : Syscall} {o : Outcome} {e : Env}

theorem thr_errno (ho : OriginalDoes c o e) (hc : c.delegates = true) :
    e.recv_data.thr_errno = o.errno := by
  obtain ⟨stale, hrecv⟩ := ho.recv_data
  rw [hrecv, serve_thr_errno hc]

theorem getD_errno (ho : OriginalDoes c o e) (v : CInt) :
    e.errno.getD v = if o.errno = 0 then v else o.errno := by
  rw [ho.errno]
  split <;> rfl

end OriginalDoes

/-! ## Delegated calls -/

/-- `errno` at the end of a delegated wrapper. -/
def Delegation.errno (d : Delegation) (e : Env) (tbl : FdTable) (v : CInt) : CInt :=
  match fdtable_get_by_fd tbl d.fd d.NetorFile with
  | some _ => d.replyErrno e.recv_data v
  | none => e.errno.getD ((d.missErrno v).getD v)

theorem exec_unlock {t : Tid} {e : Env} {w w' : World Tid} {a : Word} {k : Unit → Wrapper Word}
    (h : (Prog.op (.pthread_rwlock .unlock) k : Wrapper Word).exec (sem t) e w = some (a, w')) :
    ∃ l, (k ()).exec (sem t) e { w with lock := l } = some (a, w') := by
  obtain ⟨⟨_, w₁⟩, hlock, h⟩ := Option.bind_eq_some_iff.mp h
  obtain ⟨l, -, hl⟩ := Option.map_eq_some_iff.mp hlock
  cases hl
  exact ⟨l, h⟩

theorem delegated_errno {d : Delegation} {t : Tid} {e : Env} {w w' : World Tid} {a : Word}
    (h : (delegated d).exec (sem t) e w = some (a, w')) :
    w'.errno t = d.errno e w.table (w.errno t) := by
  simp only [delegated, Prog.call_bind, Prog.exec, sem, Option.bind_some] at h
  obtain ⟨⟨_, w₁⟩, hlock, h⟩ := Option.bind_eq_some_iff.mp h
  obtain ⟨l, -, hl⟩ := Option.map_eq_some_iff.mp hlock
  cases hl
  unfold Delegation.errno
  cases hfound : fdtable_get_by_fd w.table d.fd d.NetorFile with
  | some x =>
      rw [hfound] at h
      have hrest : (Prog.op (.pthread_rwlock .unlock) fun _ =>
          .op (.set_errno (d.replyErrno e.recv_data (w.errno t))) fun _ =>
            pure (d.replyResult e.recv_data) : Wrapper Word).exec (sem t) e { w with lock := l } =
          some (a, w') := h
      obtain ⟨l', hend⟩ := exec_unlock hrest
      cases hend
      exact Function.update_self ..
  | none =>
      rw [hfound] at h
      simp only [Option.map_none] at h
      obtain ⟨l', h⟩ := exec_unlock h
      cases hmiss : d.missErrno (w.errno t) with
      | none =>
          rw [hmiss] at h
          cases h
          cases e.errno with
          | none => rfl
          | some v => exact Function.update_self ..
      | some v =>
          rw [hmiss] at h
          cases h
          cases e.errno with
          | none => exact Function.update_self ..
          | some v' => exact Function.update_self ..

/-! ## The other calls -/

/-- `errno` after an operation of the thread. -/
def nextErrno (e : Env) (v : CInt) : (o : Op) → o.Res → CInt
  | .set_errno x, _ => x
  | .original _, _ => e.errno.getD v
  | _, _ => v

/-- The answers that matter for `errno`. -/
def ErrnoAnswers (e : Env) (v : CInt) : (o : Op) → o.Res → Prop
  | .errno, r => r = v
  | .CPART_recv_from_thread _, r => r = e.recv_data
  | _, _ => True

theorem sem_errno {t : Tid} {e : Env} {w w' : World Tid} {o : Op} {r : o.Res}
    (h : sem t e w o = some (r, w')) :
    ErrnoAnswers e (w.errno t) o r ∧ w'.errno t = nextErrno e (w.errno t) o r := by
  cases o with
  | set_errno v =>
      cases h
      exact ⟨trivial, Function.update_self ..⟩
  | original c =>
      cases h
      refine ⟨trivial, ?_⟩
      cases he : e.errno with
      | none => simp [nextErrno, he]
      | some v => simp [nextErrno, he]
  | pthread_rwlock x =>
      obtain ⟨l, -, hl⟩ := Option.map_eq_some_iff.mp h
      cases hl
      exact ⟨trivial, rfl⟩
  | fdtable_add =>
      simp only [sem] at h
      split at h <;> (cases h; exact ⟨trivial, rfl⟩)
  | pthread_create tmp =>
      simp only [sem] at h
      split at h
      · obtain ⟨tbl, -, htbl⟩ := Option.map_eq_some_iff.mp h
        cases htbl
        exact ⟨trivial, rfl⟩
      · cases h
        exact ⟨trivial, rfl⟩
  | set_NetorFile | set_pid | set_thr_fd =>
      unfold sem at h
      obtain ⟨tbl, -, htbl⟩ := Option.map_eq_some_iff.mp h
      cases htbl
      exact ⟨trivial, rfl⟩
  | errno | CPART_recv_from_thread =>
      cases h
      exact ⟨rfl, rfl⟩
  | _ =>
      cases h
      exact ⟨trivial, rfl⟩

/-- From `errno` v the program ends with `errno` x. -/
abbrev EndsWith (e : Env) (x v : CInt) (p : Wrapper Word) : Prop :=
  p.Outline (nextErrno e) (ErrnoAnswers e) (fun _ _ => True) (fun h _ => h = x) v

theorem EndsWith.exec_errno {e : Env} {x : CInt} {p : Wrapper Word} {t : Tid}
    {w w' : World Tid} {a : Word} (hp : EndsWith e x (w.errno t) p)
    (h : p.exec (sem t) e w = some (a, w')) : w'.errno t = x := by
  obtain ⟨v, hv, hx⟩ := hp.exec (R := fun w v => w.errno t = v) (by
    rintro w _ o r w' rfl - ho
    exact sem_errno ho) rfl h
  rw [hv, hx]

variable {e : Env} {x v : CInt}

theorem unlock_finish_ends (ret : CInt) :
    EndsWith e x v (.op (.pthread_rwlock .unlock) fun _ => finish x ret) :=
  ⟨trivial, fun _ _ => ⟨trivial, fun _ _ => rfl⟩⟩

theorem registerFile_ends (ret : CInt) : EndsWith e v v (registerFile ret v) := by
  simp only [registerFile, Prog.call_bind]
  refine ⟨trivial, fun tmp _ => ⟨trivial, fun _ _ => ⟨trivial, fun _ _ => ?_⟩⟩⟩
  exact ⟨trivial, fun _ _ => ⟨trivial, fun _ _ => unlock_finish_ends _⟩⟩

/-- `accept` ends with the original function's error, and with 0 if there is none. -/
theorem accept_ends (socket : CInt) (addr addrlen : Word) (horig : e.errno.getD 0 = x)
    (hthr : e.recv_data.thr_errno = x) : EndsWith e x v (accept socket addr addrlen) := by
  simp only [accept, Prog.call_bind]
  refine ⟨trivial, fun _ _ => ⟨trivial, fun tmp _ => ?_⟩⟩
  cases tmp with
  | none => exact ⟨trivial, fun _ _ => ⟨trivial, fun _ _ => ⟨trivial, fun _ _ => horig⟩⟩⟩
  | some tmp =>
      refine ⟨trivial, fun _ _ => ⟨trivial, fun recv_data hrecv => ?_⟩⟩
      obtain rfl : recv_data = e.recv_data := hrecv
      beta_reduce
      rw [hthr]
      split
      · refine ⟨trivial, fun found _ => ?_⟩
        cases found with
        | some _ => exact unlock_finish_ends _
        | none =>
            refine ⟨trivial, fun tmp2 _ => ⟨trivial, fun _ _ => ⟨trivial, fun _ _ => ?_⟩⟩⟩
            exact ⟨trivial, fun _ _ => ⟨trivial, fun _ _ => unlock_finish_ends _⟩⟩
      · exact unlock_finish_ends _

section NoError

variable (he : e.errno = none)
include he

theorem original_ends {c : Syscall} {f : Word → Word} :
    EndsWith e v v (.op (.original c) fun r => pure (f r)) := by
  refine ⟨trivial, fun _ _ => ?_⟩
  show e.errno.getD v = v
  rw [he]
  rfl

theorem retire_ends (c : Syscall) (fd : CInt) (tmp : Ptr) : EndsWith e v v (retire c fd tmp) := by
  simp only [retire, Prog.call_bind]
  refine ⟨trivial, fun _ _ => ⟨trivial, fun _ _ => ⟨trivial, fun _ _ => ?_⟩⟩⟩
  exact ⟨trivial, fun _ _ => ⟨trivial, fun _ _ => original_ends he⟩⟩

theorem close_ends (fildes : CInt) : EndsWith e v v (close fildes) := by
  simp only [close, Prog.call_bind]
  refine ⟨trivial, fun func_errno hf => ⟨trivial, fun _ _ => ⟨trivial, fun tmp _ => ?_⟩⟩⟩
  obtain rfl : func_errno = v := hf
  cases tmp with
  | none => exact ⟨trivial, fun _ _ => ⟨trivial, fun _ _ => original_ends he⟩⟩
  | some tmp => exact retire_ends he _ _ tmp

theorem shutdown_ends (socket flags : CInt) : EndsWith e v v (shutdown socket flags) := by
  simp only [shutdown, Prog.call_bind]
  refine ⟨trivial, fun _ _ => ⟨trivial, fun tmp _ => ?_⟩⟩
  cases tmp with
  | none => exact ⟨trivial, fun _ _ => original_ends he⟩
  | some tmp => exact retire_ends he _ _ tmp

theorem socket_ends (domain type protocol : CInt) :
    EndsWith e v v (socket domain type protocol) := by
  simp only [socket, Prog.call_bind]
  refine ⟨trivial, fun r _ => ⟨trivial, fun func_errno hf => ?_⟩⟩
  obtain rfl : func_errno = v := by
    rw [show func_errno = e.errno.getD v from hf, he]
    rfl
  refine ⟨trivial, fun _ _ => ⟨trivial, fun found _ => ?_⟩⟩
  beta_reduce
  split
  · exact unlock_finish_ends _
  · refine ⟨trivial, fun num _ => ?_⟩
    beta_reduce
    split
    · refine ⟨trivial, fun tmp _ => ⟨trivial, fun _ _ => ⟨trivial, fun _ _ => ?_⟩⟩⟩
      exact ⟨trivial, fun _ _ => ⟨trivial, fun _ _ => unlock_finish_ends _⟩⟩
    · exact unlock_finish_ends _

/-- The original function leaves the 0 alone, and what was saved comes back. -/
theorem withErrno_ends (c : Syscall) {f : CInt × CInt → Wrapper Word}
    (hf : ∀ ret, EndsWith e v v (f (ret, v))) : EndsWith e v v (withErrno c >>= f) := by
  simp only [withErrno, Prog.call_bind, Prog.op_bind]
  refine ⟨trivial, fun func_errno hfunc => ⟨trivial, fun _ _ => ⟨trivial, fun r _ => ?_⟩⟩⟩
  obtain rfl : func_errno = v := hfunc
  refine ⟨trivial, fun e' he' => ?_⟩
  have hzero : e' = 0 := by
    rw [show e' = e.errno.getD 0 from he', he]
    rfl
  beta_reduce
  rw [if_neg (not_not.mpr hzero)]
  exact ⟨trivial, fun _ _ => hf _⟩

theorem open_ends (path : Word) (flags mode : CInt) :
    EndsWith e v v (open_ path flags mode) := by
  refine withErrno_ends he _ fun ret => ?_
  simp only [Prog.call_bind]
  split
  · exact rfl
  · refine ⟨trivial, fun _ _ => ⟨trivial, fun found _ => ?_⟩⟩
    beta_reduce
    split
    · exact unlock_finish_ends _
    · refine ⟨trivial, fun num _ => ?_⟩
      beta_reduce
      split
      · exact registerFile_ends ret
      · exact unlock_finish_ends _

theorem openat_ends (dirfd : CInt) (pathname : Word) (flags mode : CInt) :
    EndsWith e v v (openat dirfd pathname flags mode) := by
  refine withErrno_ends he _ fun ret => ?_
  simp only [Prog.call_bind]
  refine ⟨trivial, fun func_errno hf => ?_⟩
  obtain rfl : func_errno = v := hf
  refine ⟨trivial, fun _ _ => ⟨trivial, fun found _ => ?_⟩⟩
  beta_reduce
  split
  · exact unlock_finish_ends _
  · split
    · refine ⟨trivial, fun num _ => ?_⟩
      beta_reduce
      split
      · exact registerFile_ends ret
      · exact unlock_finish_ends _
    · exact unlock_finish_ends _

theorem epoll_create_ends (size : CInt) : EndsWith e v v (epoll_create size) := by
  refine withErrno_ends he _ fun ret => ?_
  simp only [registerEpoll, Prog.call_bind]
  refine ⟨trivial, fun _ _ => ⟨trivial, fun found _ => ?_⟩⟩
  beta_reduce
  split
  · exact ⟨trivial, fun _ _ => ⟨trivial, fun _ _ => rfl⟩⟩
  · refine ⟨trivial, fun num _ => ?_⟩
    beta_reduce
    split
    · refine ⟨trivial, fun tmp _ => ⟨trivial, fun _ _ => ⟨trivial, fun _ _ => ?_⟩⟩⟩
      exact ⟨trivial, fun _ _ => ⟨trivial, fun _ _ => unlock_finish_ends _⟩⟩
    · exact unlock_finish_ends _

end NoError

/-! ## Errors -/

theorem Delegation.errno_of_failure {d : Delegation} {c : Syscall} {o : Outcome} {e : Env}
    (ho : OriginalDoes c o e) (herr : o.errno ≠ 0) {v : CInt}
    (hreply : d.replyErrno e.recv_data v = o.errno) (tbl : FdTable) :
    d.errno e tbl v = o.errno := by
  unfold Delegation.errno
  split
  · exact hreply
  · rw [ho.getD_errno, if_neg herr]

/-- **A delegated call reports its error, but for `write`** when it finds an
entry: it then leaves the caller with the `errno` it had. -/
theorem errno_of_failure_iff {t : Tid} {c : Syscall} {o : Outcome} {e : Env} {w w' : World Tid}
    {a : Word} (hc : c.delegates = true) (ho : OriginalDoes c o e) (herr : o.errno ≠ 0)
    (h : (wrapper c).exec (sem t) e w = some (a, w')) :
    w'.errno t = o.errno ↔ ¬ DropsErrno w.table c ∨ w.errno t = o.errno := by
  have hthr := ho.thr_errno hc
  have hor : ∀ v, thrErrnoOr e.recv_data v = o.errno := by
    intro v
    rw [thrErrnoOr, hthr, if_pos herr]
  cases c with
  | close | shutdown | socket | «open» | openat | epoll_create => cases hc
  | accept socket addr addrlen =>
      refine iff_of_true ?_ (.inl id)
      have horig : e.errno.getD 0 = o.errno := by rw [ho.getD_errno, if_neg herr]
      exact (accept_ends socket addr addrlen horig hthr).exec_errno h
  | write fildes buf nbyte =>
      rw [delegated_errno h]
      unfold Delegation.errno
      cases hfound : fdtable_get_by_fd w.table fildes true with
      | some x => simp [DropsErrno, hfound]
      | none =>
          refine iff_of_true ?_ (.inl (by simp [DropsErrno, hfound]))
          show e.errno.getD (w.errno t) = o.errno
          rw [ho.getD_errno, if_neg herr]
  | lseek | read | epoll_ctl | poll | recvfrom | getpeername =>
      refine iff_of_true ?_ (.inl id)
      rw [delegated_errno h, Delegation.errno_of_failure ho herr (hor _)]
  | _ =>
      refine iff_of_true ?_ (.inl id)
      rw [delegated_errno h, Delegation.errno_of_failure ho herr hthr]

/-- Descriptor 7 has an entry, of kind `NetorFile`; every caller's `errno` is 5. -/
def oneEntry (NetorFile : Bool) : World Bool where
  table := { entries := [⟨1, 1, 7, 1, NetorFile⟩], thr_num := 1, nextPtr := 2 }
  errno _ := 5

/-- The original function of `c` does `o`. -/
def outcomeEnv (c : Syscall) (o : Outcome) : Env where
  result := o.result
  errno := if o.errno = 0 then none else some o.errno
  recv_data := serve (send_data c) .zero o

theorem outcomeEnv_does (c : Syscall) (o : Outcome) : OriginalDoes c o (outcomeEnv c o) :=
  ⟨rfl, rfl, .zero, rfl⟩

/-- `read` fails with `EBADF`. -/
theorem errno_of_failed_read :
    ∃ a w', (wrapper (.read 7 0 0)).exec (sem false) (outcomeEnv (.read 7 0 0) ⟨-1, 9⟩)
      (oneEntry true) = some (a, w') ∧ w'.errno false = 9 := by
  have hrun : ((wrapper (.read 7 0 0)).exec (sem false) (outcomeEnv (.read 7 0 0) ⟨-1, 9⟩)
      (oneEntry true)).isSome = true := by
    decide
  obtain ⟨⟨a, w'⟩, h⟩ := Option.isSome_iff_exists.mp hrun
  exact ⟨a, w', h, (errno_of_failure_iff rfl (outcomeEnv_does _ _) (by decide) h).mpr (.inl id)⟩

/-- `write` fails with `EPIPE`, and its caller sees the `errno` it had. -/
theorem errno_lost_by_write :
    ¬ ∀ (t : Bool) (c : Syscall) (o : Outcome) (e : Env) (w w' : World Bool) (a : Word),
      c.delegates = true → OriginalDoes c o e → o.result = -1 → o.errno ≠ 0 →
      (wrapper c).exec (sem t) e w = some (a, w') → w'.errno t = o.errno := by
  intro h
  have hrun : ((wrapper (.write 7 0 0)).exec (sem false) (outcomeEnv (.write 7 0 0) ⟨-1, 32⟩)
      (oneEntry true)).map (fun x => x.2.errno false) = some 5 := by
    decide
  obtain ⟨⟨a, w'⟩, hexec, herrno⟩ := Option.map_eq_some_iff.mp hrun
  have heq := h false _ ⟨-1, 32⟩ _ _ w' a rfl (outcomeEnv_does _ _) rfl (by decide) hexec
  rw [show w'.errno false = 5 from herrno] at heq
  revert heq
  decide

/-! ## Success -/

theorem Delegation.errno_kept {d : Delegation} {e : Env} (he : e.errno = none) {v : CInt}
    (hreply : d.replyErrno e.recv_data v = v) (hmiss : (d.missErrno v).getD v = v)
    (tbl : FdTable) : d.errno e tbl v = v := by
  unfold Delegation.errno
  split
  · exact hreply
  · rw [he, Option.getD_none, hmiss]

theorem Delegation.errno_reset {d : Delegation} {e : Env} (he : e.errno = none) {v : CInt}
    (hreply : d.replyErrno e.recv_data v = 0) (hmiss : d.missErrno v = some v) (tbl : FdTable) :
    d.errno e tbl v = v ↔ ¬ (fdtable_get_by_fd tbl d.fd d.NetorFile).isSome ∨ v = 0 := by
  unfold Delegation.errno
  cases fdtable_get_by_fd tbl d.fd d.NetorFile with
  | some x =>
      show d.replyErrno e.recv_data v = v ↔ _
      rw [hreply]
      simp only [Option.isSome_some, not_true_eq_false, false_or]
      exact eq_comm
  | none => simp [he, hmiss]

/-- **A call that sets no error keeps the caller's `errno`, but for the
wrappers that reset it**: these end with 0. -/
theorem errno_of_success_iff {t : Tid} {c : Syscall} {o : Outcome} {e : Env} {w w' : World Tid}
    {a : Word} (ho : OriginalDoes c o e) (herr : o.errno = 0)
    (h : (wrapper c).exec (sem t) e w = some (a, w')) :
    w'.errno t = w.errno t ↔ ¬ ResetsErrno w.table c ∨ w.errno t = 0 := by
  have he : e.errno = none := by rw [ho.errno, if_pos herr]
  have hthr : c.delegates = true → e.recv_data.thr_errno = 0 :=
    fun hc => (ho.thr_errno hc).trans herr
  have hor : c.delegates = true → ∀ v, thrErrnoOr e.recv_data v = v := by
    intro hc v
    rw [thrErrnoOr, hthr hc, if_neg (not_not.mpr rfl)]
  cases c with
  | close => exact iff_of_true ((close_ends he _).exec_errno h) (.inl id)
  | shutdown => exact iff_of_true ((shutdown_ends he _ _).exec_errno h) (.inl id)
  | socket => exact iff_of_true ((socket_ends he _ _ _).exec_errno h) (.inl id)
  | «open» => exact iff_of_true ((open_ends he _ _ _).exec_errno h) (.inl id)
  | openat => exact iff_of_true ((openat_ends he _ _ _ _).exec_errno h) (.inl id)
  | epoll_create => exact iff_of_true ((epoll_create_ends he _).exec_errno h) (.inl id)
  | accept =>
      rw [(accept_ends _ _ _ (by rw [he]; rfl) (hthr rfl)).exec_errno h]
      simp only [ResetsErrno, not_true_eq_false, false_or]
      exact eq_comm
  | sendmsg =>
      have hzero : w'.errno t = 0 := by
        rw [delegated_errno h]
        unfold Delegation.errno
        split
        · exact hthr rfl
        · rw [he]
          rfl
      rw [hzero]
      simp only [ResetsErrno, not_true_eq_false, false_or]
      exact eq_comm
  | lseek | read | epoll_ctl | poll | recvfrom | getpeername =>
      rw [delegated_errno h, Delegation.errno_kept he (hor rfl _) rfl]
      exact iff_of_true rfl (.inl id)
  | write =>
      rw [delegated_errno h, Delegation.errno_kept he rfl rfl]
      exact iff_of_true rfl (.inl id)
  | _ =>
      rw [delegated_errno h]
      exact Delegation.errno_reset he (hthr rfl) rfl _

/-- `read` succeeds. -/
theorem errno_of_successful_read :
    ∃ a w', (wrapper (.read 7 0 0)).exec (sem false) (outcomeEnv (.read 7 0 0) ⟨100, 0⟩)
      (oneEntry true) = some (a, w') ∧ w'.errno false = (oneEntry true).errno false := by
  have hrun : ((wrapper (.read 7 0 0)).exec (sem false) (outcomeEnv (.read 7 0 0) ⟨100, 0⟩)
      (oneEntry true)).isSome = true := by
    decide
  obtain ⟨⟨a, w'⟩, h⟩ := Option.isSome_iff_exists.mp hrun
  exact ⟨a, w', h, (errno_of_success_iff (outcomeEnv_does _ _) rfl h).mpr (.inl id)⟩

/-- `bind` succeeds, and its caller's `errno` is 0. -/
theorem errno_reset_by_bind :
    ¬ ∀ (t : Bool) (c : Syscall) (o : Outcome) (e : Env) (w w' : World Bool) (a : Word),
      OriginalDoes c o e → o.result = 0 → o.errno = 0 →
      (wrapper c).exec (sem t) e w = some (a, w') → w'.errno t = w.errno t := by
  intro h
  have hrun : ((wrapper (.bind 7 0 0)).exec (sem false) (outcomeEnv (.bind 7 0 0) ⟨0, 0⟩)
      (oneEntry false)).map (fun x => x.2.errno false) = some 0 := by
    decide
  obtain ⟨⟨a, w'⟩, hexec, herrno⟩ := Option.map_eq_some_iff.mp hrun
  have heq := h false _ ⟨0, 0⟩ _ _ w' a (outcomeEnv_does _ _) rfl rfl hexec
  rw [show w'.errno false = 0 from herrno] at heq
  revert heq
  decide

end CorePartitioning.Preload
