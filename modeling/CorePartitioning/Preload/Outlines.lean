import CorePartitioning.Lib.Outline
import CorePartitioning.Preload.Wrappers

/-!
# ld_preload.c — the order in which a wrapper does things

One proof outline for all wrappers. The annotation records what a call has
done so far: the mode it took `table_rwlock` in, the entry it found and how
far the exchange with that entry's thread is, the descriptor it was given
and the entry it has added. `Ann.pre` is what every operation can rely on.
Nothing is assumed about the answers, so the outline holds of the texts
alone; what it means for the shared state is said where it is used.
-/

namespace CorePartitioning.Preload

/-! ## Kinds of calls -/

/-- The descriptor a call is about, the one its wrapper looks up. -/
def Syscall.descriptor : Syscall → Option CInt
  | .socket .. | .open .. | .openat .. | .epoll_create .. => none
  | .close fd | .lseek fd .. | .read fd .. | .write fd .. | .bind fd .. | .listen fd ..
  | .accept fd .. | .connect fd .. | .send fd .. | .recv fd .. | .setsockopt fd ..
  | .getsockopt fd .. | .epoll_ctl fd .. | .sendto fd .. | .sendmsg fd .. | .recvfrom fd ..
  | .recvmsg fd .. | .getsockname fd .. | .getpeername fd .. | .shutdown fd .. => some fd
  | .poll _ fds nfds _ => some (fds (nfds - 1).toNat)

/-- The original returns a new descriptor. -/
def Syscall.creates : Syscall → Bool
  | .socket .. | .open .. | .openat .. | .epoll_create .. | .accept .. => true
  | _ => false

/-- The request ends the entry's thread. -/
def Syscall.terminates : Syscall → Bool
  | .close .. | .shutdown .. => true
  | _ => false

/-- The wrapper inserts an entry under the read lock. -/
def Syscall.insertsUnderRead : Syscall → Bool
  | .accept .. | .epoll_create .. => true
  | _ => false

/-- The wrapper can lock again where the others unlock. -/
def Syscall.relocks : Syscall → Bool
  | .epoll_create .. => true
  | _ => false

/-- The call's result type is 64 bits wide (`ssize_t`). -/
def Syscall.wide : Syscall → Bool
  | .read .. | .write .. | .send .. | .recv .. | .sendto .. | .sendmsg .. | .recvfrom ..
  | .recvmsg .. => true
  | _ => false

/-- What a wrapper returns for its original call's result. The `off_t` of
`lseek` is 64 bits wide when the caller executes the call itself. -/
def Syscall.origValue (c : Syscall) (w : Word) : Word :=
  match c with
  | .lseek .. => w
  | c => if c.wide then w else intResult w

/-- What a wrapper returns for a response of the entry's thread. -/
def Syscall.replyValue (c : Syscall) (r : RetvalData) : Word :=
  if c.wide then returnSize r else returnValue r

/-! ## Annotations -/

/-- How a call holds `table_rwlock`. -/
inductive Mode
  | none | read | write
  deriving DecidableEq

/-- How far the exchange with an entry's thread is. -/
inductive Talk
  | idle | found | asked | answered | joined
  deriving DecidableEq

structure Ann where
  call : Option Syscall := none
  mode : Mode := .none
  /-- the entry found, and the descriptor it was looked up by -/
  entry : Option (Ptr × CInt) := none
  talk : Talk := .idle
  /-- the descriptor found to have no entry since the lock was taken and the
  last response received, or whose entry was deleted -/
  missed : Option CInt := none
  room : Bool := false
  /-- the new descriptor -/
  fresh : Option CInt := none
  /-- the entry added, and whether it has its descriptor and its thread -/
  tmp : Option Ptr := none
  named : Bool := false
  started : Bool := false
  orig : Option Word := none
  reply : Option RetvalData := none

/-- A result as a descriptor. -/
def newDescriptor (ret : CInt) : Option CInt := if 0 ≤ ret.toInt then some ret else none

def Ann.start (c : Syscall) : Ann := { call := some c }

def Ann.lookup (h : Ann) (fd : CInt) : Option Ptr → Ann
  | some p => { h with entry := some (p, fd), talk := .found }
  | none => { h with entry := none, talk := .idle }

/-- A reader only asks whether there is an entry. -/
def Ann.lookupAll (h : Ann) (fd : CInt) : Option Ptr → Ann
  | some p => if h.mode = .write then h.lookup fd (some p) else h.lookup fd none
  | none => { h.lookup fd none with missed := some fd }

def Ann.next (h : Ann) : (o : Op) → o.Res → Ann
  | .errno, _ | .set_errno _, _ | .set_NetorFile _ _, _ | .set_pid _, _ => h
  | .pthread_create _, _ => { h with started := true }
  | .pthread_rwlock .rdlock, _ => { h with mode := .read, room := false, missed := none }
  | .pthread_rwlock .wrlock, _ => { h with mode := .write, room := false, missed := none }
  | .pthread_rwlock .unlock, _ =>
      { h with
        mode := .none, entry := none, talk := .idle, room := false, tmp := none, named := false
        started := false }
  | .fdtable_get_by_fd_all fd, r => h.lookupAll fd r
  | .fdtable_get_by_fd fd _, r => h.lookup fd r
  | .fdtable_getnumber, num => { h with room := num < MAXTHREAD }
  | .fdtable_add, r => { h with tmp := r, named := false, started := false, room := false }
  | .fdtable_delete fd, _ => { h with entry := none, talk := .idle, missed := some fd }
  | .set_thr_fd _ _, _ => { h with named := true }
  | .pthread_join _, _ => { h with talk := .joined }
  | .CPART_send_to_thread _ _, _ => { h with talk := .asked }
  | .CPART_recv_from_thread _, r =>
      { h with
        talk := .answered
        missed := none
        reply := some r
        fresh :=
          if h.call.any Syscall.creates && 0 < r.return_value.toInt then
            some r.return_value
          else h.fresh }
  | .original c, w =>
      { h with
        orig := some w
        fresh := if c.creates then newDescriptor (w.setWidth 32) else h.fresh }

/-! What the operations can rely on. -/

structure Ann.MayUnlock (h : Ann) : Prop where
  mode : h.mode ≠ .none
  complete : h.tmp ≠ none → h.named = true ∧ h.started = true
  talk : h.talk = .idle ∨ h.talk = .found ∨ h.mode = .read ∧ h.talk = .answered

structure Ann.MayLookup (h : Ann) : Prop where
  mode : h.mode ≠ .none
  tmp : h.tmp = none
  talk : h.talk = .idle ∨ h.mode = .read ∧ h.talk = .answered

/-- The table is changed, but for a deletion. -/
structure Ann.MayWrite (h : Ann) : Prop where
  mode : h.mode ≠ .none
  entry : h.entry = none

structure Ann.MayAdd (h : Ann) : Prop extends h.MayWrite where
  tmp : h.tmp = none
  fresh : ∃ fd, h.fresh = some fd ∧ h.missed = some fd
  creates : h.call.any Syscall.creates = true
  room : h.mode = .write ∧ h.room = true ∨ h.call.any Syscall.insertsUnderRead = true

structure Ann.MayName (h : Ann) (tmp : Option Ptr) (fd : CInt) : Prop extends h.MayWrite where
  tmp : tmp = h.tmp
  named : h.named = false
  fresh : h.fresh = some fd
  nonneg : 0 ≤ fd.toInt

structure Ann.MayStart (h : Ann) (tmp : Option Ptr) : Prop extends h.MayWrite where
  tmp : tmp = h.tmp
  started : h.started = false

/-- Call `c` turns to the entry at `p`, which it found by its descriptor `fd`. -/
structure Ann.Asks (h : Ann) (p : Ptr) (c : Syscall) (fd : CInt) : Prop where
  call : h.call = some c
  descriptor : c.descriptor = some fd
  entry : h.entry = some (p, fd)
  mode : h.mode = if c.terminates then .write else .read
  orig : h.orig = none
  reply : h.reply = none
  fresh : h.fresh = none

structure Ann.MayAsk (h : Ann) (args : ArgsData) (p : Ptr) (c : Syscall) (fd : CInt) : Prop extends
    h.Asks p c fd where
  args : args = send_data c
  talk : h.talk = .found

structure Ann.MayPerform (h : Ann) (c : Syscall) : Prop where
  call : h.call = some c
  mode : h.mode = .none
  missed : c.terminates = true → h.missed = c.descriptor
  orig : h.orig = none
  reply : c.terminates = false → h.reply = none
  fresh : h.fresh = none

def Ann.pre (h : Ann) : Op → Prop
  | .errno | .set_errno _ => True
  | .set_NetorFile _ _ | .set_pid _ => h.MayWrite
  | .pthread_rwlock .rdlock =>
      h.mode = .none ∨ h.call.any Syscall.relocks = true ∧ h.mode = .read ∧ h.tmp = none
  | .pthread_rwlock .wrlock => h.mode = .none
  | .pthread_rwlock .unlock => h.MayUnlock
  | .fdtable_get_by_fd_all _ => h.MayLookup
  | .fdtable_get_by_fd fd _ =>
      h.MayLookup ∧ h.mode = .read ∧ h.call.bind Syscall.descriptor = some fd
  | .fdtable_getnumber => h.mode ≠ .none
  | .fdtable_add => h.MayAdd
  | .set_thr_fd tmp fd => h.MayName tmp fd
  | .pthread_create tmp => h.MayStart tmp
  | .CPART_send_to_thread args p => ∃ c fd, h.MayAsk args p c fd
  | .CPART_recv_from_thread p => ∃ fd, h.entry = some (p, fd) ∧ h.talk = .asked
  | .pthread_join p => ∃ fd, h.entry = some (p, fd) ∧ h.talk = .answered ∧ h.mode = .write
  | .fdtable_delete fd => ∃ p, h.entry = some (p, fd) ∧ h.talk = .joined ∧ h.mode = .write
  | .original c => h.MayPerform c

/-- The value of call `c` that the annotation accounts for. -/
def Ann.Returns (h : Ann) (c : Syscall) (a : Word) : Prop :=
  (∃ w, h.orig = some w ∧ a = c.origValue w) ∨
    (c.terminates = false ∧ h.orig = none ∧ ∃ r, h.reply = some r ∧ a = c.replyValue r)

/-- Nothing is left half done. -/
structure Ann.Quiet (h : Ann) : Prop where
  mode : h.mode = .none ∨ h.call.any Syscall.relocks = true ∧ h.mode = .read
  entry : h.entry = none
  talk : h.talk = .idle
  tmp : h.tmp = none

/-- How a wrapper ends and what it returns: a descriptor is the new one. -/
def Ann.post (h : Ann) (a : Word) : Prop :=
  h.Quiet ∧ ∃ c, h.call = some c ∧ h.Returns c a ∧
    (c.creates = true → ∀ fd : CInt, 0 < fd.toInt → (a = fd.signExtend 64 ↔ h.fresh = some fd))

theorem Ann.Quiet.mode_ne {h : Ann} (hq : h.Quiet) : h.mode ≠ .write := by
  rcases hq.mode with hm | ⟨-, hm⟩ <;> rw [hm] <;> nofun

theorem Ann.quiet_unlock (h : Ann) : (h.next (.pthread_rwlock .unlock) ()).Quiet :=
  ⟨.inl rfl, rfl, rfl, rfl⟩

/-! ## The texts -/

/-- The program follows the order from annotation `h` on. -/
abbrev Follows (h : Ann) (p : Wrapper Word) : Prop :=
  p.Outline Ann.next (fun _ _ _ => True) Ann.pre Ann.post h

/-- A delegated wrapper of `c` returns what the type of `c` says. -/
structure Delegation.Regular (d : Delegation) (c : Syscall) : Prop where
  call : d.call = c
  descriptor : c.descriptor = some d.fd
  terminates : c.terminates = false
  creates : c.creates = false
  missResult : d.missResult = c.origValue
  replyResult : d.replyResult = c.replyValue

theorem delegated_follows {d : Delegation} {c : Syscall} (hd : d.Regular c) :
    Follows (.start c) (delegated d) := by
  obtain rfl := hd.call
  simp only [delegated, Prog.call_bind]
  refine ⟨trivial, fun func_errno _ => ⟨.inl rfl, fun _ _ => ?_⟩⟩
  refine ⟨⟨⟨nofun, rfl, .inl rfl⟩, rfl, hd.descriptor⟩, fun tmp _ => ?_⟩
  cases tmp with
  | none =>
      refine ⟨⟨nofun, nofun, .inl rfl⟩, fun _ _ => ?_⟩
      have horig : ∀ h : Ann, h.MayPerform d.call → h.Quiet →
          Follows h (.op (.original d.call) fun r => pure (d.missResult r)) := by
        intro h hp hq
        refine ⟨hp, fun r _ => ⟨⟨hq.mode, hq.entry, hq.talk, hq.tmp⟩, ?_⟩⟩
        refine ⟨d.call, hp.call, .inl ⟨r, rfl, ?_⟩, ?_⟩
        · rw [hd.missResult]
        · simp [hd.creates]
      have hp : ∀ h : Ann, h.call = some d.call → h.mode = .none → h.orig = none →
          h.reply = none → h.fresh = none → h.MayPerform d.call :=
        fun h hc hm ho hr hf => ⟨hc, hm, by simp [hd.terminates], ho, fun _ => hr, hf⟩
      cases d.missErrno func_errno with
      | none => exact horig _ (hp _ rfl rfl rfl rfl rfl) (Ann.quiet_unlock _)
      | some e =>
          exact ⟨trivial, fun _ _ => horig _ (hp _ rfl rfl rfl rfl rfl) (Ann.quiet_unlock _)⟩
  | some tmp =>
      have hask : Ann.MayAsk { Ann.start d.call with
          mode := .read, entry := some (tmp, d.fd), talk := .found } (send_data d.call) tmp
          d.call d.fd :=
        ⟨⟨rfl, hd.descriptor, rfl, by rw [hd.terminates]; rfl, rfl, rfl, rfl⟩, rfl, rfl⟩
      refine ⟨⟨d.call, d.fd, hask⟩, fun _ _ => ⟨⟨d.fd, rfl, rfl⟩, fun recv_data _ => ?_⟩⟩
      refine ⟨⟨nofun, nofun, .inr (.inr ⟨rfl, rfl⟩)⟩, fun _ _ => ⟨trivial, fun _ _ => ?_⟩⟩
      refine ⟨Ann.quiet_unlock _, d.call, rfl, ?_, by simp [hd.creates]⟩
      refine .inr ⟨hd.terminates, rfl, recv_data, rfl, ?_⟩
      rw [hd.replyResult]

theorem retire_follows {c : Syscall} {fd : CInt} (hc : c.descriptor = some fd)
    (ht : c.terminates = true) (hcr : c.creates = false) (hv : c.origValue = intResult)
    (tmp : Ptr) :
    Follows { Ann.start c with mode := .write, entry := some (tmp, fd), talk := .found }
      (retire c fd tmp) := by
  have hnew : ∀ recv_data : RetvalData,
      (((Ann.start c).call.any Syscall.creates && 0 < recv_data.return_value.toInt) = true) ↔
        False := by
    simp [Ann.start, hcr]
  simp only [retire, Prog.call_bind]
  refine ⟨⟨c, fd, ⟨rfl, hc, rfl, by rw [ht]; rfl, rfl, rfl, rfl⟩, rfl, rfl⟩, fun _ _ => ?_⟩
  refine ⟨⟨fd, rfl, rfl⟩, fun recv_data _ => ⟨⟨fd, rfl, rfl, rfl⟩, fun _ _ => ?_⟩⟩
  refine ⟨⟨tmp, rfl, rfl, rfl⟩, fun _ _ => ⟨⟨nofun, nofun, .inl rfl⟩, fun _ _ => ?_⟩⟩
  refine ⟨⟨rfl, rfl, fun _ => hc.symm, rfl, by simp [ht], if_neg (hnew recv_data).mp⟩,
    fun r _ => ⟨⟨.inl rfl, rfl, rfl, rfl⟩, ?_⟩⟩
  refine ⟨c, rfl, .inl ⟨r, rfl, ?_⟩, ?_⟩
  · rw [hv]
  · simp [hcr]

theorem close_follows (fildes : CInt) : Follows (.start (.close fildes)) (close fildes) := by
  simp only [close, Prog.call_bind]
  refine ⟨trivial, fun func_errno _ => ⟨rfl, fun _ _ => ?_⟩⟩
  refine ⟨⟨nofun, rfl, .inl rfl⟩, fun tmp _ => ?_⟩
  cases tmp with
  | none =>
      refine ⟨⟨nofun, nofun, .inl rfl⟩, fun _ _ => ⟨trivial, fun _ _ => ?_⟩⟩
      refine ⟨⟨rfl, rfl, fun _ => rfl, rfl, fun _ => rfl, rfl⟩, fun r _ => ?_⟩
      exact ⟨⟨.inl rfl, rfl, rfl, rfl⟩, _, rfl, .inl ⟨r, rfl, rfl⟩, nofun⟩
  | some tmp => exact retire_follows rfl rfl rfl rfl tmp

theorem shutdown_follows (socket flags : CInt) :
    Follows (.start (.shutdown socket flags)) (shutdown socket flags) := by
  simp only [shutdown, Prog.call_bind]
  refine ⟨rfl, fun _ _ => ⟨⟨nofun, rfl, .inl rfl⟩, fun tmp _ => ?_⟩⟩
  cases tmp with
  | none =>
      refine ⟨⟨nofun, nofun, .inl rfl⟩, fun _ _ => ?_⟩
      refine ⟨⟨rfl, rfl, fun _ => rfl, rfl, fun _ => rfl, rfl⟩, fun r _ => ?_⟩
      exact ⟨⟨.inl rfl, rfl, rfl, rfl⟩, _, rfl, .inl ⟨r, rfl, rfl⟩, nofun⟩
  | some tmp => exact retire_follows rfl rfl rfl rfl tmp

theorem newDescriptor_eq {ret fd : CInt} (h : newDescriptor ret = some fd) :
    fd = ret ∧ 0 ≤ ret.toInt := by
  unfold newDescriptor at h
  split at h
  · exact ⟨(Option.some.inj h).symm, ‹_›⟩
  · cases h

/-- A call with the result `ret`. -/
structure Given (h : Ann) (c : Syscall) (ret : CInt) : Prop where
  call : h.call = some c
  fresh : ∀ fd, h.fresh = some fd → fd = ret
  positive : 0 < ret.toInt → h.fresh = some ret
  value : h.Returns c (ret.signExtend 64)

/-- The returned value tells the descriptor. -/
theorem Given.value_iff {h : Ann} {c : Syscall} {ret : CInt} (hg : Given h c ret) {fd : CInt}
    (hfd : 0 < fd.toInt) : ret.signExtend 64 = fd.signExtend 64 ↔ h.fresh = some fd := by
  constructor
  · intro heq
    have hint : ret.toInt = fd.toInt := by
      rw [← BitVec.toInt_signExtend_of_le (v := 64) (show 32 ≤ 64 by decide), heq,
        BitVec.toInt_signExtend_of_le (by decide)]
    rw [← BitVec.eq_of_toInt_eq hint]
    exact hg.positive (by omega)
  · intro hf
    rw [hg.fresh fd hf]

/-- The way out. -/
theorem finish_follows {h : Ann} {c : Syscall} {ret : CInt} (hg : Given h c ret)
    (hq : h.Quiet) (func_errno : CInt) : Follows h (finish func_errno ret) :=
  ⟨trivial, fun _ _ => ⟨hq, c, hg.call, hg.value, fun _ _ => hg.value_iff⟩⟩

theorem unlock_finish_follows {h : Ann} {c : Syscall} {ret : CInt} (hg : Given h c ret)
    (hu : h.MayUnlock) (func_errno : CInt) :
    Follows h (.op (.pthread_rwlock .unlock) fun _ => finish func_errno ret) :=
  have hg' : Given (h.next (.pthread_rwlock .unlock) ()) c ret :=
    ⟨hg.call, hg.fresh, hg.positive, hg.value⟩
  ⟨hu, fun _ _ => finish_follows hg' h.quiet_unlock func_errno⟩

/-- A call about to add the entry of its new descriptor. -/
structure Ready (h : Ann) (c : Syscall) (ret : CInt) : Prop extends Given h c ret where
  new : h.fresh = some ret
  mode : h.mode ≠ .none
  entry : h.entry = none
  talk : h.talk = .idle
  tmp : h.tmp = none
  nonneg : 0 ≤ ret.toInt
  missed : h.missed = some ret
  creates : c.creates = true
  room : h.mode = .write ∧ h.room = true ∨ c.insertsUnderRead = true

theorem Ready.add {h : Ann} {c : Syscall} {ret : CInt} (hr : Ready h c ret) :
    h.pre .fdtable_add :=
  ⟨⟨hr.mode, hr.entry⟩, hr.tmp, ⟨ret, hr.new, hr.missed⟩, by simp [hr.call, hr.creates],
    by simpa [hr.call] using hr.room⟩

/-- The descriptor is written before or after the thread is created. -/
theorem Ready.set {h : Ann} {c : Syscall} {ret : CInt} (hr : Ready h c ret) (tmp : Option Ptr)
    (started : Bool) :
    ({ h with tmp := tmp, named := false, started := started, room := false } : Ann).pre
      (.set_thr_fd tmp ret) :=
  ⟨⟨hr.mode, hr.entry⟩, rfl, rfl, hr.new, hr.nonneg⟩

/-- The third way out. -/
theorem Ready.unlock_finish {h : Ann} {c : Syscall} {ret : CInt} (hr : Ready h c ret)
    {tmp : Option Ptr} (func_errno : CInt) :
    Follows { h with tmp := tmp, named := true, started := true, room := false }
      (.op (.pthread_rwlock .unlock) fun _ => finish func_errno ret) :=
  have hg : Given { h with tmp := tmp, named := true, started := true, room := false } c ret :=
    ⟨hr.call, hr.fresh, hr.positive, hr.value⟩
  unlock_finish_follows hg ⟨hr.mode, fun _ => ⟨rfl, rfl⟩, .inl hr.talk⟩ func_errno

theorem registerFile_follows {h : Ann} {c : Syscall} {ret : CInt} (hr : Ready h c ret)
    (func_errno : CInt) : Follows h (registerFile ret func_errno) := by
  simp only [registerFile, Prog.call_bind]
  refine ⟨hr.add, fun tmp _ => ⟨⟨hr.mode, hr.entry⟩, fun _ _ => ?_⟩⟩
  refine ⟨⟨hr.mode, hr.entry⟩, fun _ _ => ⟨hr.set tmp false, fun _ _ => ?_⟩⟩
  refine ⟨⟨⟨hr.mode, hr.entry⟩, rfl, rfl⟩, fun _ _ => ?_⟩
  exact hr.unlock_finish _

/-- A call that has its new descriptor and has not added an entry. Only a
writer remembers the entry it found. -/
structure Fresh (h : Ann) (c : Syscall) (ret : CInt) (m : Mode) : Prop extends Given h c ret where
  new : 0 ≤ ret.toInt → h.fresh = some ret
  mode : h.mode = m
  talk : h.talk = .idle ∧ h.entry = none ∨ h.talk = .found ∧ m = .write
  tmp : h.tmp = none

/-- The lock, the lookup and the first way out. -/
theorem lookup_follows {h : Ann} {c : Syscall} {ret : CInt} (hf : Fresh h c ret .none)
    {x : RwLock.Op} {m : Mode} (hx : x = .rdlock ∧ m = .read ∨ x = .wrlock ∧ m = .write)
    {bad good : Wrapper Word} (hbad : ∀ h, Fresh h c ret m → Follows h bad)
    (hgood : ∀ h, Fresh h c ret m → h.talk = .idle ∧ h.entry = none → h.missed = some ret →
      0 ≤ ret.toInt → Follows h good) :
    Follows h (.op (.pthread_rwlock x) fun _ => .op (.fdtable_get_by_fd_all ret) fun found =>
      if found.isSome ∨ ret.toInt < 0 then bad else good) := by
  obtain ⟨⟨hc, hfr, hp, hv⟩, hnew, hmode, hta, ht⟩ := hf
  have hidle : h.talk = .idle ∧ h.entry = none := by
    rcases hta with hidle | ⟨-, hm⟩
    · exact hidle
    · cases hm
  have hlocked : Fresh (h.next (.pthread_rwlock x) ()) c ret m := by
    rcases hx with ⟨rfl, rfl⟩ | ⟨rfl, rfl⟩ <;>
      exact ⟨⟨hc, hfr, hp, hv⟩, hnew, rfl, .inl hidle, ht⟩
  have hidle' : (h.next (.pthread_rwlock x) ()).talk = .idle := by
    rcases hx with ⟨rfl, -⟩ | ⟨rfl, -⟩ <;> exact hidle.1
  have hm : (h.next (.pthread_rwlock x) ()).mode ≠ .none := by
    rw [hlocked.mode]
    rcases hx with ⟨-, rfl⟩ | ⟨-, rfl⟩ <;> nofun
  have hpre : h.pre (.pthread_rwlock x) := by
    rcases hx with ⟨rfl, -⟩ | ⟨rfl, -⟩
    · exact .inl hmode
    · exact hmode
  refine ⟨hpre, fun _ _ => ⟨⟨hm, hlocked.tmp, .inl hidle'⟩, fun found _ => ?_⟩⟩
  obtain ⟨⟨hc, hfr, hp, hv⟩, hnew, hmode, -, ht⟩ := hlocked
  generalize h.next (.pthread_rwlock x) () = h at hc hfr hp hv hnew hmode ht
  show Follows (h.lookupAll ret found) (if found.isSome ∨ ret.toInt < 0 then bad else good)
  cases found with
  | some p =>
      rw [if_pos (.inl rfl : (some p).isSome = true ∨ ret.toInt < 0)]
      by_cases hw : h.mode = .write
      · rw [Ann.lookupAll, if_pos hw]
        exact hbad _ ⟨⟨hc, hfr, hp, hv⟩, hnew, hmode, .inr ⟨rfl, hmode ▸ hw⟩, ht⟩
      · rw [Ann.lookupAll, if_neg hw]
        exact hbad _ ⟨⟨hc, hfr, hp, hv⟩, hnew, hmode, .inl ⟨rfl, rfl⟩, ht⟩
  | none =>
      have hf : Fresh (h.lookupAll ret none) c ret m :=
        ⟨⟨hc, hfr, hp, hv⟩, hnew, hmode, .inl ⟨rfl, rfl⟩, ht⟩
      split
      · exact hbad _ hf
      · rename_i h0
        exact hgood _ hf ⟨rfl, rfl⟩ rfl (by simpa using h0)

/-- The admission test and its way out. -/
theorem room_follows {h : Ann} {c : Syscall} {ret : CInt} {m : Mode} (hf : Fresh h c ret m)
    (hidle : h.talk = .idle ∧ h.entry = none) (hcr : c.creates = true)
    (hm : m = .write ∨ m ≠ .none ∧ c.insertsUnderRead = true) (hmiss : h.missed = some ret)
    (h0 : 0 ≤ ret.toInt) {full reg : Wrapper Word} (hfull : ∀ h, Fresh h c ret m → Follows h full)
    (hreg : ∀ h, Ready h c ret → Follows h reg) :
    Follows h (.op .fdtable_getnumber fun num => if num < MAXTHREAD then reg else full) := by
  obtain ⟨⟨hc, hfr, hp, hv⟩, hnew, hmode, -, ht⟩ := hf
  have hne : h.mode ≠ .none := by
    rw [hmode]
    rcases hm with rfl | ⟨hne, -⟩
    · nofun
    · exact hne
  refine ⟨hne, fun num _ => ?_⟩
  beta_reduce
  split
  · rename_i hroom
    refine hreg _ ⟨⟨hc, hfr, hp, hv⟩, hnew h0, hne, hidle.2, hidle.1, ht, h0, hmiss, hcr, ?_⟩
    rcases hm with rfl | ⟨-, hu⟩
    · exact .inl ⟨hmode, decide_eq_true hroom⟩
    · exact .inr hu
  · exact hfull _ ⟨⟨hc, hfr, hp, hv⟩, hnew, hmode, .inl hidle, ht⟩

/-- The original call has returned. -/
theorem given_original {c : Syscall} (hv : c.origValue = intResult) (hcr : c.creates = true)
    (r : Word) : Fresh ((Ann.start c).next (.original c) r) c (r.setWidth 32) .none := by
  have hnew : ((Ann.start c).next (.original c) r).fresh = newDescriptor (r.setWidth 32) := by
    simp [Ann.next, hcr]
  have hnonneg : 0 ≤ (r.setWidth 32).toInt →
      ((Ann.start c).next (.original c) r).fresh = some (r.setWidth 32) := by
    intro h0
    rw [hnew, newDescriptor, if_pos h0]
  refine ⟨⟨rfl, ?_, fun h0 => hnonneg (by omega), .inl ⟨r, rfl, by rw [hv]; rfl⟩⟩, hnonneg, rfl,
    .inl ⟨rfl, rfl⟩, rfl⟩
  intro fd hfd
  rw [hnew] at hfd
  exact (newDescriptor_eq hfd).1

/-- The original call with its `errno` bookkeeping. -/
theorem withErrno_follows {c : Syscall} (hv : c.origValue = intResult) (hcr : c.creates = true)
    (ht : c.terminates = false) {f : CInt × CInt → Wrapper Word}
    (hf : ∀ h ret func_errno, Fresh h c ret .none → Follows h (f (ret, func_errno))) :
    Follows (.start c) (withErrno c >>= f) := by
  simp only [withErrno, Prog.call_bind, Prog.op_bind]
  refine ⟨trivial, fun func_errno _ => ⟨trivial, fun _ _ => ?_⟩⟩
  refine ⟨⟨rfl, rfl, by simp [ht], rfl, fun _ => rfl, rfl⟩, fun r _ => ⟨trivial, fun e _ => ?_⟩⟩
  have hg : Fresh ((Ann.start c).next (.original c) r) c (r.setWidth 32) .none :=
    given_original hv hcr r
  beta_reduce
  split
  · exact hf _ _ _ hg
  · exact ⟨trivial, fun _ _ => hf _ _ _ hg⟩

/-- The second way out. -/
theorem Fresh.unlock_finish {h : Ann} {c : Syscall} {ret : CInt} {m : Mode}
    (hf : Fresh h c ret m) (hm : m ≠ .none) (func_errno : CInt) :
    Follows h (.op (.pthread_rwlock .unlock) fun _ => finish func_errno ret) := by
  refine unlock_finish_follows hf.toGiven ⟨by rwa [hf.mode], ?_, ?_⟩ func_errno
  · intro ht
    exact absurd hf.tmp ht
  · rcases hf.talk with ⟨hidle, -⟩ | ⟨hfound, -⟩
    · exact .inl hidle
    · exact .inr (.inl hfound)

theorem socket_follows (domain type protocol : CInt) :
    Follows (.start (.socket domain type protocol)) (socket domain type protocol) := by
  simp only [socket, Prog.call_bind]
  refine ⟨⟨rfl, rfl, nofun, rfl, fun _ => rfl, rfl⟩, fun r _ => ⟨trivial, fun func_errno _ => ?_⟩⟩
  refine lookup_follows (given_original rfl rfl r) (.inr ⟨rfl, rfl⟩) ?_ ?_
  · intro h hf
    exact hf.unlock_finish nofun _
  · intro h hf hidle hmiss h0
    refine room_follows hf hidle rfl (.inl rfl) hmiss h0
      (fun h hf => hf.unlock_finish nofun _) ?_
    intro h hr
    refine ⟨hr.add, fun tmp _ => ⟨⟨⟨hr.mode, hr.entry⟩, rfl, rfl⟩, fun _ _ => ?_⟩⟩
    refine ⟨⟨hr.mode, hr.entry⟩, fun _ _ => ⟨⟨hr.mode, hr.entry⟩, fun _ _ => ?_⟩⟩
    refine ⟨hr.set tmp true, fun _ _ => ?_⟩
    exact hr.unlock_finish _

theorem open_follows (path : Word) (flags mode : CInt) :
    Follows (.start (.open path flags mode)) (open_ path flags mode) := by
  refine withErrno_follows rfl rfl rfl fun h ret func_errno hf => ?_
  simp only [Prog.call_bind]
  split
  · refine ⟨⟨.inl hf.mode, ?_, ?_, hf.tmp⟩, _, hf.call, hf.value, fun _ _ => hf.value_iff⟩
    · rcases hf.talk with ⟨-, hentry⟩ | ⟨-, hm⟩
      · exact hentry
      · cases hm
    · rcases hf.talk with ⟨htalk, -⟩ | ⟨-, hm⟩
      · exact htalk
      · cases hm
  · refine lookup_follows hf (.inr ⟨rfl, rfl⟩) (fun h hf => hf.unlock_finish nofun _) ?_
    intro h hf hidle hmiss h0
    exact room_follows hf hidle rfl (.inl rfl) hmiss h0
      (fun h hf => hf.unlock_finish nofun _) fun h hr => registerFile_follows hr _

theorem openat_follows (dirfd : CInt) (pathname : Word) (flags mode : CInt) :
    Follows (.start (.openat dirfd pathname flags mode)) (openat dirfd pathname flags mode) := by
  refine withErrno_follows rfl rfl rfl fun h ret _ hf => ?_
  simp only [Prog.call_bind]
  refine ⟨trivial, fun func_errno _ => ?_⟩
  refine lookup_follows hf (.inr ⟨rfl, rfl⟩) (fun h hf => hf.unlock_finish nofun _) ?_
  intro h hf hidle hmiss h0
  split
  · exact room_follows hf hidle rfl (.inl rfl) hmiss h0
      (fun h hf => hf.unlock_finish nofun _) fun h hr => registerFile_follows hr _
  · exact hf.unlock_finish nofun _

theorem epoll_create_follows (size : CInt) :
    Follows (.start (.epoll_create size)) (epoll_create size) := by
  refine withErrno_follows rfl rfl rfl fun h ret func_errno hf => ?_
  simp only [Prog.call_bind]
  refine lookup_follows hf (.inl ⟨rfl, rfl⟩) ?_ ?_
  · intro h hf
    have hg : Given (h.next (.pthread_rwlock .rdlock) ()) _ ret :=
      ⟨hf.call, hf.fresh, hf.positive, hf.value⟩
    have hrelocks : h.call.any Syscall.relocks = true := by rw [hf.call]; rfl
    obtain ⟨htalk, hentry⟩ | ⟨-, hm⟩ := hf.talk
    · refine ⟨.inr ⟨hrelocks, hf.mode, hf.tmp⟩, fun _ _ => ?_⟩
      exact finish_follows hg ⟨.inr ⟨hrelocks, rfl⟩, hentry, htalk, hf.tmp⟩ _
    · cases hm
  · intro h hf hidle hmiss h0
    refine room_follows hf hidle rfl (.inr ⟨nofun, rfl⟩) hmiss h0
      (fun h hf => hf.unlock_finish nofun _) ?_
    intro h hr
    refine ⟨hr.add, fun tmp _ => ⟨⟨hr.mode, hr.entry⟩, fun _ _ => ?_⟩⟩
    refine ⟨⟨hr.mode, hr.entry⟩, fun _ _ => ⟨hr.set tmp false, fun _ _ => ?_⟩⟩
    refine ⟨⟨⟨hr.mode, hr.entry⟩, rfl, rfl⟩, fun _ _ => ?_⟩
    exact hr.unlock_finish _

theorem accept_follows (socket : CInt) (addr addrlen : Word) :
    Follows (.start (.accept socket addr addrlen)) (accept socket addr addrlen) := by
  simp only [accept, Prog.call_bind]
  refine ⟨.inl rfl, fun _ _ => ⟨⟨⟨nofun, rfl, .inl rfl⟩, rfl, rfl⟩, fun tmp _ => ?_⟩⟩
  cases tmp with
  | none =>
      refine ⟨⟨nofun, nofun, .inl rfl⟩, fun _ _ => ⟨trivial, fun _ _ => ?_⟩⟩
      refine ⟨⟨rfl, rfl, nofun, rfl, fun _ => rfl, rfl⟩, fun r _ => ?_⟩
      have hg := given_original (c := .accept socket addr addrlen) rfl rfl r
      refine ⟨⟨.inl rfl, rfl, rfl, rfl⟩, _, rfl, .inl ⟨r, rfl, rfl⟩, fun _ _ => ?_⟩
      exact hg.value_iff
  | some tmp =>
      refine ⟨⟨_, socket, ⟨rfl, rfl, rfl, rfl, rfl, rfl, rfl⟩, rfl, rfl⟩, fun _ _ => ?_⟩
      refine ⟨⟨socket, rfl, rfl⟩, fun recv_data _ => ?_⟩
      generalize hh : Ann.next _ (.CPART_recv_from_thread tmp) recv_data = h
      have hc : h.call = some (.accept socket addr addrlen) := by rw [← hh]; rfl
      have hm : h.mode = .read := by rw [← hh]; rfl
      have hta : h.talk = .answered := by rw [← hh]; rfl
      have ht : h.tmp = none := by rw [← hh]; rfl
      have hv : h.Returns (.accept socket addr addrlen)
          (recv_data.return_value.signExtend 64) := by
        rw [← hh]
        exact .inr ⟨rfl, rfl, recv_data, rfl, rfl⟩
      have hf : h.fresh = if 0 < recv_data.return_value.toInt then some recv_data.return_value
          else none := by
        rw [← hh]
        simp [Ann.next, Ann.lookup, Ann.start, Syscall.creates]
      have hg : Given h (.accept socket addr addrlen) recv_data.return_value := by
        refine ⟨hc, fun fd hfd => ?_, fun hpos => by rw [hf, if_pos hpos], hv⟩
        rw [hf] at hfd
        split at hfd
        · exact (Option.some.inj hfd).symm
        · cases hfd
      clear hh
      beta_reduce
      split
      · rename_i hpos
        refine ⟨⟨by rw [hm]; nofun, ht, .inr ⟨hm, hta⟩⟩, fun found _ => ?_⟩
        show Follows (h.lookupAll recv_data.return_value found) _
        cases found with
        | some p =>
            have hall : h.lookupAll recv_data.return_value (some p) =
                { h with entry := none, talk := .idle } := by
              simp [Ann.lookupAll, Ann.lookup, hm]
            rw [hall]
            have hg' : Given { h with entry := none, talk := .idle } _ _ :=
              ⟨hc, hg.fresh, hg.positive, hv⟩
            exact unlock_finish_follows hg' ⟨by simp [hm], by simp [ht], .inl rfl⟩ _
        | none =>
            have hall : h.lookupAll recv_data.return_value none =
                { h with entry := none, talk := .idle, missed := some recv_data.return_value } := by
              simp [Ann.lookupAll, Ann.lookup]
            rw [hall]
            have hr : Ready
                { h with entry := none, talk := .idle, missed := some recv_data.return_value }
                (.accept socket addr addrlen) recv_data.return_value :=
              { call := hc, fresh := hg.fresh, positive := hg.positive, value := hv
                new := hg.positive hpos, mode := by simp [hm], entry := rfl, talk := rfl, tmp := ht
                nonneg := by omega, missed := rfl, creates := rfl, room := .inr rfl }
            refine ⟨hr.add, fun tmp2 _ => ⟨⟨hr.mode, hr.entry⟩, fun _ _ => ?_⟩⟩
            refine ⟨⟨hr.mode, hr.entry⟩, fun _ _ => ⟨hr.set tmp2 false, fun _ _ => ?_⟩⟩
            refine ⟨⟨⟨hr.mode, hr.entry⟩, rfl, rfl⟩, fun _ _ => ?_⟩
            exact hr.unlock_finish _
      · exact unlock_finish_follows hg ⟨by simp [hm], by simp [ht], .inr (.inr ⟨hm, hta⟩)⟩ _

/-- **Every wrapper follows the order.** -/
theorem wrapper_follows (c : Syscall) : Follows (.start c) (wrapper c) := by
  cases c with
  | close => exact close_follows _
  | shutdown => exact shutdown_follows _ _
  | socket => exact socket_follows _ _ _
  | «open» => exact open_follows _ _ _
  | openat => exact openat_follows _ _ _ _
  | accept => exact accept_follows _ _ _
  | epoll_create => exact epoll_create_follows _
  | _ =>
      simp only [wrapper, lseek, read, write, bind, listen, connect, send, recv, setsockopt,
        getsockopt, epoll_ctl, poll, sendto, sendmsg, recvfrom, recvmsg, getsockname, getpeername]
      apply delegated_follows
      constructor <;> rfl

/-! ## What holds of every annotation -/

theorem Ann.lookupAll_cases (h : Ann) (fd : CInt) (r : Option Ptr) :
    (∃ p, r = some p ∧ h.mode = .write ∧
      h.lookupAll fd r = { h with entry := some (p, fd), talk := .found }) ∨
    (∃ p, r = some p ∧ h.mode ≠ .write ∧
      h.lookupAll fd r = { h with entry := none, talk := .idle }) ∨
    r = none ∧ h.lookupAll fd r = { h with entry := none, talk := .idle, missed := some fd } := by
  cases r with
  | none => exact .inr (.inr ⟨rfl, rfl⟩)
  | some p =>
      by_cases hw : h.mode = .write
      · rw [Ann.lookupAll, if_pos hw]
        exact .inl ⟨p, rfl, hw, rfl⟩
      · rw [Ann.lookupAll, if_neg hw]
        exact .inr (.inl ⟨p, rfl, hw, rfl⟩)

/-- A lookup changes nothing but what the call knows about its entry. -/
theorem Ann.lookupAll_eq (h : Ann) (fd : CInt) (r : Option Ptr) :
    ∃ entry talk missed,
      h.lookupAll fd r = { h with entry := entry, talk := talk, missed := missed } := by
  obtain ⟨p, -, -, heq⟩ | ⟨p, -, -, heq⟩ | ⟨-, heq⟩ := h.lookupAll_cases fd r
  · exact ⟨_, _, h.missed, heq⟩
  · exact ⟨_, _, h.missed, heq⟩
  · exact ⟨_, _, _, heq⟩

theorem Ann.next_call (h : Ann) (o : Op) (r : o.Res) : (h.next o r).call = h.call := by
  cases o with
  | pthread_rwlock x => cases x <;> rfl
  | fdtable_get_by_fd fd k => cases r <;> rfl
  | fdtable_get_by_fd_all fd =>
      obtain ⟨entry, talk, missed, heq⟩ := h.lookupAll_eq fd r
      show (h.lookupAll fd r).call = h.call
      rw [heq]
  | _ => rfl

/-- What only an original call and a response change. -/
theorem Ann.next_fresh {h : Ann} {o : Op} (horiginal : ∀ c, o ≠ .original c)
    (hrecv : ∀ p, o ≠ .CPART_recv_from_thread p) (r : o.Res) : (h.next o r).fresh = h.fresh := by
  cases o with
  | original c => exact absurd rfl (horiginal c)
  | CPART_recv_from_thread p => exact absurd rfl (hrecv p)
  | pthread_rwlock x => cases x <;> rfl
  | fdtable_get_by_fd fd k => cases r <;> rfl
  | fdtable_get_by_fd_all fd =>
      obtain ⟨entry, talk, missed, heq⟩ := h.lookupAll_eq fd r
      show (h.lookupAll fd r).fresh = h.fresh
      rw [heq]
  | _ => rfl

/-- What only an original call changes. -/
theorem Ann.next_orig {h : Ann} {o : Op} (horiginal : ∀ c, o ≠ .original c) (r : o.Res) :
    (h.next o r).orig = h.orig := by
  cases o with
  | original c => exact absurd rfl (horiginal c)
  | pthread_rwlock x => cases x <;> rfl
  | fdtable_get_by_fd fd k => cases r <;> rfl
  | fdtable_get_by_fd_all fd =>
      obtain ⟨entry, talk, missed, heq⟩ := h.lookupAll_eq fd r
      show (h.lookupAll fd r).orig = h.orig
      rw [heq]
  | _ => rfl

/-- The fields of an annotation fit together. -/
structure Ann.Coherent (h : Ann) : Prop where
  talk : h.talk = .idle ↔ h.entry = none
  mode : h.entry ≠ none → h.mode ≠ .none
  tmp : h.tmp ≠ none →
    h.mode ≠ .none ∧ h.entry = none ∧ ∃ fd, h.fresh = some fd ∧ h.missed = some fd
  asked : h.talk = .asked → ∃ p c fd, h.Asks p c fd
  creates : h.fresh ≠ none → h.call.any Syscall.creates = true
  answered : h.talk = .answered → h.reply ≠ none

theorem Ann.coherent_start (c : Syscall) : (Ann.start c).Coherent :=
  ⟨by simp [Ann.start], by simp [Ann.start], by simp [Ann.start], by simp [Ann.start],
    by simp [Ann.start], by simp [Ann.start]⟩

theorem Ann.coherent_idle : ({} : Ann).Coherent :=
  ⟨by simp, by simp, by simp, by simp, by simp, by simp⟩

/-- Nothing depends on the other fields. -/
theorem Ann.Coherent.flags {h : Ann} (hc : h.Coherent) (room named started : Bool) :
    Ann.Coherent { h with room := room, named := named, started := started } := by
  refine ⟨hc.talk, hc.mode, hc.tmp, fun hasked => ?_, hc.creates, hc.answered⟩
  obtain ⟨p, c, fd, ha⟩ := hc.asked hasked
  exact ⟨p, c, fd, ha.call, ha.descriptor, ha.entry, ha.mode, ha.orig, ha.reply, ha.fresh⟩

/-- The call turns away from its entry. -/
theorem Ann.Coherent.away {h : Ann} (hc : h.Coherent) (htmp : h.tmp = none)
    (missed : Option CInt) :
    Ann.Coherent { h with entry := none, talk := .idle, missed := missed } :=
  ⟨by simp, by simp, by simp [htmp], by simp, hc.creates, by simp⟩

/-- The call has found an entry. -/
theorem Ann.Coherent.found {h : Ann} (hc : h.Coherent) (hl : h.MayLookup) (p : Ptr) (fd : CInt) :
    Ann.Coherent { h with entry := some (p, fd), talk := .found } :=
  ⟨by simp, fun _ => hl.mode, by simp [hl.tmp], by simp, hc.creates, by simp⟩

/-- Without an entry and without a hold. -/
theorem Ann.Coherent.entry_none {h : Ann} (hc : h.Coherent) (hm : h.mode = .none) :
    h.entry = none ∧ h.tmp = none := by
  constructor
  · by_contra he
    exact hc.mode he hm
  · by_contra ht
    exact (hc.tmp ht).1 hm

theorem Ann.Coherent.next {h : Ann} (hc : h.Coherent) {o : Op} (hp : h.pre o) (r : o.Res) :
    (h.next o r).Coherent := by
  cases o with
  | errno | set_errno | set_NetorFile | set_pid => exact hc
  | fdtable_getnumber | pthread_create | set_thr_fd => exact hc.flags _ _ _
  | pthread_rwlock x =>
      have hlocks : ∀ m, m ≠ .none → (h.mode = .none ∨ h.mode = m ∧ h.tmp = none) →
          Ann.Coherent { h with mode := m, room := false, missed := none } := by
        intro m hm hmode
        refine ⟨hc.talk, fun _ => hm, fun ht => ?_, fun hasked => ?_, hc.creates, hc.answered⟩
        · rcases hmode with hnone | ⟨-, htmp⟩
          · exact absurd (hc.entry_none hnone).2 ht
          · exact absurd htmp ht
        · obtain ⟨p, c, fd, ha⟩ := hc.asked hasked
          rcases hmode with hnone | ⟨rfl, -⟩
          · exact absurd (hc.entry_none hnone).1 (by simp [ha.entry])
          · exact ⟨p, c, fd, ha.call, ha.descriptor, ha.entry, ha.mode, ha.orig, ha.reply, ha.fresh⟩
      cases x with
      | rdlock => exact hlocks .read nofun (hp.imp id And.right)
      | wrlock => exact hlocks .write nofun (.inl hp)
      | unlock => exact ⟨by simp [Ann.next], by simp [Ann.next], by simp [Ann.next],
          by simp [Ann.next], hc.creates, by simp [Ann.next]⟩
  | fdtable_get_by_fd_all fd =>
      show (h.lookupAll fd r).Coherent
      obtain ⟨p, -, -, heq⟩ | ⟨p, -, -, heq⟩ | ⟨-, heq⟩ := h.lookupAll_cases fd r
      · rw [heq]
        exact hc.found hp p fd
      · rw [heq]
        exact hc.away hp.tmp h.missed
      · rw [heq]
        exact hc.away hp.tmp (some fd)
  | fdtable_get_by_fd fd k =>
      cases r with
      | some p => exact hc.found hp.1 p fd
      | none => exact hc.away hp.1.tmp h.missed
  | fdtable_add =>
      refine ⟨hc.talk, hc.mode, fun _ => ⟨hp.mode, hp.entry, hp.fresh⟩, fun hasked => ?_,
        hc.creates, hc.answered⟩
      · obtain ⟨p, c, fd, ha⟩ := hc.asked hasked
        exact absurd hp.entry (by simp [ha.entry])
  | fdtable_delete fd =>
      obtain ⟨p, hentry, -, -⟩ := hp
      refine hc.away ?_ (some fd)
      by_contra ht
      exact absurd (hc.tmp ht).2.1 (by simp [hentry])
  | pthread_join p =>
      obtain ⟨fd, hentry, -, -⟩ := hp
      exact ⟨by simp [Ann.next, hentry], hc.mode, hc.tmp, by simp [Ann.next], hc.creates,
        by simp [Ann.next]⟩
  | CPART_send_to_thread args p =>
      obtain ⟨c, fd, ha⟩ := hp
      refine ⟨by simp [Ann.next, ha.entry], hc.mode, hc.tmp, fun _ => ?_, hc.creates,
        by simp [Ann.next]⟩
      exact ⟨p, c, fd, ha.call, ha.descriptor, ha.entry, ha.mode, ha.orig, ha.reply, ha.fresh⟩
  | CPART_recv_from_thread p =>
      obtain ⟨fd, hentry, -⟩ := hp
      refine ⟨by simp [Ann.next, hentry], hc.mode, fun ht => ?_, by simp [Ann.next], fun hf => ?_,
        by simp [Ann.next]⟩
      · exact absurd (hc.tmp ht).2.1 (by simp [hentry])
      · show h.call.any Syscall.creates = true
        by_cases hcr : h.call.any Syscall.creates = true
        · exact hcr
        · refine hc.creates ?_
          simpa [Ann.next, hcr] using hf
  | original c =>
      obtain ⟨hentry, htmp⟩ := hc.entry_none hp.mode
      refine ⟨hc.talk, hc.mode, by simp [Ann.next, htmp], fun hasked => ?_, fun hf => ?_,
        hc.answered⟩
      · obtain ⟨p, c, fd, ha⟩ := hc.asked hasked
        exact absurd hentry (by simp [ha.entry])
      · show h.call.any Syscall.creates = true
        by_cases hcr : c.creates = true
        · simpa [hp.call] using hcr
        · refine hc.creates ?_
          simpa [Ann.next, hcr] using hf

/-- A call that has sent its request turns to nothing else. -/
theorem Ann.asked_next {h : Ann} (hc : h.Coherent) (ha : h.talk = .asked) {o : Op} (hp : h.pre o)
    (r : o.Res) :
    (∃ p, o = .CPART_recv_from_thread p) ∨
      (h.next o r).talk = .asked ∧ (h.next o r).entry = h.entry ∧ (h.next o r).mode = h.mode := by
  have hentry : h.entry ≠ none := by
    intro hnone
    rw [hc.talk.mpr hnone] at ha
    cases ha
  cases o with
  | errno | set_errno | set_NetorFile | set_pid | fdtable_getnumber | fdtable_add | set_thr_fd
  | pthread_create => exact .inr ⟨ha, rfl, rfl⟩
  | CPART_recv_from_thread p => exact .inl ⟨p, rfl⟩
  | pthread_rwlock x =>
      cases x with
      | rdlock =>
          obtain hm | ⟨-, hm⟩ := hp
          · exact absurd hm (hc.mode hentry)
          · exact .inr ⟨ha, rfl, hm.1.symm⟩
      | wrlock => exact absurd hp (hc.mode hentry)
      | unlock =>
          have htalk := hp.talk
          simp [ha] at htalk
  | fdtable_get_by_fd_all fd =>
      have htalk := Ann.MayLookup.talk hp
      simp [ha] at htalk
  | fdtable_get_by_fd fd k =>
      have htalk := hp.1.talk
      simp [ha] at htalk
  | fdtable_delete fd =>
      obtain ⟨p, -, htalk, -⟩ := hp
      simp [ha] at htalk
  | pthread_join p =>
      obtain ⟨fd, -, htalk, -⟩ := hp
      simp [ha] at htalk
  | CPART_send_to_thread args p =>
      obtain ⟨c, fd, hask⟩ := hp
      have htalk := hask.talk
      simp [ha] at htalk
  | original c => exact absurd hp.mode (hc.mode hentry)

/-- The outline of `wrapper c`, with the call it annotates. -/
theorem wrapper_outline (c : Syscall) :
    (wrapper c).Outline Ann.next (fun _ _ _ => True) (fun h o => h.pre o ∧ h.call = some c)
      (fun h a => h.post a ∧ h.call = some c) (.start c) :=
  (wrapper_follows c).keep rfl fun h o r hc => (h.next_call o r).trans hc

end CorePartitioning.Preload
