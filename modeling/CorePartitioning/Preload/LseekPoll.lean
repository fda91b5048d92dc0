import CorePartitioning.Preload.CallAlone
import CorePartitioning.Preload.Errno

/-!
# ld_preload.c — lseek and poll

The two delegated calls whose wrappers do not always do what the original
function does. The result of `lseek` is 64 bits wide and comes back through
the `int` of the response. `poll` looks its entry up by the last descriptor
of the list, also when the list is empty.
-/

namespace CorePartitioning.Preload

/-- The values of an `int`. -/
def FitsInt (w : Word) : Prop := -2 ^ 31 ≤ w.toInt ∧ w.toInt < 2 ^ 31

theorem toInt_intResult (w : Word) : (intResult w).toInt = w.toInt.bmod (2 ^ 32) := by
  rw [intResult, BitVec.toInt_signExtend_of_le (by decide), BitVec.toInt_setWidth,
    BitVec.toInt_eq_toNat_bmod, Int.bmod_bmod_of_dvd (by decide)]

/-- A result survives the `int` exactly when it fits. -/
theorem intResult_eq_iff (w : Word) : intResult w = w ↔ FitsInt w := by
  have htoInt := toInt_intResult w
  rw [← BitVec.toInt_inj, htoInt]
  constructor
  · intro heq
    have hlo := Int.le_bmod (x := w.toInt) (m := 2 ^ 32) (by decide)
    have hhi := Int.bmod_lt (x := w.toInt) (m := 2 ^ 32) (by decide)
    rw [heq] at hlo hhi
    exact ⟨hlo, hhi⟩
  · rintro ⟨hlo, hhi⟩
    apply Int.bmod_eq_of_le_mul_two
    · norm_num at hlo ⊢
      omega
    · norm_num at hhi ⊢
      omega

namespace Machine

variable {Tid : Type} [DecidableEq Tid] {m : Machine Tid}

/-! ## lseek -/

/-- What the wrapper makes of the response to an `lseek`. -/
theorem returnValue_serve_lseek (fd : CInt) (offset : Word) (whence : CInt) (stale : RetvalData)
    (o : Outcome) :
    returnValue (serve (send_data (.lseek fd offset whence)) stale o) = intResult o.result := by
  rw [returnValue, serve_return_value rfl rfl]
  rfl

/-- **The result of `lseek`.** Without an entry the wrapper returns what the
original function does. With one whose thread is live it returns, and what
it returns is the result if and only if that fits into an `int`. -/
theorem lseek_returns_result_iff (h : m.Alone) (t : Tid) (x : Around) (fd : CInt) (offset : Word)
    (whence : CInt) :
    (fdtable_get_by_fd m.world.table fd true = none →
      ∃ m', m.callAlone t x (.lseek fd offset whence) = some (x.outcome.result, m')) ∧
    ∀ y, fdtable_get_by_fd m.world.table fd true = some y →
      (m.Live y.ptr → ∃ a m', m.callAlone t x (.lseek fd offset whence) = some (a, m')) ∧
      ∀ a m', m.callAlone t x (.lseek fd offset whence) = some (a, m') →
        (a = x.outcome.result ↔ FitsInt x.outcome.result) := by
  refine ⟨fun hnone => ?_, fun y hfound => ?_⟩
  · obtain ⟨m', hrun, -⟩ := delegated_direct (t := t) (x := x)
      (d := ⟨.lseek fd offset whence, fd, true, some, id, thrErrnoOr, returnValue⟩) h hnone
    exact ⟨m', hrun⟩
  · have hreturns : m.Live y.ptr → ∃ m',
        m.callAlone t x (.lseek fd offset whence) = some (intResult x.outcome.result, m') := by
      intro hlive
      obtain ⟨m', stale, hrun, -⟩ := delegated_of_live (t := t) (x := x)
        (d := ⟨.lseek fd offset whence, fd, true, some, id, thrErrnoOr, returnValue⟩) h hfound
        hlive
      dsimp only at hrun
      rw [returnValue_serve_lseek] at hrun
      exact ⟨m', hrun⟩
    refine ⟨fun hlive => ?_, fun a m' hrun => ?_⟩
    · obtain ⟨m', hrun⟩ := hreturns hlive
      exact ⟨_, m', hrun⟩
    · obtain ⟨m'', hrun'⟩ := hreturns (live_of_delegated h hfound hrun)
      obtain ⟨rfl, -⟩ := Prod.mk.inj (Option.some.inj (hrun'.symm.trans hrun))
      exact intResult_eq_iff x.outcome.result

/-- Descriptor 7 has an entry, of kind `NetorFile`, with its thread in its
loop. -/
def oneServed (NetorFile : Bool) : Machine Bool where
  world := oneEntry NetorFile
  channel := Function.update (fun _ => {}) 1 { life := .running, thread := 1 }

theorem alone_oneServed (NetorFile : Bool) : (oneServed NetorFile).Alone where
  lock := rfl
  idle _ t := set_channel_of (m := {}) (p := 1) (P := fun ch => ch.exchange.client t = .idle)
    (fun _ => rfl) fun _ => rfl
  clean _ := set_channel_of (m := {}) (p := 1) (P := Clean) (fun _ => ⟨rfl, rfl, rfl⟩)
    fun _ => ⟨rfl, rfl, rfl⟩

/-- The original function returns `w`. -/
def returning (w : Word) : Around := { outcome := ⟨w, 0⟩ }

/-- An `lseek` to 100. -/
theorem lseek_returns_small_result :
    ∃ a m', (oneServed true).callAlone false (returning 100) (.lseek 7 100 0) = some (a, m') ∧
      a = 100 := by
  have hspec := lseek_returns_result_iff (alone_oneServed true) false (returning 100) 7 100 0
  obtain ⟨hlive, hreturns⟩ := hspec.2 ⟨1, 1, 7, 1, true⟩ rfl
  obtain ⟨a, m', hrun⟩ := hlive (.inl rfl)
  exact ⟨a, m', hrun, (hreturns a m' hrun).mpr ⟨by decide, by decide⟩⟩

/-- An `lseek` to 2 GiB returns a negative offset. -/
theorem lseek_returns_negative :
    ¬ ∀ (m : Machine Bool) (t : Bool) (x : Around) (fd : CInt) (offset : Word) (whence : CInt)
      (y : ThreadInfo), m.Alone → fdtable_get_by_fd m.world.table fd true = some y →
      m.Live y.ptr →
      ∃ m', m.callAlone t x (.lseek fd offset whence) = some (x.outcome.result, m') := by
  intro h
  obtain ⟨m', hrun⟩ := h (oneServed true) false (returning (2 ^ 31)) 7 (2 ^ 31) 0
    ⟨1, 1, 7, 1, true⟩ (alone_oneServed true) rfl (.inl rfl)
  have hvalue : ((oneServed true).callAlone false (returning (2 ^ 31))
      (.lseek 7 (2 ^ 31) 0)).map (fun z => z.1) = some (-2 ^ 31) := by decide
  rw [hrun] at hvalue
  have heq : (2 ^ 31 : Word) = -2 ^ 31 := Option.some.inj hvalue
  revert heq
  decide

/-! ## poll -/

/-- The index of the element of `ufds` that the wrapper reads, in `unsigned int`. -/
def pollIndex (nfds : CInt) : Nat := (nfds - 1).toNat

/-- The wrapper reads inside the list, and `poll` is performed once, with the
caller's arguments, by the caller or by a live thread; its result comes
back. -/
structure PollsOnce (m : Machine Tid) (t : Tid) (x : Around) (ufds : Word) (fds : Nat → CInt)
    (nfds timeout : CInt) : Prop where
  reads : pollIndex nfds < nfds.toNat
  once : ∃ m' who fds',
    m.callAlone t x (.poll ufds fds nfds timeout) = some (intResult x.outcome.result, m') ∧
    m'.log = m.log ++ [.performed who (.poll ufds fds' nfds timeout) x.outcome.result] ∧
    (who = some t ∨ who = none ∧ ∃ y,
      fdtable_get_by_fd m.world.table (fds (pollIndex nfds)) false = some y ∧ m.Live y.ptr)

theorem pollIndex_lt_iff (nfds : CInt) : pollIndex nfds < nfds.toNat ↔ nfds ≠ 0 := by
  unfold pollIndex
  rw [BitVec.toNat_sub, ne_eq, ← BitVec.toNat_inj]
  have hlt := nfds.isLt
  simp only [BitVec.ofNat_eq_ofNat, BitVec.toNat_ofNat]
  omega

omit [DecidableEq Tid] in
/-- What the request of `poll` stands for. -/
theorem performedBy_poll (ufds : Word) (fds : Nat → CInt) (nfds timeout : CInt) (w : Word) :
    (performedBy (send_data (.poll ufds fds nfds timeout)) w : List (LogEntry Tid))
      = [.performed none (.poll ufds (fun _ => 0) nfds timeout) w] := by
  have hdispatch : dispatch (send_data (.poll ufds fds nfds timeout))
      = some (.poll ufds (fun _ => 0) nfds timeout) := by
    simp only [dispatch, send_data, request_type_ofWords, RequestType.ofCode_code, w16_ofWords,
      w24_ofWords, lo_ints, hi_ints]
  rw [performedBy, hdispatch]
  rfl

theorem returnValue_serve_poll (ufds : Word) (fds : Nat → CInt) (nfds timeout : CInt)
    (stale : RetvalData) (o : Outcome) :
    returnValue (serve (send_data (.poll ufds fds nfds timeout)) stale o)
      = intResult o.result := by
  rw [returnValue, serve_return_value rfl rfl]
  rfl

/-- **`poll` is transparent** if and only if the list is not empty and the
entry of its last descriptor, should it have one, has a live thread. -/
theorem poll_once_iff (h : m.Alone) (t : Tid) (x : Around) (ufds : Word) (fds : Nat → CInt)
    (nfds timeout : CInt) :
    PollsOnce m t x ufds fds nfds timeout ↔
      nfds ≠ 0 ∧ ∀ y, fdtable_get_by_fd m.world.table (fds (pollIndex nfds)) false = some y →
        m.Live y.ptr := by
  constructor
  · rintro ⟨hreads, m', who, fds', hrun, -, -⟩
    refine ⟨(pollIndex_lt_iff nfds).mp hreads, fun y hfound => ?_⟩
    exact live_of_delegated h hfound hrun
  · rintro ⟨hne, hlive⟩
    refine ⟨(pollIndex_lt_iff nfds).mpr hne, ?_⟩
    cases hfound : fdtable_get_by_fd m.world.table (fds (pollIndex nfds)) false with
    | none =>
        obtain ⟨m', hrun, hlog⟩ := delegated_direct (t := t) (x := x)
          (d := ⟨.poll ufds fds nfds timeout, fds (pollIndex nfds), false, some, intResult,
            thrErrnoOr, returnValue⟩) h hfound
        exact ⟨m', some t, fds, hrun, hlog, .inl rfl⟩
    | some y =>
        obtain ⟨m', stale, hrun, hlog⟩ := delegated_of_live (t := t) (x := x)
          (d := ⟨.poll ufds fds nfds timeout, fds (pollIndex nfds), false, some, intResult,
            thrErrnoOr, returnValue⟩) h hfound (hlive y hfound)
        dsimp only at hrun hlog
        rw [returnValue_serve_poll] at hrun
        rw [performedBy_poll] at hlog
        exact ⟨m', none, fun _ => 0, hrun, hlog, .inr ⟨rfl, y, rfl, hlive y hfound⟩⟩

/-- A list of one descriptor, that of the entry. -/
theorem poll_once_of_entry :
    PollsOnce (oneServed false) false (returning 1) 0x1000 (fun _ => 7) 1 (-1) := by
  refine (poll_once_iff (alone_oneServed false) false (returning 1) _ _ _ _).mpr
    ⟨by decide, fun y hy => ?_⟩
  obtain rfl : ⟨1, 1, 7, 1, false⟩ = y := Option.some.inj hy
  exact .inl rfl

/-- `poll(NULL, 0, 100)`, to sleep, reads `ufds[4294967295]`. -/
theorem poll_reads_outside :
    pollIndex 0 = 4294967295 ∧
      ¬ ∀ (m : Machine Bool) (t : Bool) (x : Around) (ufds : Word) (fds : Nat → CInt)
        (nfds timeout : CInt), m.Alone → PollsOnce m t x ufds fds nfds timeout := by
  refine ⟨by decide, fun h => ?_⟩
  have hreads := (h (oneServed false) false (returning 0) 0 (fun _ => 0) 0 100
    (alone_oneServed false)).reads
  revert hreads
  decide

end Machine

end CorePartitioning.Preload
