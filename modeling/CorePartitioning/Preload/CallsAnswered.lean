import CorePartitioning.Preload.Transparency
import CorePartitioning.Preload.Work

/-!
# ld_preload.c — no call is left without its answer

A log without the library leaves calls out at its end: those in progress.
When allocations and thread creation succeed none of them stays there. A
run without new calls ends after a bounded number of steps, and then every
call made has been performed once and has returned what it gave.
-/

namespace CorePartitioning.Preload

namespace Machine

variable {Tid : Type} [DecidableEq Tid]

/-! ## The assumptions -/

/-- What the outside world is asked for it gives: memory, threads with ids of
their own, descriptors other than 0. Of `epoll_create`, which is none of the
nineteen calls, it is assumed that it does not lock a second time. -/
def Succeeds (s : State Tid) : Label Tid → Prop
  | .inl (.step t e) => ∀ o ∈ nextOp (s.thread t), Grants e o ∧ s.shared.Supplies e o ∧
      ((s.thread t).any (fun x => x.1.relocks) = true → s.shared.LocksOnce t o)
  | _ => True

/-- One user for each descriptor, and no failure outside. -/
def OrderlySucceeds (s : State Tid) (l : Label Tid) : Prop := Orderly s l ∧ Succeeds s l

instance (s : State Tid) (l : Label Tid) : Decidable (Succeeds s l) :=
  match l with
  | .inl (.step _ _) => inferInstanceAs (Decidable (∀ o ∈ _, _))
  | .inl (.call _ _) | .inr _ => inferInstanceAs (Decidable True)

instance [Fintype Tid] (s : State Tid) (l : Label Tid) : Decidable (OrderlySucceeds s l) :=
  inferInstanceAs (Decidable (_ ∧ _))

/-- Only `epoll_create` locks for reading while it has a read hold. -/
theorem locksOnce_of_not_relocks {s : State Tid} {ann : Tid → Ann × Seen}
    (hl : Lively s.shared ann) {t : Tid} (hann : Annotated (ann t) (s.thread t)) {o : Op}
    (ho : o ∈ nextOp (s.thread t)) (hno : (s.thread t).any (fun x => x.1.relocks) = false) :
    s.shared.LocksOnce t o := by
  cases hthread : s.thread t with
  | none =>
      rw [hthread] at ho
      cases ho
  | some x =>
      obtain ⟨c, k⟩ := x
      rw [hthread] at hann ho hno
      cases k with
      | ret a => cases ho
      | op o' k =>
          obtain rfl := Option.some.inj ho
          obtain ⟨⟨⟨hpre, hcall⟩, -⟩, -⟩ := hann
          cases o' with
          | pthread_rwlock x =>
              cases x with
              | rdlock =>
                  have hmode : (ann t).1.mode = .none := by
                    rcases hpre with hnone | ⟨hrelocks, -⟩
                    · exact hnone
                    · rw [hcall] at hrelocks
                      exact absurd hrelocks (by simpa using hno)
                  have hreads := hl.reads t
                  rw [hmode] at hreads
                  exact hreads
              | wrlock | unlock => trivial
          | _ => trivial

/-- The assumptions of the calls' progress hold. -/
theorem assumed_of_succeeds {s : State Tid} (h : Run.Reachable step Assumed init s)
    {l : Label Tid} (hg : Succeeds s l) : Assumed s l := by
  cases l with
  | inr b => trivial
  | inl l =>
      cases l with
      | call t c => trivial
      | step t e =>
          intro o ho
          obtain ⟨hgrants, hsupplies, hlocks⟩ := hg o ho
          refine ⟨hgrants, hsupplies, ?_⟩
          cases hrelocks : (s.thread t).any fun x => x.1.relocks with
          | true => exact hlocks hrelocks
          | false =>
              obtain ⟨ann, hl, hann⟩ := lively_of_reachable h
              exact locksOnce_of_not_relocks hl (hann t) ho hrelocks

theorem assumed_of_reachable {s : State Tid} (h : Run.Reachable step Succeeds init s) :
    Run.Reachable step Assumed init s := by
  induction h with
  | refl => exact Relation.ReflTransGen.refl
  | tail _ hs ih =>
      obtain ⟨l, hg, hl⟩ := hs
      exact ih.tail ⟨l, assumed_of_succeeds ih hg, hl⟩

/-! ## The sequences when all calls have returned -/

/-- The calls in `P` performed are those made, the values returned are those
the originals gave. -/
structure Answered (P : Syscall → Bool) (s : State Tid) : Prop where
  performed : s.shared.log.filterMap (LogEntry.performedCall P)
    = s.shared.log.filterMap (LogEntry.issuedCall P)
  returned : s.shared.log.filterMap (LogEntry.value P)
    = s.shared.log.filterMap (LogEntry.result P)

omit [DecidableEq Tid] in
theorem Sequences.answered {P : Syscall → Bool} {s : State Tid} (h : Sequences P s)
    (hidle : ∀ t, s.thread t = none) : Answered P s := by
  obtain ⟨⟨rest, hperformed, hrest⟩, ⟨rest', hreturned, hrest'⟩⟩ := h
  constructor
  · rcases hrest with rfl | ⟨t, c, k, -, ht, -⟩
    · simpa using hperformed.symm
    · rw [hidle t] at ht
      cases ht
  · rcases hrest' with rfl | ⟨t, c, k, w, -, ht, -⟩
    · simpa using hreturned.symm
    · rw [hidle t] at ht
      cases ht

/-- All calls have returned; on each descriptor, and as a whole where one
thread makes all calls, what has been performed is what was made and what
was returned is what that gave. -/
structure CallsAnswered (s : State Tid) : Prop where
  idle : ∀ t, s.thread t = none
  descriptor : ∀ fd, Answered (onDescriptor fd) s
  thread : ∀ t, (∀ u c, .issued u c ∈ s.shared.log → u = t) → Answered Syscall.forwards s

theorem CallsTransparent.answered {s : State Tid} (h : CallsTransparent s)
    (hidle : ∀ t, s.thread t = none) : CallsAnswered s where
  idle := hidle
  descriptor fd := (h.descriptor fd).answered hidle
  thread t hone := (h.thread t hone).answered hidle

/-- **Call transparency**, in every state of every run in which each
descriptor has one user and insertions are atomic, for any calls by any
number of threads, with and without entries. And **no call stays
unanswered**: where nothing fails outside there is a bound on the steps of a
run without new calls, and when it cannot go on every call made has been
performed and has returned. -/
theorem calls_transparent {s : State Tid} (h : Run.Reachable step Orderly init s) :
    CallsTransparent s ∧
      (Run.Reachable step OrderlySucceeds init s →
        ∃ n, ∀ ls s', Run.Trace step OrderlySucceeds s ls s' → (∀ l ∈ ls, inward l = true) →
          ls.length ≤ n ∧ (Still s' → CallsAnswered s')) := by
  refine ⟨callsTransparent_of_reachable h, fun hsucceeds => ?_⟩
  obtain ⟨v, hv⟩ := outstanding_of_reachable h
  refine ⟨v, fun ls s' hls hinward => ⟨hv.length_le hls hinward, fun hstill => ?_⟩⟩
  have hreach : Run.Reachable step OrderlySucceeds init s' := hsucceeds.trans hls.reachable
  have hidle := idle_of_still (assumed_of_reachable (hreach.mono fun _ _ hg => hg.2)) hstill
  exact (callsTransparent_of_reachable (hreach.mono fun _ _ hg => hg.1)).answered hidle

/-- A `listen` on a descriptor without an entry has returned, and the entry's
thread performs a `recv` for another thread. -/
theorem calls_transparent_of_recv :
    ∃ s : State Bool, Run.Reachable step OrderlySucceeds init s ∧
      receiving 1 (s.thread true) = true ∧
      s.shared.log.filterMap (LogEntry.value Syscall.forwards) = [3] ∧
      CallsTransparent s ∧
      ∃ n, ∀ ls s', Run.Trace step OrderlySucceeds s ls s' → (∀ l ∈ ls, inward l = true) →
        ls.length ≤ n ∧ (Still s' → CallsAnswered s') := by
  have hrun : ((Run.exec step OrderlySucceeds init
      (oneSocket ++ calls true (.recv 7 0 0 0) 4 {} ++ [.inr (.recv_from_app 1)]
        ++ calls false (.listen 8 1) 7 { result := 3 })).map
      fun s => (receiving 1 (s.thread true),
        s.shared.log.filterMap (LogEntry.value Syscall.forwards))) = some (true, [3]) := by
    decide
  obtain ⟨s, hs, hproj⟩ := Option.map_eq_some_iff.mp hrun
  obtain ⟨hrecv, hvalues⟩ := Prod.mk.inj hproj
  have hreach := Run.reachable_of_exec hs
  obtain ⟨htransparent, hanswered⟩ := calls_transparent (hreach.mono fun _ _ hg => hg.1)
  exact ⟨s, hreach, hrecv, hvalues, htransparent, hanswered hreach⟩

end Machine

end CorePartitioning.Preload
