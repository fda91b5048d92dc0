import CorePartitioning.Preload.Machine

/-!
# The application without the library

What the log of a program looks like that makes its calls directly: a thread
makes a call, the call is performed with the arguments it was made with, and
it returns what it was given; then the thread makes its next call. `Direct`
lists the logs of the programs in which no two threads use a descriptor at
the same time. The library is transparent if its logs are among them.
-/

namespace CorePartitioning.Preload

/-! ## The calls -/

/-- The nineteen calls on a descriptor that are to be transparent. -/
def Syscall.forwards : Syscall → Bool
  | .bind .. | .listen .. | .accept .. | .connect .. | .send .. | .recv .. | .setsockopt ..
  | .getsockopt .. | .read .. | .write .. | .epoll_ctl .. | .sendto .. | .sendmsg ..
  | .recvfrom .. | .recvmsg .. | .getsockname .. | .getpeername .. | .close ..
  | .shutdown .. => true
  | .socket .. | .open .. | .openat .. | .epoll_create .. | .lseek .. | .poll .. => false

variable {Tid : Type}

def LogEntry.call : LogEntry Tid → Syscall
  | .issued _ c | .performed _ c _ | .returned _ c _ => c

/-- The part of the log about the nineteen calls. -/
def forwarded (log : List (LogEntry Tid)) : List (LogEntry Tid) :=
  log.filter fun x => x.call.forwards

theorem forwarded_append {log : List (LogEntry Tid)} {x : LogEntry Tid}
    (hx : x.call.forwards = true) : forwarded (log ++ [x]) = forwarded log ++ [x] := by
  simp [forwarded, hx]

theorem forwarded_append_of_not {log : List (LogEntry Tid)} {x : LogEntry Tid}
    (hx : x.call.forwards = false) : forwarded (log ++ [x]) = forwarded log := by
  simp [forwarded, hx]

theorem filterMap_forwarded {α : Type} {f : LogEntry Tid → Option α}
    (hf : ∀ x, x.call.forwards = false → f x = none) (log : List (LogEntry Tid)) :
    (forwarded log).filterMap f = log.filterMap f := by
  unfold forwarded
  rw [List.filterMap_filter]
  congr 1
  funext x
  cases hx : x.call.forwards with
  | true => rfl
  | false => exact (hf x hx).symm

/-! ## The programs -/

/-- How far a thread is with its call. -/
inductive Slot
  | idle
  | issued (c : Syscall)
  | performed (c : Syscall) (w : Word)

def Slot.call : Slot → Option Syscall
  | .idle => none
  | .issued c | .performed c _ => some c

/-- What thread `t` does next, and how it is recorded. A call is performed by
its thread or by one of the library's. -/
inductive Slot.Moves (t : Tid) : Slot → LogEntry Tid → Slot → Prop
  | issued (c : Syscall) : Moves t .idle (.issued t c) (.issued c)
  | performed {c : Syscall} {who : Option Tid} (hwho : who = none ∨ who = some t) (w : Word) :
      Moves t (.issued c) (.performed who c w) (.performed c w)
  | returned (c : Syscall) (w : Word) :
      Moves t (.performed c w) (.returned t c (c.origValue w)) .idle

variable [DecidableEq Tid]

/-- **The logs without the library**, with where each thread is after them. -/
inductive Direct : List (LogEntry Tid) → (Tid → Slot) → Prop
  | nil : Direct [] fun _ => .idle
  | snoc {log : List (LogEntry Tid)} {slot : Tid → Slot} {t : Tid} {x : LogEntry Tid} {s : Slot}
      (h : Direct log slot) (hx : Slot.Moves t (slot t) x s)
      (hfree : ∀ u d, u ≠ t → (slot u).call = some d → d.descriptor ≠ x.call.descriptor) :
      Direct (log ++ [x]) (Function.update slot t s)

omit [DecidableEq Tid] in
theorem Slot.Moves.call_eq {t : Tid} {s s' : Slot} {x : LogEntry Tid} (h : Slot.Moves t s x s')
    {c : Syscall} (hc : s'.call = some c) :
    c = x.call ∧ ((∃ d, x = .issued t d) ∨ s.call = some c) := by
  cases h with
  | issued d =>
      cases hc
      exact ⟨rfl, .inl ⟨_, rfl⟩⟩
  | performed hwho w =>
      cases hc
      exact ⟨rfl, .inr rfl⟩
  | returned => cases hc

namespace Direct

variable {log : List (LogEntry Tid)} {slot : Tid → Slot} {t u : Tid} {c d : Syscall}

/-- A descriptor has one user. -/
theorem eq_of_descriptor (h : Direct log slot) (ht : (slot t).call = some c)
    (hu : (slot u).call = some d) (heq : c.descriptor = d.descriptor) : t = u := by
  induction h generalizing t u c d with
  | nil => cases ht
  | @snoc log slot v x s h hx hfree ih =>
      by_cases htv : t = v
      · by_cases huv : u = v
        · rw [htv, huv]
        · rw [htv, Function.update_self] at ht
          rw [Function.update_of_ne huv] at hu
          rw [(hx.call_eq ht).1] at heq
          exact absurd heq.symm (hfree u d huv hu)
      · rw [Function.update_of_ne htv] at ht
        by_cases huv : u = v
        · rw [huv, Function.update_self] at hu
          rw [(hx.call_eq hu).1] at heq
          exact absurd heq (hfree t c htv ht)
        · rw [Function.update_of_ne huv] at hu
          exact ih ht hu heq

/-- Where one thread makes all the calls, no other is in a call. -/
theorem eq_of_issued (h : Direct log slot) (hone : ∀ v d, .issued v d ∈ log → v = u)
    (ht : (slot t).call = some c) : t = u := by
  induction h generalizing t c with
  | nil => cases ht
  | @snoc log slot v x s h hx hfree ih =>
      have hone' := fun v d hmem => hone v d (List.mem_append_left _ hmem)
      by_cases htv : t = v
      · rw [htv, Function.update_self] at ht
        rw [htv]
        obtain ⟨-, ⟨d, rfl⟩ | hold⟩ := hx.call_eq ht
        · exact hone v d (List.mem_append_right _ (List.mem_singleton_self _))
        · exact ih hone' hold
      · rw [Function.update_of_ne htv] at ht
        exact ih hone' ht

end Direct

/-! ## The sequences -/

section Sequences

variable (P : Syscall → Bool)

/-- The calls in `P` as they are made, -/
def LogEntry.issuedCall : LogEntry Tid → Option Syscall
  | .issued _ c => if P c then some c else none
  | _ => none

/-- as they are performed, -/
def LogEntry.performedCall : LogEntry Tid → Option Syscall
  | .performed _ c _ => if P c then some c else none
  | _ => none

/-- what the original calls returned, as the types of the calls have it, -/
def LogEntry.result : LogEntry Tid → Option Word
  | .performed _ c w => if P c then some (c.origValue w) else none
  | _ => none

/-- and what the wrappers returned. -/
def LogEntry.value : LogEntry Tid → Option Word
  | .returned _ c a => if P c then some a else none
  | _ => none

/-- The call made and not yet performed. -/
def Slot.unperformed : Slot → Option Syscall
  | .issued c => if P c then some c else none
  | _ => none

/-- The result not yet returned. -/
def Slot.unreturned : Slot → Option Word
  | .performed c w => if P c then some (c.origValue w) else none
  | _ => none

variable {P}

theorem Slot.unperformed_eq_some {s : Slot} {c : Syscall} (h : s.unperformed P = some c) :
    s = .issued c ∧ P c = true := by
  cases s with
  | issued d =>
      obtain ⟨hP, hc⟩ := Option.ite_none_right_eq_some.mp h
      cases hc
      exact ⟨rfl, hP⟩
  | _ => cases h

theorem Slot.unreturned_eq_some {s : Slot} {a : Word} (h : s.unreturned P = some a) :
    ∃ c w, s = .performed c w ∧ P c = true ∧ c.origValue w = a := by
  cases s with
  | performed c w =>
      obtain ⟨hP, ha⟩ := Option.ite_none_right_eq_some.mp h
      exact ⟨c, w, rfl, hP, Option.some.inj ha⟩
  | _ => cases h

variable (P) in
/-- Of the calls in `P` at most one was under way at any time. -/
def OneAtATime (log : List (LogEntry Tid)) : Prop :=
  ∀ log' slot', log' <+: log → Direct log' slot' → ∀ t u c d, (slot' t).call = some c →
    (slot' u).call = some d → P c = true → P d = true → t = u

end Sequences

/-- At most one thread has an `f`, and `rest` is that. -/
inductive Pending {α : Type} (f : Slot → Option α) (slot : Tid → Slot) : List α → Prop
  | empty (h : ∀ t, f (slot t) = none) : Pending f slot []
  | single {t : Tid} {a : α} (ht : f (slot t) = some a) (h : ∀ u, u ≠ t → f (slot u) = none) :
      Pending f slot [a]

/-- A move of a thread adds an item to the first sequence and to the thread's
slot, or takes it from the slot into the second sequence, or does neither. -/
inductive Slot.Passes {α : Type} (made done : Option α) (before after : Option α) : Prop
  | put (a : α) (hmade : made = some a) (hdone : done = none) (hbefore : before = none)
      (hafter : after = some a)
  | take (a : α) (hmade : made = none) (hdone : done = some a) (hbefore : before = some a)
      (hafter : after = none)
  | keep (hmade : made = none) (hdone : done = none) (hafter : after = before)

section Pending

variable {α : Type} {f : Slot → Option α} {slot : Tid → Slot} {rest : List α} {t : Tid} {s : Slot}

omit [DecidableEq Tid] in
theorem Pending.eq_nil (h : Pending f slot rest) (hnone : ∀ t, f (slot t) = none) : rest = [] := by
  cases h with
  | empty => rfl
  | @single t a ht =>
      rw [hnone t] at ht
      cases ht

omit [DecidableEq Tid] in
theorem Pending.eq_singleton (h : Pending f slot rest) {a : α} (ht : f (slot t) = some a) :
    rest = [a] ∧ ∀ u, u ≠ t → f (slot u) = none := by
  cases h with
  | empty h =>
      rw [h t] at ht
      cases ht
  | @single v b hv hone =>
      have htv : t = v := by
        by_contra hne
        rw [hone t hne] at ht
        cases ht
      subst htv
      rw [hv] at ht
      cases ht
      exact ⟨rfl, hone⟩

/-- One move. -/
theorem Pending.snoc {made done : LogEntry Tid → Option α} {log : List (LogEntry Tid)}
    {x : LogEntry Tid} (h : Pending f slot rest)
    (heq : log.filterMap made = log.filterMap done ++ rest)
    (hx : Slot.Passes (made x) (done x) (f (slot t)) (f s))
    (hone : ∀ a, f s = some a → ∀ u, u ≠ t → f (slot u) = none) :
    ∃ rest', (log ++ [x]).filterMap made = (log ++ [x]).filterMap done ++ rest' ∧
      Pending f (Function.update slot t s) rest' := by
  rw [List.filterMap_append, List.filterMap_append, heq]
  cases hx with
  | put a hmade hdone hbefore hafter =>
      have hothers := hone a hafter
      have hrest : rest = [] := by
        refine h.eq_nil fun u => ?_
        by_cases hut : u = t
        · rwa [hut]
        · exact hothers u hut
      refine ⟨[a], by simp [hmade, hdone, hrest], ?_⟩
      refine .single (t := t) (by rwa [Function.update_self]) fun u hut => ?_
      rw [Function.update_of_ne hut]
      exact hothers u hut
  | take a hmade hdone hbefore hafter =>
      obtain ⟨hrest, hothers⟩ := h.eq_singleton hbefore
      refine ⟨[], by simp [hmade, hdone, hrest], .empty fun u => ?_⟩
      by_cases hut : u = t
      · rwa [hut, Function.update_self]
      · rw [Function.update_of_ne hut]
        exact hothers u hut
  | keep hmade hdone hafter =>
      have hsame : ∀ u, f (Function.update slot t s u) = f (slot u) := by
        intro u
        by_cases hut : u = t
        · rw [hut, Function.update_self, hafter]
        · rw [Function.update_of_ne hut]
      refine ⟨rest, by simp [hmade, hdone], ?_⟩
      cases h with
      | empty h => exact .empty fun u => (hsame u).trans (h u)
      | single hv hone => exact .single ((hsame _).trans hv) fun u hu => (hsame u).trans (hone u hu)

end Pending

namespace Direct

variable {P : Syscall → Bool} {log : List (LogEntry Tid)} {slot : Tid → Slot}

/-- Two sequences of which one follows the other by at most one step. -/
theorem pending {α : Type} {made done : LogEntry Tid → Option α} {f : Slot → Option α}
    (h : Direct log slot) (hone : OneAtATime P log)
    (hf : ∀ s a, f s = some a → ∃ c, s.call = some c ∧ P c = true)
    (hpass : ∀ {t s x s'}, Slot.Moves t s x s' → Slot.Passes (made x) (done x) (f s) (f s')) :
    ∃ rest, log.filterMap made = log.filterMap done ++ rest ∧ Pending f slot rest := by
  induction h with
  | nil =>
      refine ⟨[], rfl, .empty fun _ => ?_⟩
      by_contra hne
      obtain ⟨a, ha⟩ := Option.ne_none_iff_exists'.mp hne
      obtain ⟨c, hc, -⟩ := hf _ a ha
      cases hc
  | @snoc log slot t x s h hx hfree ih =>
      obtain ⟨rest, heq, hrest⟩ :=
        ih fun log' slot' hlog => hone log' slot' (hlog.trans (List.prefix_append log [x]))
      refine hrest.snoc heq (hpass hx) fun a ha u hut => ?_
      by_contra hne
      obtain ⟨b, hb⟩ := Option.ne_none_iff_exists'.mp hne
      obtain ⟨c, hc, hPc⟩ := hf _ a ha
      obtain ⟨d, hd, hPd⟩ := hf _ b hb
      -- two threads would be in a call of `P`
      refine hut (hone _ _ (List.prefix_refl _) (h.snoc hx hfree) u t d c ?_ ?_ hPd hPc)
      · rwa [Function.update_of_ne hut]
      · rwa [Function.update_self]

/-- **The sequence performed is the sequence made**, but for the last call. -/
theorem performed_eq (h : Direct log slot) (hone : OneAtATime P log) :
    ∃ rest, log.filterMap (LogEntry.issuedCall P)
        = log.filterMap (LogEntry.performedCall P) ++ rest ∧
      Pending (Slot.unperformed P) slot rest := by
  refine h.pending hone ?_ ?_
  · intro s a ha
    obtain ⟨rfl, hP⟩ := Slot.unperformed_eq_some ha
    exact ⟨a, rfl, hP⟩
  · intro t s x s' hx
    cases hx with
    | issued c =>
        by_cases hP : P c = true
        · exact .put c (if_pos hP) rfl rfl (if_pos hP)
        · exact .keep (if_neg hP) rfl (if_neg hP)
    | @performed c who hwho w =>
        by_cases hP : P c = true
        · exact .take c rfl (if_pos hP) (if_pos hP) rfl
        · exact .keep rfl (if_neg hP) (if_neg hP).symm
    | returned c w => exact .keep rfl rfl rfl

/-- **The values returned are the results**, but for the last call's. -/
theorem values_eq (h : Direct log slot) (hone : OneAtATime P log) :
    ∃ rest, log.filterMap (LogEntry.result P) = log.filterMap (LogEntry.value P) ++ rest ∧
      Pending (Slot.unreturned P) slot rest := by
  refine h.pending hone ?_ ?_
  · intro s a ha
    obtain ⟨c, w, rfl, hP, -⟩ := Slot.unreturned_eq_some ha
    exact ⟨c, rfl, hP⟩
  · intro t s x s' hx
    cases hx with
    | issued c => exact .keep rfl rfl rfl
    | @performed c who hwho w =>
        by_cases hP : P c = true
        · exact .put (c.origValue w) (if_pos hP) rfl rfl (if_pos hP)
        · exact .keep (if_neg hP) rfl (if_neg hP)
    | returned c w =>
        by_cases hP : P c = true
        · exact .take (c.origValue w) rfl (if_pos hP) (if_pos hP) rfl
        · exact .keep rfl (if_neg hP) (if_neg hP).symm

end Direct

end CorePartitioning.Preload
