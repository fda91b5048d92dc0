import Mathlib.Logic.Function.Basic

/-!
# Programs over a set of operations

A program is the tree of what it does next: an operation, and how it goes
on for each answer. Programs are written with `do`; what the operations
mean is given separately, by `sem`, so one text serves the run of a single
call (`exec`) and the interleaving of many.

`Safe` follows a local observation `h` of the program's own operations (the
locks it holds, say) through all its paths. It is stated on the text alone:
which answers can occur, given what is observed, is a parameter.
-/

/-- A result, or an operation and what follows each of its answers. -/
inductive Prog (Op : Type) (Res : Op → Type) (α : Type) : Type
  | ret (a : α)
  | op (o : Op) (k : Res o → Prog Op Res α)

namespace Prog

variable {Op : Type} {Res : Op → Type} {α β H S E : Type}

def bind : Prog Op Res α → (α → Prog Op Res β) → Prog Op Res β
  | ret a, f => f a
  | op o k, f => op o fun r => (k r).bind f

instance : Monad (Prog Op Res) where
  pure := ret
  bind := bind

/-- One operation, for its answer. -/
def call (o : Op) : Prog Op Res (Res o) := op o ret

@[simp] theorem op_bind (o : Op) (k : Res o → Prog Op Res α) (f : α → Prog Op Res β) :
    (op o k >>= f) = op o fun r => k r >>= f := rfl

@[simp] theorem call_bind (o : Op) (f : Res o → Prog Op Res β) : (call o >>= f) = op o f := rfl

/-- **The run of one program.** `e` is what the world outside answers, the
same for the whole run. -/
def exec (sem : E → S → (o : Op) → Option (Res o × S)) (e : E) :
    Prog Op Res α → S → Option (α × S)
  | ret a, s => some (a, s)
  | op o k, s => (sem e s o).bind fun x => exec sem e (k x.1) x.2

theorem exec_op {sem : E → S → (o : Op) → Option (Res o × S)} {e : E} {s s' : S} {o : Op}
    {r : Res o} (h : sem e s o = some (r, s')) (k : Res o → Prog Op Res α) :
    (op o k).exec sem e s = (k r).exec sem e s' := by
  show (sem e s o).bind _ = _
  rw [h]
  rfl

section Safe

variable (next : H → Op → H) (ok : H → (o : Op) → Res o → Prop) (pre : H → Op → Prop)

/-- Observed from `h`, every operation meets `pre` and the end meets `post`,
on all paths whose answers are `ok`. -/
def Safe (post : H → Prop) : H → Prog Op Res α → Prop
  | h, ret _ => post h
  | h, op o k => pre h o ∧ ∀ r, ok h o r → Safe post (next h o) (k r)

end Safe

variable {next : H → Op → H} {ok : H → (o : Op) → Res o → Prop} {pre : H → Op → Prop}
  {post : H → Prop}

theorem Safe.mono {post' : H → Prop} {h : H} {p : Prog Op Res α}
    (hp : Safe next ok pre post h p) (hpost : ∀ h, post h → post' h) :
    Safe next ok pre post' h p := by
  induction p generalizing h with
  | ret a => exact hpost h hp
  | op o k ih => exact ⟨hp.1, fun r hr => ih r (hp.2 r hr)⟩

/-- The end of a run meets `post` when all its answers are `ok`. -/
theorem Safe.exec {sem : E → S → (o : Op) → Option (Res o × S)} {e : E} {hold : S → H}
    (hsem : ∀ {s o r s'}, sem e s o = some (r, s') →
      ok (hold s) o r ∧ hold s' = next (hold s) o)
    {p : Prog Op Res α} {s s' : S} {a : α} (h : Safe next ok pre post (hold s) p)
    (hrun : p.exec sem e s = some (a, s')) : post (hold s') := by
  induction p generalizing s with
  | ret a =>
      cases hrun
      exact h
  | op o k ih =>
      unfold Prog.exec at hrun
      obtain ⟨⟨r, s₁⟩, ho, hrest⟩ := Option.bind_eq_some_iff.mp hrun
      obtain ⟨hr, hnext⟩ := hsem ho
      have hk := h.2 r hr
      rw [← hnext] at hk
      exact ih r hk hrest

/-- All paths cost at most `n`, an operation `o` costing `cost o`. -/
def Costs (cost : Op → Nat) : Nat → Prog Op Res α → Prop
  | _, ret _ => True
  | n, op o k => cost o ≤ n ∧ ∀ r, Costs cost (n - cost o) (k r)

theorem Costs.mono {cost : Op → Nat} {n m : Nat} {p : Prog Op Res α} (h : p.Costs cost n)
    (hnm : n ≤ m) : p.Costs cost m := by
  induction p generalizing n m with
  | ret a => trivial
  | op o k ih =>
      obtain ⟨hcost, hrest⟩ := h
      exact ⟨Nat.le_trans hcost hnm, fun r => ih r (hrest r) (Nat.sub_le_sub_right hnm _)⟩

/-- All paths cost exactly `n`. -/
def Spends (cost : Op → Nat) : Nat → Prog Op Res α → Prop
  | n, ret _ => n = 0
  | n, op o k => ∃ m, n = cost o + m ∧ ∀ r, Spends cost m (k r)

end Prog
