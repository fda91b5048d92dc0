import CorePartitioning.Lib.Outline
import CorePartitioning.Preload.TableChange

/-!
# ld_preload.c — a registration that fails

The five wrappers that make an entry ignore both failures on the way. A
`NULL` of `fdtable_add` is written through: the call does not return. A
code of `pthread_create` is dropped: the entry stays in the list without a
thread. In no case is the table restored.
-/

namespace CorePartitioning.Preload

variable {Tid : Type} [DecidableEq Tid]

/-- The descriptor the original function of a call returns: to the caller,
in `accept` to the listening entry's thread. -/
def Syscall.given (e : Env) : Syscall → CInt
  | .accept .. => e.recv_data.return_value
  | _ => e.result.setWidth 32

/-- The wrapper turns to `fdtable_add`. -/
def Registers (c : Syscall) (e : Env) (tbl : FdTable) : Prop :=
  fdtable_get_by_fd_all tbl (c.given e) = none ∧
    match c with
    | .socket .. | .epoll_create .. =>
        0 ≤ (c.given e).toInt ∧ fdtable_getnumber tbl < MAXTHREAD
    | .open .. => 3 ≤ (c.given e).toInt ∧ fdtable_getnumber tbl < MAXTHREAD
    | .openat .. => 0 < (c.given e).toInt ∧ fdtable_getnumber tbl < MAXTHREAD
    | .accept socket .. =>
        0 < (c.given e).toInt ∧ (fdtable_get_by_fd tbl socket false).isSome
    | _ => False

/-- The wrapper turns to `fdtable_add`, and this or `pthread_create` fails. -/
def RegistrationFails (c : Syscall) (e : Env) (tbl : FdTable) : Prop :=
  Registers c e tbl ∧ (e.calloc = false ∨ e.created ≠ 0)

/-- The call returns the descriptor and leaves the table as it was. -/
def Undelegated (c : Syscall) (t : Tid) (e : Env) (w : World Tid) : Prop :=
  ∃ a w', (wrapper c).exec (sem t) e w = some (a, w') ∧ a = (c.given e).signExtend 64 ∧
    w'.table.entries = w.table.entries ∧ w'.table.thr_num = w.table.thr_num

/-- The program deletes no entry. -/
abbrev KeepsEntries (p : Wrapper Word) : Prop :=
  p.Outline (fun (_ : Unit) _ _ => ()) (fun _ _ _ => True)
    (fun _ o => ∀ fd, o ≠ .fdtable_delete fd) (fun _ _ => True) ()

theorem FdTable.Change.le_length {e : Env} {pid : Nat} {tbl tbl' : FdTable} {o : Op} {r : o.Res}
    (h : tbl.Change e pid o r tbl') (ho : ∀ fd, o ≠ .fdtable_delete fd) :
    tbl.entries.length ≤ tbl'.entries.length := by
  cases h with
  | keep | add_fails | create_fails => exact Nat.le_refl _
  | add => exact Nat.le_succ _
  | delete fd => exact absurd rfl (ho fd)
  | write hw hm =>
      obtain ⟨p, rfl, -, rfl⟩ := FdTable.modify_eq_some hm
      simp

theorem KeepsEntries.length_le {p : Wrapper Word} {t : Tid} {e : Env} {w w' : World Tid}
    {a : Word} (hp : KeepsEntries p) (h : p.exec (sem t) e w = some (a, w')) :
    w.table.entries.length ≤ w'.table.entries.length := by
  obtain ⟨-, hle, -⟩ := hp.exec
    (R := fun (w₁ : World Tid) _ => w.table.entries.length ≤ w₁.table.entries.length) (by
      intro s _ o r s' hR hpre ho
      exact ⟨trivial, Nat.le_trans hR ((sem_change ho).le_length hpre)⟩) (Nat.le_refl _) h
  exact hle

/-- The run blocks, or comes to `fdtable_add` with the table `tbl`. Without a
new entry it ends there; with one no entry goes away. -/
def Adds (t : Tid) (e : Env) (tbl : FdTable) (p : Wrapper Word) (w : World Tid) : Prop :=
  p.exec (sem t) e w = none ∨
    ∃ (k : Option Ptr → Wrapper Word) (w₁ : World Tid),
      p.exec (sem t) e w = (Prog.op .fdtable_add k : Wrapper Word).exec (sem t) e w₁ ∧
      w₁.table = tbl ∧ (k none).exec (sem t) e w₁ = none ∧ ∀ p, KeepsEntries (k (some p))

variable {t : Tid} {e : Env} {tbl : FdTable} {w w' : World Tid}

theorem Adds.stuck {p : Wrapper Word} (h : Adds t e tbl p w) (hcalloc : e.calloc = false) :
    p.exec (sem t) e w = none := by
  obtain hnone | ⟨k, w₁, hexec, -, hstuck, -⟩ := h
  · exact hnone
  · rw [hexec, Prog.exec, sem, hcalloc]
    exact hstuck

theorem Adds.not_same {p : Wrapper Word} {a : Word} (h : Adds t e tbl p w)
    (hrun : p.exec (sem t) e w = some (a, w')) : w'.table.entries ≠ tbl.entries := by
  obtain hnone | ⟨k, w₁, hexec, rfl, hstuck, hkeep⟩ := h
  · rw [hnone] at hrun
    cases hrun
  rw [hexec] at hrun
  simp only [Prog.exec, sem] at hrun
  split at hrun
  · intro heq
    have hle := (hkeep _).length_le hrun
    rw [heq] at hle
    exact Nat.not_succ_le_self _ hle
  · rw [Option.bind_some, hstuck] at hrun
    cases hrun

/-- An operation before the insertion. -/
theorem Adds.op {o : Op} {k : o.Res → Wrapper Word} (hm : mutates o = false)
    (htbl : w.table = tbl)
    (hk : ∀ r w₁, sem t e w o = some (r, w₁) → w₁.table = tbl → Adds t e tbl (k r) w₁) :
    Adds t e tbl (.op o k) w := by
  cases ho : sem t e w o with
  | none =>
      refine .inl ?_
      rw [Prog.exec, ho]
      rfl
  | some x =>
      obtain ⟨r, w₁⟩ := x
      have hexec : (Prog.op o k : Wrapper Word).exec (sem t) e w = (k r).exec (sem t) e w₁ := by
        rw [Prog.exec, ho]
        rfl
      have hsame : w₁.table = tbl := by
        rw [← htbl, sem_table hm ho]
      have hrest := hk r w₁ ho hsame
      unfold Adds at hrest ⊢
      rwa [hexec]

theorem Adds.add {k : Option Ptr → Wrapper Word} (htbl : w.table = tbl)
    (hstuck : ∀ w : World Tid, (k none).exec (sem t) e w = none)
    (hkeep : ∀ p, KeepsEntries (k (some p))) : Adds t e tbl (.op .fdtable_add k) w :=
  .inr ⟨k, w, rfl, htbl, hstuck w, hkeep⟩

/-- The way out. -/
theorem unlock_finish_keeps (func_errno ret : CInt) :
    KeepsEntries (.op (.pthread_rwlock .unlock) fun _ => finish func_errno ret) :=
  ⟨nofun, fun _ _ => ⟨nofun, fun _ _ => trivial⟩⟩

/-- A write through `NULL`. -/
theorem exec_write_null {o : Op} {k : o.Res → Wrapper Word} (h : sem t e w o = none) :
    (Prog.op o k : Wrapper Word).exec (sem t) e w = none := by
  rw [Prog.exec, h]
  rfl

theorem Adds.registerFile {ret func_errno : CInt} (htbl : w.table = tbl) :
    Adds t e tbl (registerFile ret func_errno) w := by
  simp only [Preload.registerFile, Prog.call_bind]
  refine .add htbl (fun _ => exec_write_null rfl) fun p =>
    ⟨by simp, fun _ _ => ⟨by simp, fun _ _ => ?_⟩⟩
  exact ⟨by simp, fun _ _ => ⟨by simp, fun _ _ => unlock_finish_keeps _ _⟩⟩

/-- The lookup and the first way out. -/
theorem Adds.lookup {ret : CInt} {x : RwLock.Op} {bad good : Wrapper Word} (htbl : w.table = tbl)
    (hmiss : fdtable_get_by_fd_all tbl ret = none) (hnonneg : 0 ≤ ret.toInt)
    (hgood : ∀ w : World Tid, w.table = tbl → Adds t e tbl good w) :
    Adds t e tbl (.op (.pthread_rwlock x) fun _ => .op (.fdtable_get_by_fd_all ret) fun found =>
      if found.isSome ∨ ret.toInt < 0 then bad else good) w := by
  refine .op rfl htbl fun _ w₁ _ h₁ => .op rfl h₁ fun found w₂ hfound h₂ => ?_
  obtain rfl : found = none := by
    cases hfound
    rw [h₁, hmiss]
    rfl
  rw [if_neg (by simp; omega)]
  exact hgood w₂ h₂

/-- The admission test. -/
theorem Adds.room {full reg : Wrapper Word} (htbl : w.table = tbl)
    (hroom : fdtable_getnumber tbl < MAXTHREAD)
    (hreg : ∀ w : World Tid, w.table = tbl → Adds t e tbl reg w) :
    Adds t e tbl (.op .fdtable_getnumber fun num => if num < MAXTHREAD then reg else full) w := by
  refine .op rfl htbl fun num w₁ hnum h₁ => ?_
  obtain rfl : num = fdtable_getnumber tbl := by
    cases hnum
    rw [htbl]
  rw [if_pos hroom]
  exact hreg w₁ h₁

theorem Adds.withErrno {c : Syscall} {f : CInt × CInt → Wrapper Word} (htbl : w.table = tbl)
    (hf : ∀ func_errno (w : World Tid), w.table = tbl →
      Adds t e tbl (f (e.result.setWidth 32, func_errno)) w) :
    Adds t e tbl (withErrno c >>= f) w := by
  simp only [Preload.withErrno, Prog.call_bind, Prog.op_bind]
  refine .op rfl htbl fun func_errno w₁ _ h₁ => .op rfl h₁ fun _ w₂ _ h₂ => ?_
  refine .op rfl h₂ fun r w₃ hr h₃ => .op rfl h₃ fun e' w₄ _ h₄ => ?_
  obtain rfl : r = e.result := by
    cases hr
    rfl
  split
  · exact hf _ w₄ h₄
  · exact .op rfl h₄ fun _ w₅ _ h₅ => hf _ w₅ h₅

/-- A wrapper that registers comes to its insertion. -/
theorem adds_of_registers {c : Syscall} (h : Registers c e w.table) :
    Adds t e w.table (wrapper c) w := by
  obtain ⟨hmiss, hc⟩ := h
  cases c with
  | socket domain type protocol =>
      obtain ⟨hnonneg, hroom⟩ := hc
      simp only [wrapper, socket, Prog.call_bind]
      refine .op rfl rfl fun r w₁ hr h₁ => .op rfl h₁ fun func_errno w₂ _ h₂ => ?_
      obtain rfl : r = e.result := by
        cases hr
        rfl
      refine .lookup h₂ hmiss hnonneg fun w₃ h₃ => .room h₃ hroom fun w₄ h₄ => .add h₄ ?_ ?_
      · intro w₅
        simp only [Prog.exec, sem]
        split <;> rfl
      · intro p
        refine ⟨by simp, fun _ _ => ⟨by simp, fun _ _ => ⟨by simp, fun _ _ => ?_⟩⟩⟩
        exact ⟨by simp, fun _ _ => unlock_finish_keeps _ _⟩
  | «open» path flags mode =>
      obtain ⟨hlow, hroom⟩ : 3 ≤ (e.result.setWidth 32).toInt ∧ _ := hc
      refine .withErrno rfl fun func_errno w₁ h₁ => ?_
      simp only [Prog.call_bind]
      rw [if_neg (by omega)]
      refine .lookup h₁ hmiss (by omega) fun w₂ h₂ => .room h₂ hroom fun w₃ h₃ => ?_
      exact .registerFile h₃
  | openat dirfd pathname flags mode =>
      obtain ⟨hpos, hroom⟩ : 0 < (e.result.setWidth 32).toInt ∧ _ := hc
      refine .withErrno rfl fun _ w₁ h₁ => ?_
      simp only [Prog.call_bind]
      refine .op rfl h₁ fun func_errno w₂ _ h₂ => .lookup h₂ hmiss (by omega) fun w₃ h₃ => ?_
      rw [if_pos hpos]
      exact .room h₃ hroom fun w₄ h₄ => .registerFile h₄
  | epoll_create size =>
      obtain ⟨hnonneg, hroom⟩ := hc
      refine .withErrno rfl fun func_errno w₁ h₁ => ?_
      simp only [registerEpoll, Prog.call_bind]
      refine .lookup h₁ hmiss hnonneg fun w₂ h₂ => .room h₂ hroom fun w₃ h₃ => .add h₃ ?_ ?_
      · exact fun _ => exec_write_null rfl
      · intro p
        refine ⟨by simp, fun _ _ => ⟨by simp, fun _ _ => ⟨by simp, fun _ _ => ?_⟩⟩⟩
        exact ⟨by simp, fun _ _ => unlock_finish_keeps _ _⟩
  | accept socket addr addrlen =>
      obtain ⟨hpos, hlistening⟩ : 0 < e.recv_data.return_value.toInt ∧ _ := hc
      obtain ⟨x, hx⟩ := Option.isSome_iff_exists.mp hlistening
      simp only [wrapper, accept, Prog.call_bind]
      refine .op rfl rfl fun _ w₁ _ h₁ => .op rfl h₁ fun tmp w₂ htmp h₂ => ?_
      obtain rfl : tmp = some x.ptr := by
        cases htmp
        rw [h₁, hx]
        rfl
      refine .op rfl h₂ fun _ w₃ _ h₃ => .op rfl h₃ fun recv_data w₄ hrecv h₄ => ?_
      obtain rfl : recv_data = e.recv_data := by
        cases hrecv
        rfl
      rw [if_pos hpos]
      refine .op rfl h₄ fun found w₅ hfound h₅ => ?_
      obtain rfl : found = none := by
        cases hfound
        rw [h₄]
        exact congrArg (Option.map _) hmiss
      refine .add h₅ (fun _ => exec_write_null rfl) fun p => ?_
      refine ⟨by simp, fun _ _ => ⟨by simp, fun _ _ => ⟨by simp, fun _ _ => ?_⟩⟩⟩
      exact ⟨by simp, fun _ _ => unlock_finish_keeps _ _⟩
  | _ => exact hc.elim

/-- **A failed registration is never undone.** The wrapper does not return
with the table as it was; without an entry it does not return at all. -/
theorem registration_never_undone {c : Syscall} (h : RegistrationFails c e w.table) :
    ¬ Undelegated c t e w ∧
      (e.calloc = false → (wrapper c).exec (sem t) e w = none) := by
  have hadds := adds_of_registers (t := t) h.1
  refine ⟨?_, hadds.stuck⟩
  rintro ⟨a, w', hrun, -, hsame, -⟩
  exact hadds.not_same hrun hsame

/-- `socket` with the result 5 and without a thread. -/
theorem registration_not_undone_by_socket :
    ¬ Undelegated (.socket 2 1 0) false { result := 5, created := 11 } ({} : World Bool) ∧
      (({ result := 5, created := 11 } : Env).calloc = false →
        (wrapper (.socket 2 1 0)).exec (sem false) { result := 5, created := 11 }
          ({} : World Bool) = none) :=
  registration_never_undone ⟨⟨rfl, by decide, by decide⟩, .inr (by decide)⟩

/-- ... leaves an entry for descriptor 5 behind. -/
theorem failed_registration_keeps_entry :
    ¬ ∀ (c : Syscall) (t : Bool) (e : Env) (w : World Bool),
      RegistrationFails c e w.table → Undelegated c t e w := by
  intro h
  obtain ⟨a, w', hrun, -, hsame, -⟩ := h (.socket 2 1 0) false { result := 5, created := 11 } {}
    ⟨⟨rfl, by decide, by decide⟩, .inr (by decide)⟩
  have hone : ((wrapper (.socket 2 1 0)).exec (sem false) { result := 5, created := 11 }
      ({} : World Bool)).map (fun x => x.2.table.entries.map (·.thr_fd)) = some [5] := by
    decide
  rw [hrun] at hone
  simp only [Option.map_some, Option.some.injEq] at hone
  rw [hsame] at hone
  cases hone

end CorePartitioning.Preload
