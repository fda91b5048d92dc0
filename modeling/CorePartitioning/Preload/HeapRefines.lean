import CorePartitioning.Lib.Run
import CorePartitioning.Preload.HeapList
import Mathlib.Data.List.Basic

/-!
# fdtable.c — the linked list refines the list

Calls of the functions of fdtable.c and assignments of `thr_fd` to entries
that `fdtable_add` has returned, in any order. The allocator may answer any
address that is not in use, one that was freed before included.

The table of FdTable.lean, which the wrappers of ld_preload.c are modelled
over, is what the linked list in memory stands for: each call does what the
list's function of the same name does, with the same return value, and the
searches and the counter agree. The one thing the list model fixes is the
allocator; here it answers what `calloc` has answered.
-/

namespace CorePartitioning.Preload.Heap

/-! ## Calls -/

inductive Action
  | add (new message : Option Ptr) (pid : Nat)
  | set_thr_fd (tmp : Ptr) (fd : CInt)
  | delete (fd : CInt)
  | entry_delete (fd : CInt)
  deriving DecidableEq

def set_thr_fd (s : Table) (tmp : Ptr) (fd : CInt) : Option Table := do
  let m ← s.memory.store tmp fun c => { c with thr_fd := fd }
  return { s with memory := m }

def step (s : Table) : Action → Option Table
  | .add new message pid => (fdtable_add s new message pid).map (·.2)
  | .set_thr_fd tmp fd => set_thr_fd s tmp fd
  | .delete fd => (fdtable_delete s fd).map (·.2)
  | .entry_delete fd => (fdtable_entry_delete s fd).map (·.2)

/-- An assignment is to an entry that `fdtable_add` has returned: of the
entries that are there, all but the sentinels are. -/
def Returned (s : Table) : Action → Prop
  | .set_thr_fd tmp _ => tmp ≠ s.header ∧ tmp ≠ s.tail
  | _ => True

instance (s : Table) (a : Action) : Decidable (Returned s a) :=
  match a with
  | .set_thr_fd _ _ => inferInstanceAs (Decidable (_ ∧ _))
  | .add .. | .delete _ | .entry_delete _ => inferInstanceAs (Decidable True)

/-! ## The list in memory and the list -/

structure Counted (s : Table) (l : List Ptr) : Prop extends Sound s l where
  counted : s.thr_num = BitVec.ofNat 32 l.length

/-- `tbl` is what the linked list `l` in memory stands for. -/
structure Refines (s : Table) (l : List Ptr) (tbl : FdTable) : Prop extends Counted s l where
  entries : tbl.entries = l.map s.memory.info
  thr_num : tbl.thr_num = s.thr_num

/-- The list's functions, with the address that `calloc` gives. Where it
gives none, nothing is added, and an entry that is no longer in the list is
assigned to in memory only. -/
def listStep (tbl : FdTable) : Action → Option FdTable
  | .add new _ pid =>
      match new with
      | none => some tbl
      | some new => some (Preload.fdtable_add { tbl with nextPtr := new } pid).2
  | .set_thr_fd tmp fd => some ((tbl.modify tmp fun x => { x with thr_fd := fd }).getD tbl)
  | .delete fd => some (Preload.fdtable_delete tbl fd).2
  | .entry_delete fd => some (Preload.fdtable_delete tbl fd).2

variable {s s' : Table} {l l₁ l₂ : List Ptr} {tbl : FdTable} {tmp : Ptr} {fd : CInt}

/-! ## What is read -/

theorem Refines.get_by_fd_all (h : Refines s l tbl) (fd : CInt) :
    fdtable_get_by_fd_all s fd =
      some ((Preload.fdtable_get_by_fd_all tbl fd).map (·.ptr)) := by
  rw [h.toSound.get_by_fd_all, Preload.fdtable_get_by_fd_all, h.entries]

theorem Refines.getnumber (h : Refines s l tbl) :
    fdtable_getnumber s = Preload.fdtable_getnumber tbl := by
  rw [fdtable_getnumber, Preload.fdtable_getnumber, h.thr_num]

/-! ## What is changed -/

theorem Counted.add (h : Counted s l) {m : Memory} {new message : Ptr} {pid : Nat}
    (hnew : s.memory.Unused new) (hmessage : s.memory.Unused message)
    (ha : Added s.memory m s.header new message pid) :
    Counted { s with memory := m, thr_num := s.thr_num + 1 } (new :: l) where
  toSound := h.toSound.add hnew hmessage ha
  counted := by
    show s.thr_num + 1 = BitVec.ofNat 32 (l.length + 1)
    rw [h.counted, BitVec.ofNat_add]
    rfl

theorem sub_one_counted (h : Counted s (l₁ ++ tmp :: l₂)) :
    s.thr_num - 1 = BitVec.ofNat 32 (l₁ ++ l₂).length := by
  have hlen : (l₁ ++ tmp :: l₂).length = (l₁ ++ l₂).length + 1 := by simp; omega
  rw [h.counted, hlen, BitVec.ofNat_add]
  exact BitVec.add_sub_cancel _ _

theorem Counted.delete (h : Counted s (l₁ ++ tmp :: l₂))
    (hfound : fdtable_get_by_fd_all s fd = some (some tmp)) :
    ∃ s', fdtable_delete s fd = some (0, s') ∧ s'.memory.data = s.memory.data ∧
      Counted s' (l₁ ++ l₂) := by
  obtain ⟨m, hm, htaken, hentries, hmessages⟩ := h.toSound.fdtable_delete_eq hfound
  have hsound := h.toSound.delete (n := s.thr_num - 1) htaken hentries hmessages
  exact ⟨_, hm, htaken.data, hsound, sub_one_counted h⟩

theorem Counted.entry_delete (h : Counted s (l₁ ++ tmp :: l₂))
    (hfound : fdtable_get_by_fd_all s fd = some (some tmp)) :
    ∃ s', fdtable_entry_delete s fd = some (0, s') ∧ s'.memory.data = s.memory.data ∧
      Counted s' (l₁ ++ l₂) := by
  obtain ⟨m, hm, htaken, hentries, hmessages⟩ := h.toSound.fdtable_entry_delete_eq hfound
  have hsound := h.toSound.entry_delete (n := s.thr_num - 1) htaken hentries hmessages
  exact ⟨_, hm, htaken.data, hsound, sub_one_counted h⟩

theorem info_injective (m : Memory) : Function.Injective m.info :=
  fun _ _ h => congrArg ThreadInfo.ptr h

theorem info_congr {m m' : Memory} {p : Ptr} (h : m'.data p = m.data p) : m'.info p = m.info p := by
  rw [Memory.info, Memory.info, h]

theorem Refines.add (h : Refines s l tbl) {m : Memory} {new message : Ptr} {pid : Nat}
    (hnew : s.memory.Unused new) (hmessage : s.memory.Unused message)
    (ha : Added s.memory m s.header new message pid) :
    Refines { s with memory := m, thr_num := s.thr_num + 1 } (new :: l)
      (Preload.fdtable_add { tbl with nextPtr := new } pid).2 where
  toCounted := h.toCounted.add hnew hmessage ha
  entries := by
    have hinfo : m.info new = ⟨new, 0, -12, pid, false⟩ := by rw [Memory.info, ha.data_new]
    have hold : l.map m.info = l.map s.memory.info := by
      apply List.map_congr_left
      intro p hp
      apply info_congr
      apply ha.data_other
      rintro rfl
      exact hnew.1 (h.allocated p (by simp [hp]))
    show _ = m.info new :: l.map m.info
    rw [hinfo, hold, ← h.entries]
    rfl
  thr_num := congrArg (· + 1) h.thr_num

/-- What both deletions leave is what the list's leaves. -/
theorem Refines.without (h : Refines s (l₁ ++ tmp :: l₂) tbl) (hc : Counted s' (l₁ ++ l₂))
    (hdata : s'.memory.data = s.memory.data)
    (hfound : fdtable_get_by_fd_all s fd = some (some tmp)) :
    Refines s' (l₁ ++ l₂) (Preload.fdtable_delete tbl fd).2 := by
  rw [h.get_by_fd_all] at hfound
  obtain ⟨x, hx, hptr⟩ := Option.map_eq_some_iff.mp (Option.some.inj hfound)
  have hmem : x = s.memory.info tmp := by
    have hsearch := hx
    rw [Preload.fdtable_get_by_fd_all, h.entries] at hsearch
    obtain ⟨-, -, -, hinfo, -⟩ := fdtable_search_split hsearch
    rw [hinfo, hptr]
  have hbefore : tmp ∉ l₁ := by
    intro hin
    have hnodup := h.linked.nodup_nodes
    exact (List.nodup_append.mp hnodup).2.2 tmp hin tmp (List.mem_cons_self ..) rfl
  have herase : (l₁ ++ tmp :: l₂).erase tmp = l₁ ++ l₂ := by
    rw [List.erase_append_right _ hbefore, List.erase_cons_head]
  have hinfo : s'.memory.info = s.memory.info := by
    funext p
    exact info_congr (congrFun hdata p)
  refine ⟨hc, ?_, ?_⟩
  · rw [Preload.fdtable_delete, hx, hinfo, ← herase,
      List.map_erase (info_injective s.memory), ← h.entries, ← hmem]
  · have hcount := sub_one_counted h.toCounted
    rw [Preload.fdtable_delete, hx, hc.counted, ← hcount, ← h.thr_num]

theorem Refines.not_found (h : Refines s l tbl) (hfound : fdtable_get_by_fd_all s fd = some none) :
    Preload.fdtable_delete tbl fd = (2, tbl) := by
  rw [h.get_by_fd_all] at hfound
  have hnone := Option.map_eq_none_iff.mp (Option.some.inj hfound)
  rw [Preload.fdtable_delete, hnone]

theorem Refines.found (h : Refines s l tbl)
    (hfound : fdtable_get_by_fd_all s fd = some (some tmp)) :
    (Preload.fdtable_delete tbl fd).1 = 0 := by
  rw [h.get_by_fd_all] at hfound
  obtain ⟨x, hx, -⟩ := Option.map_eq_some_iff.mp (Option.some.inj hfound)
  rw [Preload.fdtable_delete, hx]

/-- **`fdtable_delete` is the list's**, return value included. -/
theorem Refines.delete (h : Refines s l tbl) (fd : CInt) :
    ∃ l' s', fdtable_delete s fd = some ((Preload.fdtable_delete tbl fd).1, s') ∧
      Refines s' l' (Preload.fdtable_delete tbl fd).2 := by
  obtain ⟨found, hfound⟩ : ∃ found, fdtable_get_by_fd_all s fd = some found :=
    ⟨_, h.get_by_fd_all fd⟩
  cases found with
  | none =>
      rw [h.not_found hfound]
      exact ⟨l, s, fdtable_delete_none hfound, h⟩
  | some tmp =>
      obtain ⟨l₁, l₂, rfl, -⟩ := h.toSound.found hfound
      obtain ⟨s', hs', hdata, hc⟩ := h.toCounted.delete hfound
      rw [h.found hfound]
      exact ⟨l₁ ++ l₂, s', hs', h.without hc hdata hfound⟩

/-- `fdtable_entry_delete` takes out the same entry. It returns 0 where it
finds none, too. -/
theorem Refines.entry_delete (h : Refines s l tbl) (fd : CInt) :
    ∃ l' s', fdtable_entry_delete s fd = some (0, s') ∧
      Refines s' l' (Preload.fdtable_delete tbl fd).2 := by
  obtain ⟨found, hfound⟩ : ∃ found, fdtable_get_by_fd_all s fd = some found :=
    ⟨_, h.get_by_fd_all fd⟩
  cases found with
  | none =>
      rw [h.not_found hfound]
      exact ⟨l, s, fdtable_entry_delete_none hfound, h⟩
  | some tmp =>
      obtain ⟨l₁, l₂, rfl, -⟩ := h.toSound.found hfound
      obtain ⟨s', hs', hdata, hc⟩ := h.toCounted.entry_delete hfound
      exact ⟨l₁ ++ l₂, s', hs', h.without hc hdata hfound⟩

theorem info_set_thr_fd (m : Memory) (p q : Ptr) (fd : CInt) :
    (m.set p fun c => { c with thr_fd := fd }).info q =
      if (m.info q).ptr = p then { m.info q with thr_fd := fd } else m.info q := by
  by_cases hq : q = p
  · subst hq
    simp [Memory.info, Memory.data_set]
  · simp [Memory.info, Memory.data_set, hq]

theorem modify_getD (tbl : FdTable) (p : Ptr) (f : ThreadInfo → ThreadInfo) :
    (tbl.modify p f).getD tbl =
      { tbl with entries := tbl.entries.map fun x => if x.ptr = p then f x else x } := by
  rw [FdTable.modify]
  split
  · rfl
  · rename_i hnone
    have hid : tbl.entries.map (fun x => if x.ptr = p then f x else x) = tbl.entries := by
      conv_rhs => rw [← List.map_id tbl.entries]
      apply List.map_congr_left
      intro x hx
      rw [if_neg, id]
      intro heq
      exact hnone (List.any_eq_true.mpr ⟨x, hx, beq_iff_eq.mpr heq⟩)
    rw [hid]
    rfl

theorem Refines.set_thr_fd (h : Refines s l tbl) {p : Ptr} (fd : CInt) (hp : p ≠ s.tail) :
    Refines { s with memory := s.memory.set p fun c => { c with thr_fd := fd } } l
      ((tbl.modify p fun x => { x with thr_fd := fd }).getD tbl) := by
  rw [modify_getD]
  refine ⟨⟨h.toSound.set_thr_fd fd hp, h.counted⟩, ?_, h.thr_num⟩
  show tbl.entries.map _ = l.map (s.memory.set p fun c => { c with thr_fd := fd }).info
  rw [h.entries, List.map_map]
  apply List.map_congr_left
  intro q _
  exact (info_set_thr_fd s.memory p q fd).symm

/-! ## Runs -/

theorem Refines.step {a : Action} (h : Refines s l tbl) (hg : Returned s a)
    (hs : step s a = some s') :
    ∃ l' tbl', listStep tbl a = some tbl' ∧ Refines s' l' tbl' := by
  cases a with
  | add new message pid =>
      obtain ⟨⟨r, t⟩, ht, rfl⟩ := Option.map_eq_some_iff.mp hs
      rcases h.toSound.fdtable_add_cases ht with ⟨rfl, -, rfl⟩ |
        ⟨new', message', m, rfl, rfl, -, hnew, hmessage, ha, rfl⟩
      · exact ⟨l, tbl, rfl, h⟩
      · exact ⟨new' :: l, _, rfl, h.add hnew hmessage ha⟩
  | set_thr_fd tmp fd =>
      obtain ⟨m, hm, hs⟩ := Option.bind_eq_some_iff.mp hs
      by_cases hmem : tmp ∈ s.memory.entries
      · rw [Memory.store_some hmem] at hm
        cases hm
        cases hs
        exact ⟨l, _, rfl, h.set_thr_fd fd hg.2⟩
      · simp [Memory.store, hmem] at hm
  | delete fd =>
      obtain ⟨⟨r, t⟩, ht, rfl⟩ := Option.map_eq_some_iff.mp hs
      obtain ⟨l', t', ht', h'⟩ := h.delete fd
      obtain ⟨-, rfl⟩ := Prod.mk.inj (Option.some.inj (ht'.symm.trans ht))
      exact ⟨l', _, rfl, h'⟩
  | entry_delete fd =>
      obtain ⟨⟨r, t⟩, ht, rfl⟩ := Option.map_eq_some_iff.mp hs
      obtain ⟨l', t', ht', h'⟩ := h.entry_delete fd
      obtain ⟨-, rfl⟩ := Prod.mk.inj (Option.some.inj (ht'.symm.trans ht))
      exact ⟨l', _, rfl, h'⟩

/-- **The list in memory refines the list.** What is reached in memory
stands for a table that the list's functions reach. -/
theorem reachable_refines {header tail : Ptr} {s₀ s : Table}
    (hinit : fdtable_init header tail = some s₀)
    (hrun : Run.Reachable step Returned s₀ s) :
    ∃ l tbl, Run.Reachable listStep Run.free {} tbl ∧ Refines s l tbl := by
  obtain ⟨hzero, hsound, -⟩ := sound_init hinit
  apply hrun.invariant
    (I := fun s => ∃ l tbl, Run.Reachable listStep Run.free {} tbl ∧ Refines s l tbl)
  · exact ⟨[], {}, Relation.ReflTransGen.refl, ⟨hsound, hzero⟩, rfl, hzero.symm⟩
  · rintro s a s' ⟨l, tbl, hreach, h⟩ hg hs
    obtain ⟨l', tbl', hstep, h'⟩ := h.step hg hs
    exact ⟨l', tbl', hreach.tail ⟨a, trivial, hstep⟩, h'⟩

end CorePartitioning.Preload.Heap
