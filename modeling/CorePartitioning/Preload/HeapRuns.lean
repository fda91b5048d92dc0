import CorePartitioning.Preload.HeapRefines
import Mathlib.Algebra.Group.Nat.Defs

/-!
# fdtable.c — the list after any sequence of calls

What a caller of fdtable.c can rely on in every state that is reached, in
terms of the links themselves.
-/

namespace CorePartitioning.Preload.Heap

/-! ## What the table promises -/

/-- The links are the list `l`, in both directions, and the counter counts it. -/
structure Represents (s : Table) (l : List Ptr) : Prop where
  forward : fdtable_traversal s = some l
  backward : fdtable_traversal_reverse s = some l.reverse
  distinct : l.Nodup
  counted : l.length < 2 ^ 32 → s.thr_num.toNat = l.length
  isEmpty : l.length < 2 ^ 32 → (fdtable_isEmpty s = 1 ↔ l = [])

/-- `s'` has the list `l` left, its entries as they were in `s`. -/
structure Leaves (s s' : Table) (l : List Ptr) : Prop where
  represents : Represents s' l
  data : ∀ p ∈ l, s'.memory.data p = s.memory.data p

/-- What the deletions do where the search finds `found`. -/
def DeletesFound (s : Table) (l : List Ptr) (fd : CInt) : Option Ptr → Prop
  | none => fdtable_delete s fd = some (2, s) ∧ fdtable_entry_delete s fd = some (0, s)
  | some tmp => ∃ l₁ l₂, l = l₁ ++ tmp :: l₂ ∧ (s.memory.data tmp).thr_fd = fd ∧
      (∀ p ∈ l₁, (s.memory.data p).thr_fd ≠ fd) ∧
      (∃ s', fdtable_delete s fd = some (0, s') ∧ Leaves s s' (l₁ ++ l₂)) ∧
      ∃ s', fdtable_entry_delete s fd = some (0, s') ∧ Leaves s s' (l₁ ++ l₂)

/-- The table is the list `l`, and its functions are the list's: `fdtable_add`
puts the entry it returns in front, the search is the list's, and the
deletions take out the first entry that it finds, or change nothing. -/
structure IsList (s : Table) (l : List Ptr) : Prop where
  represents : Represents s l
  add : ∀ new message pid, s.memory.Unused new → s.memory.Unused message → message ≠ new →
    ∃ s', fdtable_add s (some new) (some message) pid = some (some new, s') ∧
      Represents s' (new :: l)
  search : ∀ fd, fdtable_get_by_fd_all s fd =
    some ((fdtable_search (fun tmp => tmp.thr_fd == fd) (l.map s.memory.info)).map (·.ptr))
  delete : ∀ fd, ∃ found, fdtable_get_by_fd_all s fd = some found ∧ DeletesFound s l fd found

variable {s s' : Table} {l l₁ l₂ : List Ptr} {tmp : Ptr} {fd : CInt}

theorem Counted.represents (h : Counted s l) : Represents s l := by
  have hcount : l.length < 2 ^ 32 → s.thr_num.toNat = l.length := by
    intro hlt
    rw [h.counted, BitVec.toNat_ofNat, Nat.mod_eq_of_lt hlt]
  constructor
  · exact h.traversal
  · exact h.traversal_reverse
  · exact h.linked.nodup_nodes
  · exact hcount
  · intro hlt
    rw [← List.length_eq_zero_iff, ← hcount hlt, fdtable_isEmpty]
    by_cases hzero : s.thr_num = 0#32
    · simp [hzero]
    · have hne : s.thr_num.toNat ≠ 0 := fun h0 => hzero (BitVec.eq_of_toNat_eq h0)
      simp [hzero, hne]

theorem Counted.deletesFound (h : Counted s l) (fd : CInt) :
    ∃ found, fdtable_get_by_fd_all s fd = some found ∧ DeletesFound s l fd found := by
  obtain ⟨found, hfound⟩ : ∃ found, fdtable_get_by_fd_all s fd = some found :=
    ⟨_, h.toSound.get_by_fd_all fd⟩
  cases found with
  | none => exact ⟨none, hfound, ⟨fdtable_delete_none hfound, fdtable_entry_delete_none hfound⟩⟩
  | some tmp =>
      obtain ⟨l₁, l₂, rfl, hfd, hbefore⟩ := h.toSound.found hfound
      obtain ⟨s₁, hs₁, hdata₁, hc₁⟩ := h.delete hfound
      obtain ⟨s₂, hs₂, hdata₂, hc₂⟩ := h.entry_delete hfound
      have hleaves₁ : Leaves s s₁ (l₁ ++ l₂) := ⟨hc₁.represents, fun p _ => congrFun hdata₁ p⟩
      have hleaves₂ : Leaves s s₂ (l₁ ++ l₂) := ⟨hc₂.represents, fun p _ => congrFun hdata₂ p⟩
      exact ⟨some tmp, hfound, l₁, l₂, rfl, hfd, hbefore, ⟨s₁, hs₁, hleaves₁⟩, s₂, hs₂, hleaves₂⟩

/-! ## Runs -/

/-- **The descriptor list.** In every state that is reached the links are a
list in both directions and the counter counts it while it can. -/
theorem descriptor_table_is_list {header tail : Ptr} {s₀ s : Table}
    (hinit : fdtable_init header tail = some s₀)
    (hrun : Run.Reachable step Returned s₀ s) : ∃ l, IsList s l := by
  obtain ⟨l, tbl, -, hrefines⟩ := reachable_refines hinit hrun
  have h := hrefines.toCounted
  refine ⟨l, h.represents, ?_, h.toSound.get_by_fd_all, h.deletesFound⟩
  intro new message pid hnew hmessage hne
  obtain ⟨m, hm, ha⟩ := h.toSound.fdtable_add_eq pid hnew hmessage hne
  exact ⟨_, hm, (h.add hnew hmessage ha).represents⟩

/-- Three entries, the middle one deleted and its address given out again. -/
theorem descriptor_table_of_three :
    ∃ s, fdtable_traversal s = some [20, 30, 10] ∧ ∃ l, IsList s l := by
  have hexec : ((fdtable_init 1 2).bind fun s₀ => (Run.exec step Returned s₀
      [.add (some 10) (some 11) 7, .set_thr_fd 10 4, .add (some 20) (some 21) 7,
        .set_thr_fd 20 5, .add (some 30) (some 31) 7, .set_thr_fd 30 6, .delete 5,
        .add (some 20) (some 21) 7]).bind fdtable_traversal) = some [20, 30, 10] := by
    decide
  obtain ⟨s₀, hinit, hexec⟩ := Option.bind_eq_some_iff.mp hexec
  obtain ⟨s, hs, htraversal⟩ := Option.bind_eq_some_iff.mp hexec
  exact ⟨s, htraversal, descriptor_table_is_list hinit (Run.reachable_of_exec hs)⟩

end CorePartitioning.Preload.Heap
