import CorePartitioning.Lib.Run
import CorePartitioning.Preload.Pool

/-!
# fdtable.c — does the counter follow the pool?

Calls of the functions of fdtable.c in the `__POOL__` configuration and
assignments of `thr_fd` to entries, in any order. That the lists are lists
and that every entry is in exactly one of them holds in all states reached.
The counter does not follow: an entry that comes back from the pool is not
counted again.
-/

namespace CorePartitioning.Preload.Heap.Pool

inductive Action
  | add (new message : Option Ptr) (pid : Nat)
  | set_thr_fd (tmp : Ptr) (fd : CInt)
  | delete (fd : CInt)
  | to_pool (fd : CInt)
  | from_pool
  deriving DecidableEq

def set_thr_fd (s : PoolTable) (tmp : Ptr) (fd : CInt) : Option PoolTable := do
  let m ← s.memory.store tmp fun c => { c with thr_fd := fd }
  return { s with memory := m }

def step (s : PoolTable) : Action → Option PoolTable
  | .add new message pid =>
      (fdtable_add s.toTable new message pid).map fun (_, t) => { s with toTable := t }
  | .set_thr_fd tmp fd => set_thr_fd s tmp fd
  | .delete fd => (fdtable_delete s.toTable fd).map fun (_, t) => { s with toTable := t }
  | .to_pool fd => fdtable_to_pool s fd
  | .from_pool => (fdtable_from_pool s).map (·.2)

/-- `fdtable_init` and `fdtable_init_pool`, as `wrap_init` calls them. -/
def wrap_init (header tail pool_header pool_tail : Ptr) : Option PoolTable := do
  let t ← fdtable_init header tail
  fdtable_init_pool t pool_header pool_tail

/-- An assignment is to an entry that `fdtable_add` has returned. -/
def Returned (s : PoolTable) : Action → Prop
  | .set_thr_fd tmp _ => s.Live tmp
  | _ => True

instance (s : PoolTable) (a : Action) : Decidable (Returned s a) :=
  match a with
  | .set_thr_fd tmp _ => inferInstanceAs (Decidable (s.Live tmp))
  | .add .. | .delete _ | .to_pool _ | .from_pool => inferInstanceAs (Decidable True)

/-! ## What the tables promise -/

/-- Both lists are lists in both directions, and every entry is in exactly
one of them. -/
structure Partitioned (s : PoolTable) (active pool : List Ptr) : Prop where
  active_forward : fdtable_traversal s.toTable = some active
  active_backward : fdtable_traversal_reverse s.toTable = some active.reverse
  pool_forward : poolForward s = some pool
  pool_backward : poolBackward s = some pool.reverse
  distinct : active.Nodup ∧ pool.Nodup
  exactly_one : ∀ p, s.Live p ↔ (p ∈ active ∧ p ∉ pool) ∨ (p ∉ active ∧ p ∈ pool)

/-- The counter counts the active list. -/
def Accounted (s : PoolTable) : Prop :=
  ∃ active pool, Partitioned s active pool ∧ s.thr_num.toNat = active.length

/-- The steps that keep the accounts: nothing is taken from the pool, and
the counter does not wrap around. -/
def Keeps (s : PoolTable) : Action → Prop
  | .add (some _) _ _ => s.thr_num ≠ BitVec.allOnes 32
  | .from_pool => s.memory.next s.pool_header = some s.pool_tail
  | _ => True

variable {s s' : PoolTable} {active pool : List Ptr}

/-! ## The lists -/

theorem PoolSound.allocated (h : PoolSound s active pool) :
    ∀ p ∈ s.pool_header :: (pool ++ [s.pool_tail]), p ∈ s.memory.entries :=
  fun p hp => (h.entries p).mpr (Or.inr hp)

theorem PoolSound.exactly_one (h : PoolSound s active pool) (p : Ptr) :
    s.Live p ↔ (p ∈ active ∧ p ∉ pool) ∨ (p ∉ active ∧ p ∈ pool) := by
  have hentries := h.entries p
  have hapart : p ∈ s.header :: (active ++ [s.tail]) →
      p ∉ s.pool_header :: (pool ++ [s.pool_tail]) := fun hp hpool => h.apart hp hpool
  have hactive : p ∈ active → p ≠ s.header ∧ p ≠ s.tail := by
    intro hp
    constructor
    · rintro rfl
      exact h.table.linked.header_not_mem hp
    · rintro rfl
      exact h.table.linked.tail_not_mem hp
  have hpooled : p ∈ pool → p ≠ s.pool_header ∧ p ≠ s.pool_tail := by
    intro hp
    constructor
    · rintro rfl
      exact h.pooled.header_not_mem hp
    · rintro rfl
      exact h.pooled.tail_not_mem hp
  simp only [List.mem_cons, List.mem_append, List.not_mem_nil, or_false] at hentries hapart
  rw [PoolTable.Live]
  tauto

theorem PoolSound.partitioned (h : PoolSound s active pool) : Partitioned s active pool := by
  have hlinks := Memory.links_load h.pooled h.allocated
  have hlength := h.pooled.length_lt_card h.allocated
  constructor
  · exact h.table.traversal
  · exact h.table.traversal_reverse
  · exact hlinks.walk_next hlength
  · exact hlinks.walk_prev hlength
  · exact ⟨h.table.linked.nodup_nodes, h.pooled.nodup_nodes⟩
  · exact h.exactly_one

/-- The lists are what the traversals pass. -/
theorem PoolSound.accounted_iff (h : PoolSound s active pool) :
    Accounted s ↔ s.thr_num.toNat = active.length := by
  constructor
  · rintro ⟨active', pool', hp, hcount⟩
    have hsame := h.partitioned.active_forward.symm.trans hp.active_forward
    rw [hcount, Option.some.inj hsame]
  · intro hcount
    exact ⟨active, pool, h.partitioned, hcount⟩

/-! ## Steps -/

theorem toNat_add_one_iff {x : BitVec 32} {k : Nat} (h : x.toNat = k) :
    (x + 1).toNat = k + 1 ↔ x ≠ BitVec.allOnes 32 := by
  have hlt := x.isLt
  have hone : (1 : BitVec 32).toNat = 1 := rfl
  rw [Ne, ← BitVec.toNat_inj, BitVec.toNat_add, BitVec.toNat_allOnes, hone]
  omega

theorem toNat_sub_one {x : BitVec 32} {k : Nat} (h : x.toNat = k + 1) : (x - 1).toNat = k := by
  have hlt := x.isLt
  have hone : (1 : BitVec 32).toNat = 1 := rfl
  rw [BitVec.toNat_sub, hone]
  omega

/-- A step that does nothing. -/
theorem PoolSound.stays (h : PoolSound s active pool) {a : Action} (hk : Keeps s a) :
    ∃ active' pool', PoolSound s active' pool' ∧ (Accounted s → (Accounted s ↔ Keeps s a)) :=
  ⟨active, pool, h, fun hacc => iff_of_true hacc hk⟩

/-- An entry leaves the active list and the counter. -/
theorem PoolSound.leaves {active₁ active₂ pool' : List Ptr} {tmp : Ptr}
    (h : PoolSound s (active₁ ++ tmp :: active₂) pool)
    (h' : PoolSound s' (active₁ ++ active₂) pool')
    (hcount : s'.thr_num = s.thr_num - 1) {a : Action} (hk : Keeps s a) :
    ∃ active' pool', PoolSound s' active' pool' ∧ (Accounted s → (Accounted s' ↔ Keeps s a)) := by
  refine ⟨active₁ ++ active₂, pool', h', ?_⟩
  intro hacc
  have hlen : (active₁ ++ tmp :: active₂).length = (active₁ ++ active₂).length + 1 := by
    simp
    omega
  apply iff_of_true _ hk
  rw [h'.accounted_iff, hcount]
  apply toNat_sub_one
  rw [h.accounted_iff.mp hacc, hlen]

/-- What a step does to the lists, and when the counter follows. -/
theorem PoolSound.step {a : Action} (h : PoolSound s active pool) (hg : Returned s a)
    (hs : step s a = some s') :
    ∃ active' pool', PoolSound s' active' pool' ∧
      (Accounted s → (Accounted s' ↔ Keeps s a)) := by
  cases a with
  | add new message pid =>
      obtain ⟨⟨r, t⟩, ht, rfl⟩ := Option.map_eq_some_iff.mp hs
      rcases h.table.fdtable_add_cases ht with ⟨rfl, -, rfl⟩ |
        ⟨new, message, m, rfl, rfl, -, hnew, hmessage, ha, rfl⟩
      · exact h.stays trivial
      · have hadd :
            PoolSound { s with memory := m, thr_num := s.thr_num + 1 } (new :: active) pool :=
          h.add hnew hmessage ha
        refine ⟨new :: active, pool, hadd, ?_⟩
        intro hacc
        have hcount := h.accounted_iff.mp hacc
        rw [hadd.accounted_iff]
        exact toNat_add_one_iff hcount
  | set_thr_fd tmp fd =>
      obtain ⟨m, hm, hs⟩ := Option.bind_eq_some_iff.mp hs
      obtain ⟨hmem, -, htail, -⟩ := hg
      rw [Memory.store_some hmem] at hm
      cases hm
      cases hs
      have hset := h.set_thr_fd fd htail
      refine ⟨active, pool, hset, ?_⟩
      intro hacc
      apply iff_of_true _ trivial
      rw [hset.accounted_iff]
      exact h.accounted_iff.mp hacc
  | delete fd =>
      obtain ⟨⟨r, t⟩, ht, rfl⟩ := Option.map_eq_some_iff.mp hs
      obtain ⟨found, hfound⟩ : ∃ found, fdtable_get_by_fd_all s.toTable fd = some found :=
        ⟨_, h.table.get_by_fd_all fd⟩
      cases found with
      | none =>
          rw [fdtable_delete_none hfound] at ht
          cases ht
          exact h.stays trivial
      | some tmp =>
          obtain ⟨active₁, active₂, rfl, -⟩ := h.table.found hfound
          obtain ⟨m, hm, htaken, hentries, hmessages⟩ := h.table.fdtable_delete_eq hfound
          rw [hm] at ht
          cases ht
          exact h.leaves (h.delete htaken hentries hmessages) rfl trivial
  | to_pool fd =>
      obtain ⟨found, hfound⟩ : ∃ found, fdtable_get_by_fd_all s.toTable fd = some found :=
        ⟨_, h.table.get_by_fd_all fd⟩
      have hs : fdtable_to_pool s fd = some s' := hs
      cases found with
      | none =>
          simp [fdtable_to_pool, hfound] at hs
          subst hs
          exact h.stays trivial
      | some tmp =>
          obtain ⟨active₁, active₂, rfl, -⟩ := h.table.found hfound
          obtain ⟨m, hm, hmoved⟩ := h.to_pool_eq hfound
          rw [hm] at hs
          cases hs
          exact h.leaves (h.to_pool hmoved) rfl trivial
  | from_pool =>
      obtain ⟨⟨r, t⟩, ht, rfl⟩ := Option.map_eq_some_iff.mp hs
      cases pool with
      | nil =>
          have hempty : s.memory.next s.pool_header = some s.pool_tail := h.pooled.next_header.1
          have hmem : s.pool_header ∈ s.memory.entries := h.allocated _ (by simp)
          simp [fdtable_from_pool, Memory.load_some hmem, hempty] at ht
          obtain ⟨-, rfl⟩ := ht
          exact h.stays hempty
      | cons tmp pool =>
          obtain ⟨m, hm, hmoved⟩ := h.from_pool_eq
          rw [hm] at ht
          cases ht
          have hback := h.from_pool hmoved
          refine ⟨tmp :: active, pool, hback, ?_⟩
          intro hacc
          apply iff_of_false
          · rw [hback.accounted_iff]
            have hcount := h.accounted_iff.mp hacc
            show s.thr_num.toNat ≠ active.length + 1
            omega
          · have hfirst : s.memory.next s.pool_header = some tmp := h.pooled.next_header.1
            show s.memory.next s.pool_header ≠ some s.pool_tail
            rw [hfirst]
            rintro ⟨⟩
            exact h.pooled.tail_not_mem (by simp)

/-! ## Runs -/

theorem poolSound_wrap_init {header tail pool_header pool_tail : Ptr} {s₀ : PoolTable}
    (hinit : wrap_init header tail pool_header pool_tail = some s₀) :
    PoolSound s₀ [] [] ∧ Accounted s₀ := by
  obtain ⟨t, ht, hpool⟩ := Option.bind_eq_some_iff.mp hinit
  obtain ⟨hzero, hsound, hentries⟩ := sound_init ht
  obtain ⟨hsame, hps⟩ := poolSound_init hsound hentries hpool
  refine ⟨hps, hps.accounted_iff.mpr ?_⟩
  rw [hsame, hzero]
  rfl

/-- **The lists.** In every state reached both lists are lists in both
directions, and every entry is in exactly one of them. -/
theorem entries_partitioned {header tail pool_header pool_tail : Ptr} {s₀ s : PoolTable}
    (hinit : wrap_init header tail pool_header pool_tail = some s₀)
    (hrun : Run.Reachable step Returned s₀ s) : ∃ active pool, Partitioned s active pool := by
  obtain ⟨active, pool, h⟩ : ∃ active pool, PoolSound s active pool := by
    apply hrun.invariant (I := fun s => ∃ active pool, PoolSound s active pool)
    · exact ⟨[], [], (poolSound_wrap_init hinit).1⟩
    · rintro s a s' ⟨active, pool, h⟩ hg hs
      obtain ⟨active', pool', h', -⟩ := h.step hg hs
      exact ⟨active', pool', h'⟩
  exact ⟨active, pool, h.partitioned⟩

/-- **When the counter follows.** The accounts are in order all along a run
exactly when every step of it finds the pool empty or leaves it alone, and
no entry is added that the counter cannot count. -/
theorem pool_accounts_iff {header tail pool_header pool_tail : Ptr} {s₀ s : PoolTable}
    {actions : List Action} (hinit : wrap_init header tail pool_header pool_tail = some s₀)
    (hrun : Run.exec step Returned s₀ actions = some s) :
    (∀ pre t, pre <+: actions → Run.exec step Returned s₀ pre = some t → Accounted t) ↔
      ∀ pre a t, pre ++ [a] <+: actions → Run.exec step Returned s₀ pre = some t → Keeps t a := by
  obtain ⟨hsound, hacc⟩ := poolSound_wrap_init hinit
  apply Run.throughout_iff (I := fun s => ∃ active pool, PoolSound s active pool) _
    ⟨[], [], hsound⟩ hacc hrun
  rintro s a s' ⟨active, pool, h⟩ hacc hg hs
  obtain ⟨active', pool', h', hiff⟩ := h.step hg hs
  exact ⟨⟨active', pool', h'⟩, hiff hacc⟩

/-- An entry is added, goes to the pool and comes back. -/
def reuse : List Action := [.add (some 10) (some 11) 7, .set_thr_fd 10 5, .to_pool 5, .from_pool]

theorem pool_accounts_of_reuse :
    ∃ s₀ s, wrap_init 1 2 3 4 = some s₀ ∧ Run.exec step Returned s₀ reuse = some s ∧
      ((∀ pre t, pre <+: reuse → Run.exec step Returned s₀ pre = some t → Accounted t) ↔
        ∀ pre a t, pre ++ [a] <+: reuse → Run.exec step Returned s₀ pre = some t → Keeps t a) := by
  have hexec : ((wrap_init 1 2 3 4).bind fun s₀ =>
      (Run.exec step Returned s₀ reuse).map fun s => s.thr_num) = some 0 := by
    decide
  obtain ⟨s₀, hinit, hexec⟩ := Option.bind_eq_some_iff.mp hexec
  obtain ⟨s, hs, -⟩ := Option.map_eq_some_iff.mp hexec
  exact ⟨s₀, s, hinit, hs, pool_accounts_iff hinit hs⟩

/-- After `reuse` one entry is in the table and the counter is 0. -/
theorem pool_counter_drifts :
    ¬ ∀ header tail pool_header pool_tail s₀ s,
      wrap_init header tail pool_header pool_tail = some s₀ →
      Run.Reachable step Returned s₀ s → Accounted s := by
  intro h
  have hexec : ((wrap_init 1 2 3 4).bind fun s₀ => (Run.exec step Returned s₀ reuse).map
      fun s => (fdtable_traversal s.toTable, s.thr_num)) = some (some [10], 0) := by
    decide
  obtain ⟨s₀, hinit, hexec⟩ := Option.bind_eq_some_iff.mp hexec
  obtain ⟨s, hs, hends⟩ := Option.map_eq_some_iff.mp hexec
  obtain ⟨htraversal, hzero⟩ := Prod.mk.inj hends
  obtain ⟨active, pool, hp, hcount⟩ := h 1 2 3 4 s₀ s hinit (Run.reachable_of_exec hs)
  have hsame := htraversal.symm.trans hp.active_forward
  rw [← Option.some.inj hsame, hzero] at hcount
  cases hcount

end CorePartitioning.Preload.Heap.Pool
