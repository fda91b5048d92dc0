import CorePartitioning.Preload.HeapList

/-!
# fdtable.c — the pool of entries

The functions under `__POOL__`: entries go from the table to the pool and
back, on the same memory. Both lists stay lists, in both directions, and an
entry is in exactly one of them. `fdtable_to_pool` takes the entry off the
counter, `fdtable_from_pool` does not put it back on.
-/

namespace CorePartitioning.Preload.Heap.Pool

structure PoolTable extends Table where
  pool_header : Ptr
  pool_tail : Ptr
  pool_thr_num : BitVec 32

/-- `fdtable_init_pool`, after `fdtable_init`, with both allocations successful. -/
def fdtable_init_pool (s : Table) (pool_header pool_tail : Ptr) : Option PoolTable := do
  let m ← s.memory.calloc pool_header
  let m ← m.calloc pool_tail
  let m ← m.store pool_header fun c => { c with next := pool_tail }
  let m ← m.store pool_header fun c => { c with prev := pool_tail }
  let m ← m.store pool_tail fun c => { c with next := none }
  let m ← m.store pool_tail fun c => { c with prev := pool_header }
  let m ← m.store pool_header fun c => { c with thr_fd := -10 }
  let m ← m.store pool_tail fun c => { c with thr_fd := -10 }
  return { s with memory := m, pool_header, pool_tail, pool_thr_num := 0 }

/-- `fdtable_to_pool`. No caller uses its result, which is undefined. Where
the entry found lacks a neighbour the process exits, and there is no state
after it. -/
def fdtable_to_pool (s : PoolTable) (fd : CInt) : Option PoolTable := do
  let tmp ← fdtable_get_by_fd_all s.toTable fd
  if tmp ≠ none then
    let m ← s.memory.store tmp fun c => { c with thr_fd := -1 }
    let node ← m.load tmp
    let next_node := node.next
    let prev_node := node.prev
    if next_node ≠ none ∧ prev_node ≠ none then
      let m ← m.store prev_node fun c => { c with next := next_node }
      let m ← m.store next_node fun c => { c with prev := prev_node }
      let pool ← m.load s.pool_header
      let m ← m.store tmp fun c => { c with next := pool.next }
      let node ← m.load tmp
      let m ← m.store node.next fun c => { c with prev := tmp }
      let m ← m.store tmp fun c => { c with prev := s.pool_header }
      let m ← m.store s.pool_header fun c => { c with next := tmp }
      return { s with memory := m, thr_num := s.thr_num - 1 }
    else none
  else return s

def fdtable_from_pool (s : PoolTable) : Option (Option Ptr × PoolTable) := do
  let pool ← s.memory.load s.pool_header
  if pool.next ≠ some s.pool_tail then
    let tmp := pool.next
    let node ← s.memory.load tmp
    let m ← s.memory.store s.pool_header fun c => { c with next := node.next }
    let node ← m.load tmp
    let m ← m.store node.next fun c => { c with prev := s.pool_header }
    let m ← m.store tmp fun c => { c with prev := s.header }
    let head ← m.load s.header
    let m ← m.store tmp fun c => { c with next := head.next }
    let m ← m.store s.header fun c => { c with next := tmp }
    let node ← m.load tmp
    let m ← m.store node.next fun c => { c with prev := tmp }
    return (tmp, { s with memory := m })
  else return (none, s)

/-- The nodes from the header of the pool to its tail, and back. -/
def poolForward (s : PoolTable) : Option (List Ptr) := do
  let link (p : Ptr) := (s.memory.load p).bind (·.next)
  let tmp ← link s.pool_header
  Links.walk link s.pool_tail s.memory.entries.card tmp

def poolBackward (s : PoolTable) : Option (List Ptr) := do
  let link (p : Ptr) := (s.memory.load p).bind (·.prev)
  let tmp ← link s.pool_tail
  Links.walk link s.pool_header s.memory.entries.card tmp

/-- An entry that `fdtable_add` has returned and `fdtable_delete` has not freed. -/
def PoolTable.Live (s : PoolTable) (p : Ptr) : Prop :=
  p ∈ s.memory.entries ∧ p ≠ s.header ∧ p ≠ s.tail ∧ p ≠ s.pool_header ∧ p ≠ s.pool_tail

instance (s : PoolTable) (p : Ptr) : Decidable (s.Live p) := inferInstanceAs (Decidable (_ ∧ _))

/-! ## The invariant -/

structure PoolSound (s : PoolTable) (active pool : List Ptr) : Prop where
  table : Sound s.toTable active
  pooled : Links.Linked s.memory.next s.memory.prev s.pool_header pool s.pool_tail
  entries : ∀ p, p ∈ s.memory.entries ↔
    p ∈ s.header :: (active ++ [s.tail]) ∨ p ∈ s.pool_header :: (pool ++ [s.pool_tail])
  apart : List.Disjoint (s.header :: (active ++ [s.tail]))
    (s.pool_header :: (pool ++ [s.pool_tail]))

variable {s s' : PoolTable} {active pool active₁ active₂ : List Ptr} {fd : CInt} {tmp : Ptr}

theorem PoolSound.not_unused (h : PoolSound s active pool) {new : Ptr}
    (hnew : s.memory.Unused new) : new ∉ s.pool_header :: (pool ++ [s.pool_tail]) :=
  fun hmem => hnew.1 ((h.entries new).mpr (Or.inr hmem))

theorem PoolSound.add (h : PoolSound s active pool) {m : Memory} {new message : Ptr} {pid : Nat}
    {n : BitVec 32} (hnew : s.memory.Unused new) (hmessage : s.memory.Unused message)
    (ha : Added s.memory m s.header new message pid) :
    PoolSound { s with memory := m, thr_num := n } (new :: active) pool where
  table := h.table.add hnew hmessage ha
  pooled := h.pooled.of_pushed h.table.linked ha.pushed h.apart (h.not_unused hnew)
  entries p := by
    show p ∈ m.entries ↔ _
    rw [ha.entries, Finset.mem_insert, h.entries, Links.mem_front, or_assoc]
  apart := by
    intro p hp hpool
    rcases Links.mem_front.mp hp with rfl | hp
    · exact h.not_unused hnew hpool
    · exact h.apart hp hpool

theorem PoolSound.delete (h : PoolSound s (active₁ ++ tmp :: active₂) pool) {m : Memory}
    {n : BitVec 32} (htaken : Taken s.memory m tmp)
    (hentries : m.entries = s.memory.entries.erase tmp)
    (hmessages : ∀ b,
      b ∈ m.messages ↔ b ∈ s.memory.messages ∧ (s.memory.data tmp).message ≠ some b) :
    PoolSound { s with memory := m, thr_num := n } (active₁ ++ active₂) pool where
  table := h.table.delete htaken hentries hmessages
  pooled := h.pooled.of_unlinked h.table.linked htaken.unlinked h.apart
  entries p := by
    show p ∈ m.entries ↔ p ∈ s.header :: (active₁ ++ active₂ ++ [s.tail]) ∨ _
    have hrest := h.table.linked.not_mem_rest
    have hpool : tmp ∉ s.pool_header :: (pool ++ [s.pool_tail]) := h.apart (by simp)
    rw [hentries, Finset.mem_erase, h.entries, Links.mem_middle]
    by_cases hp : p = tmp
    · subst hp
      simp only [hrest, hpool, ne_eq, not_true_eq_false, false_and, or_self]
    · simp only [hp, ne_eq, not_false_eq_true, true_and, false_or]
  apart := by
    intro p hp hpool
    apply h.apart _ hpool
    exact Links.mem_middle.mpr (Or.inr hp)

theorem PoolSound.set_thr_fd (h : PoolSound s active pool) {p : Ptr} (fd : CInt)
    (hp : p ≠ s.tail) :
    PoolSound { s with memory := s.memory.set p fun c => { c with thr_fd := fd } } active pool where
  table := h.table.set_thr_fd fd hp
  pooled := by simpa using h.pooled
  entries := h.entries
  apart := h.apart

/-! ## To the pool and back -/

/-- `tmp` is moved in front, behind `header`. -/
structure Moved (m m' : Memory) (header tmp : Ptr) : Prop where
  links : Links.Moved m.next m.prev m'.next m'.prev header tmp
  entries : m'.entries = m.entries
  messages : m'.messages = m.messages
  data : m'.data = m.data

theorem PoolSound.next_pool_header (h : PoolSound s active pool) :
    ∃ q ∈ pool ++ [s.pool_tail], s.memory.next s.pool_header = some q := by
  obtain ⟨q, rest, hrest⟩ : ∃ q rest, pool ++ [s.pool_tail] = q :: rest :=
    List.exists_cons_of_ne_nil (by simp)
  have hhead := h.pooled.next_header.1
  rw [hrest] at hhead
  exact ⟨q, by simp [hrest], hhead⟩

theorem PoolSound.to_pool_eq (h : PoolSound s (active₁ ++ tmp :: active₂) pool)
    (hfound : fdtable_get_by_fd_all s.toTable fd = some (some tmp)) :
    ∃ m, fdtable_to_pool s fd = some { s with memory := m, thr_num := s.thr_num - 1 } ∧
      Moved (s.memory.set tmp fun c => { c with thr_fd := -1 }) m s.pool_header tmp := by
  obtain ⟨p, hp_list, n, -, hp, hn, -, -, hp_mem, hn_mem⟩ := h.table.neighbours
  obtain ⟨q, hq_pool, hq⟩ := h.next_pool_header
  have hmem := h.table.mem
  have hpool_mem : s.pool_header ∈ s.memory.entries := (h.entries _).mpr (Or.inr (by simp))
  have hq_mem : q ∈ s.memory.entries :=
    (h.entries _).mpr (Or.inr (List.mem_cons_of_mem _ hq_pool))
  have hp_table : p ∈ s.header :: (active₁ ++ tmp :: active₂ ++ [s.tail]) := by
    simp only [List.mem_cons, List.mem_append] at hp_list ⊢
    tauto
  have hpool_p : s.pool_header ≠ p := by
    rintro rfl
    exact h.apart hp_table (by simp)
  have hpool_tmp : s.pool_header ≠ tmp := by
    rintro rfl
    exact h.apart (a := s.pool_header) (by simp) (by simp)
  have hq_tmp : q ≠ tmp := by
    rintro rfl
    exact h.apart (a := q) (by simp) (List.mem_cons_of_mem _ hq_pool)
  refine ⟨_, by
    simp [fdtable_to_pool, hfound, Memory.load, Memory.store, hmem, hp, hn, hp_mem, hn_mem,
      hpool_mem, hq_mem, Memory.next_set, hpool_p, hq]
    rfl, ⟨_, _, Links.unlinked_update (by simpa using hp) (by simpa using hn), ?_⟩, ?_, ?_, ?_⟩
  · have hq₁ : Function.update s.memory.next p (some n) s.pool_header = some q := by
      simp [hpool_p, hq]
    have hpushed := Links.pushed_update (Function.update s.memory.prev n (some p)) hq₁ hpool_tmp
      hq_tmp
    rw [Function.update_comm hq_tmp.symm] at hpushed
    simpa [Memory.next_set, Memory.prev_set] using hpushed
  · simp
  · simp
  · simp

theorem PoolSound.from_pool_eq (h : PoolSound s active (tmp :: pool)) :
    ∃ m, fdtable_from_pool s = some (some tmp, { s with memory := m }) ∧
      Moved s.memory m s.header tmp := by
  have hpooled : Links.Linked s.memory.next s.memory.prev s.pool_header ([] ++ tmp :: pool)
      s.pool_tail := h.pooled
  obtain ⟨p, hp_list, n, hn_list, hp, hn⟩ := hpooled.neighbours
  obtain ⟨hp_tmp, hn_tmp⟩ := hpooled.ne_neighbours hp_list hn_list
  obtain rfl := List.mem_singleton.mp hp_list
  obtain ⟨f, hf_list, hf, hf_mem⟩ := h.table.next_header
  have hfirst : s.memory.next s.pool_header = some tmp := h.pooled.next_header.1
  have htail : tmp ≠ s.pool_tail := by
    rintro rfl
    exact h.pooled.tail_not_mem (by simp)
  have hmem : tmp ∈ s.memory.entries := (h.entries _).mpr (Or.inr (by simp))
  have hpool_mem : s.pool_header ∈ s.memory.entries := (h.entries _).mpr (Or.inr (by simp))
  have hn_mem : n ∈ s.memory.entries := by
    apply (h.entries n).mpr (Or.inr _)
    simp only [List.mem_cons, List.mem_append] at hn_list ⊢
    tauto
  have hheader_tmp : s.header ≠ tmp := by
    rintro rfl
    exact h.apart (a := s.header) (by simp) (by simp)
  have hheader_pool : s.header ≠ s.pool_header := by
    intro heq
    exact h.apart (a := s.header) (by simp) (by simp [heq])
  have hf_tmp : f ≠ tmp := by
    rintro rfl
    exact h.apart (a := f) (List.mem_cons_of_mem _ hf_list) (by simp)
  refine ⟨_, by
    simp [fdtable_from_pool, Memory.load, Memory.store, hmem, hfirst, htail, hn, hn_mem,
      hpool_mem, hf, hf_mem, h.table.header_mem, Memory.next_set, hheader_tmp.symm, hheader_pool,
      hp_tmp.symm]
    rfl, ⟨_, _, Links.unlinked_update hp hn, ?_⟩, ?_, ?_, ?_⟩
  · have hf₁ : Function.update s.memory.next s.pool_header (some n) s.header = some f := by
      simp [hheader_pool, hf]
    have hpushed := Links.pushed_update (Function.update s.memory.prev n (some s.pool_header))
      hf₁ hheader_tmp hf_tmp
    simpa [Memory.next_set, Memory.prev_set] using hpushed
  · simp
  · simp
  · simp

theorem PoolSound.to_pool (h : PoolSound s (active₁ ++ tmp :: active₂) pool) {m : Memory}
    {n : BitVec 32}
    (hm : Moved (s.memory.set tmp fun c => { c with thr_fd := -1 }) m s.pool_header tmp) :
    PoolSound { s with memory := m, thr_num := n } (active₁ ++ active₂) (tmp :: pool) := by
  have htail : tmp ≠ s.tail := by
    rintro rfl
    exact h.table.linked.tail_not_mem (by simp)
  have hset := h.set_thr_fd (-1) htail
  obtain ⟨htable, hpooled⟩ := hset.table.linked.move hset.pooled hm.links hset.apart
  have hmem : ∀ p, p ∈ m.entries ↔ p ∈ s.memory.entries := by
    intro p
    rw [hm.entries]
    rfl
  have howned := hset.table.owned.of_data hm.data hm.entries hm.messages
  refine ⟨⟨htable, ?_, ?_, howned⟩, hpooled, ?_, ?_⟩
  · intro p hp
    apply (hmem p).mpr
    apply h.table.allocated p
    exact Links.mem_middle.mpr (Or.inr hp)
  · show (m.data s.tail).thr_fd = -11
    rw [hm.data]
    exact hset.table.stop
  · intro p
    show p ∈ m.entries ↔ p ∈ s.header :: (active₁ ++ active₂ ++ [s.tail]) ∨
      p ∈ s.pool_header :: (tmp :: pool ++ [s.pool_tail])
    rw [hmem, h.entries, Links.mem_middle, Links.mem_front]
    rw [or_assoc, or_left_comm]
  · intro p hp hpool
    rcases Links.mem_front.mp hpool with rfl | hpool
    · exact h.table.linked.not_mem_rest hp
    · exact h.apart (Links.mem_middle.mpr (Or.inr hp)) hpool

theorem PoolSound.from_pool (h : PoolSound s active (tmp :: pool)) {m : Memory}
    (hm : Moved s.memory m s.header tmp) :
    PoolSound { s with memory := m } (tmp :: active) pool := by
  have hmove : Links.Linked s.memory.next s.memory.prev s.pool_header ([] ++ tmp :: pool)
      s.pool_tail := h.pooled
  obtain ⟨hpooled, htable⟩ := hmove.move h.table.linked hm.links h.apart.symm
  have hmem : ∀ p, p ∈ m.entries ↔ p ∈ s.memory.entries := by
    intro p
    rw [hm.entries]
  refine ⟨⟨htable, ?_, ?_, h.table.owned.of_data hm.data hm.entries hm.messages⟩, hpooled, ?_, ?_⟩
  · intro p hp
    apply (hmem p).mpr
    apply (h.entries p).mpr
    rcases Links.mem_front.mp hp with rfl | hp
    · exact Or.inr (by simp)
    · exact Or.inl hp
  · show (m.data s.tail).thr_fd = -11
    rw [hm.data]
    exact h.table.stop
  · intro p
    show p ∈ m.entries ↔ p ∈ s.header :: (tmp :: active ++ [s.tail]) ∨
      p ∈ s.pool_header :: (pool ++ [s.pool_tail])
    rw [hmem, h.entries, Links.mem_front, Links.mem_front]
    rw [or_assoc, or_left_comm]
  · intro p hp hpool
    rcases Links.mem_front.mp hp with rfl | hp
    · exact hmove.not_mem_rest hpool
    · exact h.apart hp (Links.mem_front.mpr (Or.inr hpool))

/-! ## fdtable_init_pool -/

theorem poolSound_init {t : Table} {pool_header pool_tail : Ptr} (ht : Sound t [])
    (hentries : ∀ p, p ∈ t.memory.entries ↔ p = t.header ∨ p = t.tail)
    (h : fdtable_init_pool t pool_header pool_tail = some s) :
    s.thr_num = t.thr_num ∧ PoolSound s [] [] := by
  by_cases hheader : t.memory.Unused pool_header
  · by_cases htail : pool_tail ≠ pool_header ∧ t.memory.Unused pool_tail
    · have hheader_ne : pool_header ≠ t.header ∧ pool_header ≠ t.tail := by
        have hnot := mt (hentries pool_header).mpr hheader.1
        tauto
      have htail_ne : pool_tail ≠ t.header ∧ pool_tail ≠ t.tail := by
        have hnot := mt (hentries pool_tail).mpr htail.2.1
        tauto
      simp [fdtable_init_pool, Memory.calloc, Memory.store, hheader, htail] at h
      subst h
      refine ⟨rfl, ⟨?_, ?_, ?_, ?_⟩, ?_, ?_, ?_⟩
      · apply ht.linked.congr
        · intro p hp
          obtain rfl : p = t.header := by simpa using hp
          simp [Memory.next_set, Memory.next_addEntry, hheader_ne.1.symm, htail_ne.1.symm]
        · intro p hp
          obtain rfl : p = t.tail := by simpa using hp
          simp [Memory.prev_set, Memory.prev_addEntry, hheader_ne.2.symm, htail_ne.2.symm]
      · intro p hp
        have hp : p = t.header ∨ p = t.tail := by simpa using hp
        simp [hentries, hp]
      · have hstop := ht.stop
        simpa [Memory.data_set, Memory.data_addEntry, hheader_ne.2.symm, htail_ne.2.symm]
          using hstop
      · apply Memory.Owned.set_thr_fd
        apply Memory.Owned.set_thr_fd
        apply ((ht.owned.addEntry pool_header).addEntry pool_tail).of_data
        · simp
        · simp
        · simp
      · apply Links.Linked.nil
        · simp [Memory.next_set, htail.1.symm]
        · simp [Memory.prev_set]
        · exact htail.1.symm
      · intro p
        simp [hentries]
        tauto
      · intro p hp hpool
        have hp : p = t.header ∨ p = t.tail := by simpa using hp
        have hpool : p = pool_header ∨ p = pool_tail := by simpa using hpool
        rcases hp with rfl | rfl
        · tauto
        · tauto
    · simp [fdtable_init_pool, Memory.calloc, hheader, htail] at h
  · simp [fdtable_init_pool, Memory.calloc, hheader] at h

end CorePartitioning.Preload.Heap.Pool
