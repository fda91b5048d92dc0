import CorePartitioning.Lib.Run
import CorePartitioning.Preload.Heap

/-!
# fdtable.c — the links are a list

The invariant of the table in memory, `Sound`, names the list that the links
are. Each function of fdtable.c does to this list what it does in the list
model of the table, so that the search is the list's search, `fdtable_add`
puts an entry in front and both deletions take out the entry found. That
nothing undefined happens on the way is part of it.
-/

namespace CorePartitioning.Preload.Heap

/-- Every message belongs to one entry, and is there. -/
structure Memory.Owned (m : Memory) : Prop where
  message_mem : ∀ p ∈ m.entries, ∀ b, (m.data p).message = some b → b ∈ m.messages
  message_own : ∀ p ∈ m.entries, ∀ q ∈ m.entries, ∀ b,
    (m.data p).message = some b → (m.data q).message = some b → p = q

/-- The links between `header` and `tail` are the list `l`. -/
structure Sound (s : Table) (l : List Ptr) : Prop where
  linked : Links.Linked s.memory.next s.memory.prev s.header l s.tail
  allocated : ∀ p ∈ s.header :: (l ++ [s.tail]), p ∈ s.memory.entries
  stop : (s.memory.data s.tail).thr_fd = -11
  owned : s.memory.Owned

variable {s s' : Table} {l l₁ l₂ : List Ptr} {tmp : Ptr} {fd : CInt}

theorem Sound.header_mem (h : Sound s l) : s.header ∈ s.memory.entries :=
  h.allocated s.header (List.mem_cons_self ..)

theorem Sound.tail_mem (h : Sound s l) : s.tail ∈ s.memory.entries :=
  h.allocated s.tail (by simp)

theorem Sound.length_lt (h : Sound s l) : l.length < s.memory.entries.card :=
  h.linked.length_lt_card h.allocated

/-! ## Traversals -/

theorem Memory.link_next {m : Memory} {p : Ptr} (hp : p ∈ m.entries) :
    ((m.load p).bind fun c => c.next) = m.next p := by
  rw [load_some hp]
  rfl

theorem Memory.link_prev {m : Memory} {p : Ptr} (hp : p ∈ m.entries) :
    ((m.load p).bind fun c => c.prev) = m.prev p := by
  rw [load_some hp]
  rfl

/-- Dereferencing reads the links of entries that are there. -/
theorem Memory.links_load {m : Memory} {a b : Ptr} (h : Links.Linked m.next m.prev a l b)
    (halloc : ∀ p ∈ a :: (l ++ [b]), p ∈ m.entries) :
    Links.Linked (fun p : Ptr => (m.load p).bind fun c => c.next)
      (fun p : Ptr => (m.load p).bind fun c => c.prev) a l b := by
  apply h.congr
  · intro p hp
    apply Memory.link_next (halloc p _)
    rw [← List.cons_append]
    exact List.mem_append_left _ hp
  · intro p hp
    exact Memory.link_prev (halloc p (List.mem_cons_of_mem _ hp))

theorem Sound.traversal (h : Sound s l) : fdtable_traversal s = some l :=
  (Memory.links_load h.linked h.allocated).walk_next h.length_lt

theorem Sound.traversal_reverse (h : Sound s l) : fdtable_traversal_reverse s = some l.reverse :=
  (Memory.links_load h.linked h.allocated).walk_prev h.length_lt

/-! ## The search -/

/-- An entry as the list model has it. -/
def Memory.info (m : Memory) (p : Ptr) : ThreadInfo where
  ptr := p
  p_thread := (m.data p).p_thread
  thr_fd := (m.data p).thr_fd
  pid := (m.data p).pid
  NetorFile := (m.data p).NetorFile

/-- The search loop from behind `x` on is the list model's. -/
theorem search_eq {m : Memory} {tail x : Ptr} {fuel : Nat} (fd : CInt)
    (hstop : (m.data tail).thr_fd = -11)
    (hchain : List.IsChain (fun a b => m.next a = some b) (x :: (l ++ [tail])))
    (halloc : ∀ p ∈ l ++ [tail], p ∈ m.entries) (hfuel : l.length < fuel) :
    search m fd fuel (m.next x) =
      some ((fdtable_search (fun tmp => tmp.thr_fd == fd) (l.map m.info)).map (·.ptr)) := by
  induction l generalizing x fuel with
  | nil =>
      obtain ⟨fuel, rfl⟩ := Nat.exists_eq_add_one_of_ne_zero (Nat.ne_of_gt hfuel)
      have hx : m.next x = some tail := by simpa using hchain
      rw [hx, search, Memory.load_some (halloc tail (by simp))]
      simp [hstop, fdtable_search]
  | cons a l ih =>
      obtain ⟨fuel, rfl⟩ := Nat.exists_eq_add_one_of_ne_zero (Nat.ne_zero_of_lt hfuel)
      obtain ⟨hx, hrest⟩ := List.isChain_cons_cons.mp hchain
      have hrec := ih hrest (fun p hp => halloc p (List.mem_cons_of_mem _ hp))
        (Nat.lt_of_succ_lt_succ hfuel)
      have hinfo : (m.info a).thr_fd = (m.node a).thr_fd := rfl
      rw [hx, search, Memory.load_some (halloc a (by simp)), List.map_cons, fdtable_search, hinfo,
        Option.bind_eq_bind, Option.bind_some]
      by_cases hstops : (m.node a).thr_fd = -11 ∨ (m.node a).thr_fd = 0
      · have hnot : ¬ ((m.node a).thr_fd ≠ -11 ∧ (m.node a).thr_fd ≠ 0) := by tauto
        rw [if_pos hstops, if_neg hnot]
        rfl
      · have hpass : (m.node a).thr_fd ≠ -11 ∧ (m.node a).thr_fd ≠ 0 := by tauto
        rw [if_neg hstops, if_pos hpass]
        by_cases hfd : (m.node a).thr_fd = fd
        · rw [if_pos hfd, if_pos (beq_iff_eq.mpr hfd)]
          rfl
        · rw [if_neg hfd, if_neg (mt beq_iff_eq.mp hfd)]
          exact hrec

/-- **The search finds what the list model's search finds.** -/
theorem Sound.get_by_fd_all (h : Sound s l) (fd : CInt) :
    fdtable_get_by_fd_all s fd =
      some ((fdtable_search (fun tmp => tmp.thr_fd == fd) (l.map s.memory.info)).map (·.ptr)) := by
  rw [fdtable_get_by_fd_all, Memory.load_some h.header_mem]
  apply search_eq fd h.stop (h.linked.joined.imp fun a b hab => hab.1)
  · intro p hp
    exact h.allocated p (List.mem_cons_of_mem _ hp)
  · exact h.length_lt

/-! ## fdtable_add -/

/-- What `fdtable_add` does to the memory. -/
structure Added (m m' : Memory) (header new message : Ptr) (pid : Nat) : Prop where
  entries : m'.entries = insert new m.entries
  messages : m'.messages = insert message m.messages
  pushed : Links.Pushed m.next m.prev m'.next m'.prev header new
  data_new : m'.data new =
    { p_thread := 0, thr_fd := -12, message := some message, pid, NetorFile := false }
  data_other : ∀ p, p ≠ new → m'.data p = m.data p

theorem fdtable_add_spec {new message n : Ptr} (pid : Nat) (hheader : s.header ∈ s.memory.entries)
    (hn : s.memory.next s.header = some n) (hn_mem : n ∈ s.memory.entries)
    (hnew : s.memory.Unused new) (hmessage : s.memory.Unused message) (hne : message ≠ new) :
    ∃ m, fdtable_add s (some new) (some message) pid =
        some (some new, { s with memory := m, thr_num := s.thr_num + 1 }) ∧
      Added s.memory m s.header new message pid := by
  have hnew_header : s.header ≠ new := by
    rintro rfl
    exact hnew.1 hheader
  have hnew_n : n ≠ new := by
    rintro rfl
    exact hnew.1 hn_mem
  have hn' : (s.memory.addEntry new).next s.header = some n := by
    rw [Memory.next_addEntry, Function.update_of_ne hnew_header, hn]
  simp only [fdtable_add, Memory.calloc, if_pos hnew, Option.bind_eq_bind, Option.bind_some]
  rw [Memory.load_some (by simp [hheader])]
  simp only [Option.bind_some, Memory.next_node, hn']
  simp [Memory.store, hheader, hn_mem, Memory.malloc, Memory.Unused, hmessage.1, hmessage.2, hne,
    Memory.memset]
  constructor
  · simp
  · simp
  · have hpushed := Links.pushed_update s.memory.prev hn hnew_header hnew_n
    simpa [Memory.next_set, Memory.next_addEntry, Memory.prev_set, Memory.prev_addEntry]
      using hpushed
  · simp [Memory.data_set, Memory.data_addEntry, Node.zero]
  · intro p hp
    simp [Memory.data_set, Memory.data_addEntry, hp]

theorem Memory.Owned.add {m m' : Memory} {header new message : Ptr} {pid : Nat} (h : m.Owned)
    (ha : Added m m' header new message pid) (hmessage : m.Unused message) : m'.Owned := by
  -- the message of an entry that was there before is not the new one
  have hold : ∀ p, p ∈ m'.entries → p ≠ new → ∀ b, (m'.data p).message = some b →
      p ∈ m.entries ∧ (m.data p).message = some b ∧ b ≠ message := by
    intro p hp hne b hb
    rw [ha.data_other p hne] at hb
    rw [ha.entries, Finset.mem_insert] at hp
    have hpm := hp.resolve_left hne
    have hmem := h.message_mem p hpm b hb
    refine ⟨hpm, hb, ?_⟩
    rintro rfl
    exact hmessage.2 hmem
  have hnew : ∀ b, (m'.data new).message = some b → b = message := by
    intro b hb
    rw [ha.data_new] at hb
    exact (Option.some.inj hb).symm
  constructor
  · intro p hp b hb
    rw [ha.messages, Finset.mem_insert]
    by_cases hpnew : p = new
    · subst hpnew
      exact Or.inl (hnew b hb)
    · obtain ⟨hpm, hbm, -⟩ := hold p hp hpnew b hb
      exact Or.inr (h.message_mem p hpm b hbm)
  · intro p hp q hq b hpb hqb
    by_cases hpnew : p = new
    · by_cases hqnew : q = new
      · rw [hpnew, hqnew]
      · subst hpnew
        exact absurd (hnew b hpb) (hold q hq hqnew b hqb).2.2
    · by_cases hqnew : q = new
      · subst hqnew
        exact absurd (hnew b hqb) (hold p hp hpnew b hpb).2.2
      · obtain ⟨hpm, hpb, -⟩ := hold p hp hpnew b hpb
        obtain ⟨hqm, hqb, -⟩ := hold q hq hqnew b hqb
        exact h.message_own p hpm q hqm b hpb hqb

theorem Sound.not_mem_of_unused (h : Sound s l) {new : Ptr} (hnew : s.memory.Unused new) :
    new ∉ s.header :: (l ++ [s.tail]) :=
  fun hmem => hnew.1 (h.allocated new hmem)

theorem Sound.add (h : Sound s l) {m : Memory} {new message : Ptr} {pid : Nat} {n : BitVec 32}
    (hnew : s.memory.Unused new) (hmessage : s.memory.Unused message)
    (ha : Added s.memory m s.header new message pid) :
    Sound { s with memory := m, thr_num := n } (new :: l) where
  linked := h.linked.push ha.pushed (h.not_mem_of_unused hnew)
  allocated p hp := by
    show p ∈ m.entries
    rw [ha.entries, Finset.mem_insert]
    simp only [List.cons_append, List.mem_cons] at hp
    rcases hp with rfl | rfl | hp
    · exact Or.inr h.header_mem
    · exact Or.inl rfl
    · exact Or.inr (h.allocated p (List.mem_cons_of_mem _ hp))
  stop := by
    show (m.data s.tail).thr_fd = -11
    rw [ha.data_other]
    · exact h.stop
    · rintro rfl
      exact hnew.1 h.tail_mem
  owned := h.owned.add ha hmessage

theorem Sound.next_header (h : Sound s l) :
    ∃ n ∈ l ++ [s.tail], s.memory.next s.header = some n ∧ n ∈ s.memory.entries := by
  obtain ⟨n, rest, hrest⟩ : ∃ n rest, l ++ [s.tail] = n :: rest :=
    List.exists_cons_of_ne_nil (by simp)
  have hn : n ∈ l ++ [s.tail] := by simp [hrest]
  have hhead := h.linked.next_header.1
  rw [hrest] at hhead
  exact ⟨n, hn, hhead, h.allocated n (List.mem_cons_of_mem _ hn)⟩

/-- `fdtable_add` when its allocations succeed. -/
theorem Sound.fdtable_add_eq (h : Sound s l) {new message : Ptr} (pid : Nat)
    (hnew : s.memory.Unused new) (hmessage : s.memory.Unused message) (hne : message ≠ new) :
    ∃ m, fdtable_add s (some new) (some message) pid =
        some (some new, { s with memory := m, thr_num := s.thr_num + 1 }) ∧
      Added s.memory m s.header new message pid := by
  obtain ⟨n, -, hn, hn_mem⟩ := h.next_header
  exact fdtable_add_spec pid h.header_mem hn hn_mem hnew hmessage hne

/-- The outcomes of `fdtable_add`. -/
theorem Sound.fdtable_add_cases (h : Sound s l) {new message r : Option Ptr} {pid : Nat}
    (hr : fdtable_add s new message pid = some (r, s')) :
    (new = none ∧ r = none ∧ s' = s) ∨
    ∃ new' message' m, new = some new' ∧ message = some message' ∧ r = some new' ∧
      s.memory.Unused new' ∧ s.memory.Unused message' ∧
      Added s.memory m s.header new' message' pid ∧
      s' = { s with memory := m, thr_num := s.thr_num + 1 } := by
  cases new with
  | none =>
      left
      simp [fdtable_add, Memory.calloc, Memory.load_some h.header_mem] at hr
      exact ⟨rfl, hr.1.symm, hr.2.symm⟩
  | some new' =>
      right
      by_cases hnew : s.memory.Unused new'
      · cases message with
        | none =>
            simp [fdtable_add, Memory.calloc, Memory.malloc, Memory.memset] at hr
        | some message' =>
            by_cases hmessage : message' ≠ new' ∧ s.memory.Unused message'
            · obtain ⟨m, hm, ha⟩ := h.fdtable_add_eq pid hnew hmessage.2 hmessage.1
              obtain ⟨rfl, rfl⟩ := Prod.mk.inj (Option.some.inj (hm.symm.trans hr))
              exact ⟨new', message', m, rfl, rfl, rfl, hnew, hmessage.2, ha, rfl⟩
            · simp [fdtable_add, Memory.calloc, hnew, Memory.load, Memory.store, Memory.malloc,
                h.header_mem, hmessage] at hr
      · simp [fdtable_add, Memory.calloc, hnew] at hr

/-! ## fdtable_delete and fdtable_entry_delete -/

/-- What a search in the list model finds is the first there is. -/
theorem fdtable_search_split {m : Memory} {found : ThreadInfo → Bool} {x : ThreadInfo}
    (h : fdtable_search found (l.map m.info) = some x) :
    ∃ l₁ l₂, l = l₁ ++ x.ptr :: l₂ ∧ x = m.info x.ptr ∧ found x = true ∧
      ∀ p ∈ l₁, found (m.info p) = false := by
  induction l with
  | nil => cases h
  | cons a l ih =>
      rw [List.map_cons, fdtable_search] at h
      split at h
      · cases h
      · split at h
        · rename_i hfound
          obtain rfl := Option.some.inj h
          exact ⟨[], l, rfl, rfl, hfound, by simp⟩
        · rename_i hfound
          obtain ⟨l₁, l₂, hl, hx, hx_found, hbefore⟩ := ih h
          have hcons : a :: l = (a :: l₁) ++ x.ptr :: l₂ := by rw [hl]; rfl
          refine ⟨a :: l₁, l₂, hcons, hx, hx_found, ?_⟩
          intro p hp
          rcases List.mem_cons.mp hp with rfl | hp
          · exact Bool.eq_false_iff.mpr hfound
          · exact hbefore p hp

/-- The entry found is the first with this descriptor. -/
theorem Sound.found (h : Sound s l) (hfound : fdtable_get_by_fd_all s fd = some (some tmp)) :
    ∃ l₁ l₂, l = l₁ ++ tmp :: l₂ ∧ (s.memory.data tmp).thr_fd = fd ∧
      ∀ p ∈ l₁, (s.memory.data p).thr_fd ≠ fd := by
  rw [h.get_by_fd_all] at hfound
  obtain ⟨x, hx, rfl⟩ := Option.map_eq_some_iff.mp (Option.some.inj hfound)
  obtain ⟨l₁, l₂, hl, hinfo, hx_fd, hbefore⟩ := fdtable_search_split hx
  refine ⟨l₁, l₂, hl, ?_, ?_⟩
  · rw [hinfo] at hx_fd
    exact beq_iff_eq.mp hx_fd
  · intro p hp
    exact beq_eq_false_iff_ne.mp (hbefore p hp)

/-- A search that finds nothing leaves nothing to do. -/
theorem fdtable_delete_none (hfound : fdtable_get_by_fd_all s fd = some none) :
    fdtable_delete s fd = some (2, s) := by
  simp [fdtable_delete, hfound]

theorem fdtable_entry_delete_none (hfound : fdtable_get_by_fd_all s fd = some none) :
    fdtable_entry_delete s fd = some (0, s) := by
  simp [fdtable_entry_delete, hfound]

/-- `tmp` is taken out of the links; nothing else of an entry changes. -/
structure Taken (m m' : Memory) (tmp : Ptr) : Prop where
  unlinked : Links.Unlinked m.next m.prev m'.next m'.prev tmp
  data : m'.data = m.data

theorem unlink_eq {m : Memory} {p n : Ptr} (hp : m.prev tmp = some p) (hn : m.next tmp = some n)
    (hp_ne : p ≠ tmp) (hn_ne : n ≠ tmp) (hp_mem : p ∈ m.entries) (hn_mem : n ∈ m.entries)
    (hmem : tmp ∈ m.entries) :
    ∃ m', unlink m (some tmp) (some n) (some p) = some m' ∧ Taken m m' tmp ∧
      m'.entries = m.entries ∧ m'.messages = m.messages := by
  have hclear := (Links.unlinked_update hp hn).clear (by simp [hp, hp_ne]) (by simp [hn, hn_ne])
    none none
  refine ⟨_, by simp [unlink, Memory.store, hp_mem, hn_mem, hmem]; rfl, ⟨?_, ?_⟩, ?_, ?_⟩
  · simpa [Memory.next_set, Memory.prev_set] using hclear
  · simp
  · simp
  · simp

theorem Sound.mem (h : Sound s (l₁ ++ tmp :: l₂)) : tmp ∈ s.memory.entries :=
  h.allocated tmp (by simp)

theorem Sound.neighbours (h : Sound s (l₁ ++ tmp :: l₂)) :
    ∃ p ∈ s.header :: l₁, ∃ n ∈ l₂ ++ [s.tail], s.memory.prev tmp = some p ∧
      s.memory.next tmp = some n ∧ p ≠ tmp ∧ n ≠ tmp ∧
      p ∈ s.memory.entries ∧ n ∈ s.memory.entries := by
  obtain ⟨p, hp, n, hn, hprev, hnext⟩ := h.linked.neighbours
  obtain ⟨hp_ne, hn_ne⟩ := h.linked.ne_neighbours hp hn
  have hall : s.header :: (l₁ ++ tmp :: l₂ ++ [s.tail]) =
      (s.header :: l₁) ++ tmp :: (l₂ ++ [s.tail]) := by simp
  have halloc := h.allocated
  rw [hall] at halloc
  have hp_mem := halloc p (List.mem_append_left _ hp)
  have hn_mem := halloc n (List.mem_append_right _ (List.mem_cons_of_mem _ hn))
  exact ⟨p, hp, n, hn, hprev, hnext, hp_ne, hn_ne, hp_mem, hn_mem⟩

theorem Sound.fdtable_entry_delete_eq (h : Sound s (l₁ ++ tmp :: l₂))
    (hfound : fdtable_get_by_fd_all s fd = some (some tmp)) :
    ∃ m, fdtable_entry_delete s fd = some (0, { s with memory := m, thr_num := s.thr_num - 1 }) ∧
      Taken s.memory m tmp ∧ m.entries = s.memory.entries ∧ m.messages = s.memory.messages := by
  obtain ⟨p, -, n, -, hp, hn, hp_ne, hn_ne, hp_mem, hn_mem⟩ := h.neighbours
  obtain ⟨m, hm, htaken, hentries, hmessages⟩ :=
    unlink_eq hp hn hp_ne hn_ne hp_mem hn_mem h.mem
  have heq : fdtable_entry_delete s fd =
      some (0, { s with memory := m, thr_num := s.thr_num - 1 }) := by
    simp [fdtable_entry_delete, hfound, Memory.load_some h.mem, hp, hn, hm]
  exact ⟨m, heq, htaken, hentries, hmessages⟩

theorem Sound.fdtable_delete_eq (h : Sound s (l₁ ++ tmp :: l₂))
    (hfound : fdtable_get_by_fd_all s fd = some (some tmp)) :
    ∃ m, fdtable_delete s fd = some (0, { s with memory := m, thr_num := s.thr_num - 1 }) ∧
      Taken s.memory m tmp ∧ m.entries = s.memory.entries.erase tmp ∧
      ∀ b, b ∈ m.messages ↔ b ∈ s.memory.messages ∧ (s.memory.data tmp).message ≠ some b := by
  obtain ⟨p, -, n, -, hp, hn, hp_ne, hn_ne, hp_mem, hn_mem⟩ := h.neighbours
  obtain ⟨m, hm, htaken, hentries, hmessages⟩ :=
    unlink_eq hp hn hp_ne hn_ne hp_mem hn_mem h.mem
  have hmem : tmp ∈ m.entries := by
    rw [hentries]
    exact h.mem
  cases hmessage : (s.memory.data tmp).message with
  | none =>
      have heq : fdtable_delete s fd =
          some (0, { s with memory := m.removeEntry tmp, thr_num := s.thr_num - 1 }) := by
        simp [fdtable_delete, hfound, Memory.load_some h.mem, Memory.load_some hmem, hp, hn, hm,
          htaken.data, hmessage, Memory.freeMessage, Memory.free, hmem]
      refine ⟨_, heq, ⟨htaken.unlinked, htaken.data⟩, ?_, ?_⟩
      · rw [← hentries]
        rfl
      · simp [hmessages]
  | some b =>
      have hb : b ∈ m.messages := by
        rw [hmessages]
        exact h.owned.message_mem tmp h.mem b hmessage
      have heq : fdtable_delete s fd = some (0, { s with
          memory := (m.removeMessage b).removeEntry tmp, thr_num := s.thr_num - 1 }) := by
        simp [fdtable_delete, hfound, Memory.load_some h.mem, Memory.load_some hmem, hp, hn, hm,
          htaken.data, hmessage, Memory.freeMessage, Memory.free, hmem, hb]
      refine ⟨_, heq, ⟨htaken.unlinked, htaken.data⟩, ?_, ?_⟩
      · rw [← hentries]
        rfl
      · intro b'
        simp [hmessages, eq_comm, and_comm]

theorem Memory.Owned.mono {m m' : Memory} (h : m.Owned) (hdata : m'.data = m.data)
    (hentries : ∀ p ∈ m'.entries, p ∈ m.entries)
    (hmessages : ∀ p ∈ m'.entries, ∀ b, (m.data p).message = some b → b ∈ m.messages →
      b ∈ m'.messages) : m'.Owned := by
  constructor
  · intro p hp b hb
    rw [hdata] at hb
    exact hmessages p hp b hb (h.message_mem p (hentries p hp) b hb)
  · intro p hp q hq b hpb hqb
    rw [hdata] at hpb hqb
    exact h.message_own p (hentries p hp) q (hentries q hq) b hpb hqb

/-- Either deletion leaves the list without `tmp`. -/
theorem Sound.without (h : Sound s (l₁ ++ tmp :: l₂)) {m : Memory} {n : BitVec 32}
    (htaken : Taken s.memory m tmp) (hkept : ∀ p ∈ s.memory.entries, p ≠ tmp → p ∈ m.entries)
    (howned : m.Owned) : Sound { s with memory := m, thr_num := n } (l₁ ++ l₂) where
  linked := h.linked.unlink htaken.unlinked
  allocated p hp := by
    apply hkept p
    · apply h.allocated
      exact Links.mem_middle.mpr (Or.inr hp)
    · rintro rfl
      exact h.linked.not_mem_rest hp
  stop := by
    show (m.data s.tail).thr_fd = -11
    rw [htaken.data]
    exact h.stop
  owned := howned

theorem Memory.Owned.of_data {m m' : Memory} (h : m.Owned) (hdata : m'.data = m.data)
    (hentries : m'.entries = m.entries) (hmessages : m'.messages = m.messages) : m'.Owned := by
  apply h.mono hdata
  · intro p hp
    rwa [hentries] at hp
  · intro p _ b _ hb
    rwa [hmessages]

theorem Sound.delete (h : Sound s (l₁ ++ tmp :: l₂)) {m : Memory} {n : BitVec 32}
    (htaken : Taken s.memory m tmp) (hentries : m.entries = s.memory.entries.erase tmp)
    (hmessages : ∀ b,
      b ∈ m.messages ↔ b ∈ s.memory.messages ∧ (s.memory.data tmp).message ≠ some b) :
    Sound { s with memory := m, thr_num := n } (l₁ ++ l₂) := by
  apply h.without htaken
  · intro p hp hne
    rw [hentries]
    exact Finset.mem_erase.mpr ⟨hne, hp⟩
  · apply h.owned.mono htaken.data
    · intro p hp
      rw [hentries] at hp
      exact Finset.mem_of_mem_erase hp
    · intro p hp b hpb hb
      rw [hentries] at hp
      obtain ⟨hne, hp⟩ := Finset.mem_erase.mp hp
      apply (hmessages b).mpr
      constructor
      · exact hb
      · intro htmp
        exact hne (h.owned.message_own p hp tmp h.mem b hpb htmp)

theorem Sound.entry_delete (h : Sound s (l₁ ++ tmp :: l₂)) {m : Memory} {n : BitVec 32}
    (htaken : Taken s.memory m tmp) (hentries : m.entries = s.memory.entries)
    (hmessages : m.messages = s.memory.messages) :
    Sound { s with memory := m, thr_num := n } (l₁ ++ l₂) := by
  apply h.without htaken
  · intro p hp _
    rwa [hentries]
  · exact h.owned.of_data htaken.data hentries hmessages

/-! ## Assignments -/

theorem Memory.Owned.set_thr_fd {m : Memory} (h : m.Owned) (p : Ptr) (fd : CInt) :
    (m.set p fun c => { c with thr_fd := fd }).Owned := by
  have hmessage : ∀ q, ((m.set p fun c => { c with thr_fd := fd }).data q).message =
      (m.data q).message := by
    intro q
    by_cases hq : q = p
    · subst hq
      simp [Memory.data_set]
    · simp [Memory.data_set, hq]
  constructor
  · intro q hq b hb
    rw [hmessage] at hb
    exact h.message_mem q hq b hb
  · intro q hq r hr b hqb hrb
    rw [hmessage] at hqb hrb
    exact h.message_own q hq r hr b hqb hrb

theorem Sound.set_thr_fd (h : Sound s l) {p : Ptr} (fd : CInt) (hp : p ≠ s.tail) :
    Sound { s with memory := s.memory.set p fun c => { c with thr_fd := fd } } l where
  linked := by simpa using h.linked
  allocated := h.allocated
  stop := by
    show ((s.memory.set p fun c => { c with thr_fd := fd }).data s.tail).thr_fd = -11
    rw [Memory.data_set, Function.update_of_ne (Ne.symm hp)]
    exact h.stop
  owned := h.owned.set_thr_fd p fd

/-! ## fdtable_init -/

theorem Memory.Owned.empty : Memory.empty.Owned := by
  constructor
  · intro p hp
    simp [Memory.empty] at hp
  · intro p hp
    simp [Memory.empty] at hp

/-- What `calloc` gives has no message. -/
theorem Memory.Owned.addEntry {m : Memory} (h : m.Owned) (new : Ptr) : (m.addEntry new).Owned := by
  have hold : ∀ p ∈ (m.addEntry new).entries, ∀ b, ((m.addEntry new).data p).message = some b →
      p ∈ m.entries ∧ (m.data p).message = some b := by
    intro p hp b hb
    by_cases hpnew : p = new
    · subst hpnew
      simp [data_addEntry, Node.zero] at hb
    · constructor
      · simpa [hpnew] using hp
      · simpa [data_addEntry, hpnew] using hb
  constructor
  · intro p hp b hb
    obtain ⟨hp, hb⟩ := hold p hp b hb
    exact h.message_mem p hp b hb
  · intro p hp q hq b hpb hqb
    obtain ⟨hp, hpb⟩ := hold p hp b hpb
    obtain ⟨hq, hqb⟩ := hold q hq b hqb
    exact h.message_own p hp q hq b hpb hqb

theorem sound_init {header tail : Ptr} (h : fdtable_init header tail = some s) :
    s.thr_num = 0 ∧ Sound s [] ∧ ∀ p, p ∈ s.memory.entries ↔ p = s.header ∨ p = s.tail := by
  have hempty : ∀ p, Memory.empty.Unused p := by simp [Memory.Unused, Memory.empty]
  by_cases hne : tail = header
  · simp [fdtable_init, Memory.calloc, hempty, hne] at h
  · simp [fdtable_init, Memory.calloc, Memory.store, hempty, hne] at h
    subst h
    refine ⟨rfl, ⟨?_, ?_, ?_, ?_⟩, ?_⟩
    · apply Links.Linked.nil
      · simp [Memory.next_set, Ne.symm hne]
      · simp [Memory.prev_set]
      · exact Ne.symm hne
    · simp
    · simp [Memory.data_set]
    · apply Memory.Owned.set_thr_fd
      apply Memory.Owned.set_thr_fd
      apply ((Memory.Owned.empty.addEntry header).addEntry tail).of_data
      · simp
      · simp
      · simp
    · intro p
      simp [Memory.empty, or_comm]

end CorePartitioning.Preload.Heap
