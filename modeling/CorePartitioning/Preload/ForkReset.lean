import CorePartitioning.Preload.Fork

/-!
# ld_preload.c — what the child's main thread has reset

The main thread alone: every statement of `fdtable_forked` keeps what the
statements before it have done, so at the end each entry has all of it.
-/

namespace CorePartitioning.Preload.Fork

variable {Tid : Type} {par : Parent Tid} {pid : Nat} {c c' : Child Tid} {e : Env}
  {message : ArgsData}

/-! ## The table -/

namespace Same

variable {tbl tbl' tbl'' : FdTable}

theorem refl (tbl : FdTable) : Same tbl tbl := ⟨rfl, rfl⟩

theorem trans (h : Same tbl tbl') (h' : Same tbl' tbl'') : Same tbl tbl'' :=
  ⟨h'.entries.trans h.entries, h'.thr_num.trans h.thr_num⟩

theorem ptrs (h : Same tbl tbl') : tbl'.ptrs = tbl.ptrs := by
  have hfst := congrArg (List.map Prod.fst) h.entries
  rwa [List.map_map, List.map_map] at hfst

theorem reached (h : Same tbl tbl') : Fork.reached tbl' = Fork.reached tbl := by
  have heq := congrArg (fun l => (l.takeWhile fun k : Ptr × CInt × Bool =>
    !(k.2.1 == -11 || k.2.1 == 0)).map Prod.fst) h.entries
  rw [List.takeWhile_map, List.takeWhile_map, List.map_map, List.map_map] at heq
  exact heq

theorem thr_fd (h : Same tbl tbl') {x' : ThreadInfo} (hx' : x' ∈ tbl'.entries) :
    ∃ x ∈ tbl.entries, x.thr_fd = x'.thr_fd := by
  have hkey : (x'.ptr, x'.thr_fd, x'.NetorFile) ∈
      tbl'.entries.map fun x => (x.ptr, x.thr_fd, x.NetorFile) := List.mem_map_of_mem hx'
  rw [h.entries] at hkey
  obtain ⟨x, hx, heq⟩ := List.mem_map.mp hkey
  exact ⟨x, hx, congrArg (·.2.1) heq⟩

end Same

/-- The search passes no entry behind the stop. -/
theorem fdtable_search_reached {found : ThreadInfo → Bool} {entries : List ThreadInfo}
    {x : ThreadInfo} (h : fdtable_search found entries = some x) :
    x ∈ entries.takeWhile passed := by
  rw [fdtable_search_eq] at h
  exact List.mem_of_find?_eq_some h

/-! ## One statement -/

/-- What a statement does other than test, step on and return. -/
structure Advances (c : Child Tid) (i : Stmt) (c' : Child Tid) : Prop where
  pc : c'.pc = c.pc + 1
  tmp : c'.tmp = c.tmp
  lock : c'.world.lock = c.world.lock
  world_pid : c'.world.pid = c.world.pid
  same : Same c.world.table c'.world.table
  entries : ∀ x' ∈ c'.world.table.entries, ∃ x ∈ c.world.table.entries,
    x.ptr = x'.ptr ∧ (x'.pid = x.pid ∨ x'.pid = c.world.pid)
  set_pid : i = .set_pid → ∀ x' ∈ c'.world.table.entries, c.tmp.head? = some x'.ptr →
    x'.pid = c.world.pid
  sem : ∀ p x, c'.sem p x = c.sem p x ∨
    c.tmp.head? = some p ∧ i = .sem_init x (initial x) ∧ c'.sem p x = initial x
  sem_init : ∀ x, i = .sem_init x (initial x) → ∀ p, c.tmp.head? = some p →
    c'.sem p x = initial x
  running : ∀ id p t, c'.thread id = some (.running p t) ↔ c.thread id = some (.running p t)
  created : ∃ new, ∀ id, c'.thread id ≠ none → c.thread id ≠ none ∨ id = new

theorem initial_of_mem {x : Ipc.Sem} {v : Nat} (h : .sem_init x v ∈ fdtable_forked) :
    v = initial x := by
  simp only [fdtable_forked, List.mem_cons, List.not_mem_nil, Stmt.sem_init.injEq,
    reduceCtorEq, false_or, or_false] at h
  rcases h with ⟨rfl, rfl⟩ | ⟨rfl, rfl⟩ | ⟨rfl, rfl⟩ | ⟨rfl, rfl⟩ | ⟨rfl, rfl⟩ | ⟨rfl, rfl⟩
  all_goals rfl

/-- No statement occurs twice. -/
theorem getElem?_fdtable_forked_iff {i : Stmt} (hi : i ∈ fdtable_forked) {k : Nat} :
    fdtable_forked[k]? = some i ↔ k = fdtable_forked.idxOf i := by
  have hnodup : fdtable_forked.Nodup := by decide
  constructor
  · intro h
    obtain ⟨hlt, rfl⟩ := List.getElem?_eq_some_iff.mp h
    exact (hnodup.idxOf_getElem k hlt).symm
  · rintro rfl
    exact List.getElem?_idxOf hi

/-- The test is statement 0. -/
theorem pc_of_test {k : Nat} (h : fdtable_forked[k]? = some .test) : k = 0 :=
  (getElem?_fdtable_forked_iff (by decide)).mp h

/-- A write to the current entry that leaves its place and descriptor. -/
theorem Child.modify_spec {f : ThreadInfo → ThreadInfo} (h : c.modify f = some c')
    (hkey : ∀ x, (f x).ptr = x.ptr ∧ (f x).thr_fd = x.thr_fd ∧ (f x).NetorFile = x.NetorFile) :
    ∃ p table, c.tmp.head? = some p ∧ c' = { c with world := { c.world with table } } ∧
      Same c.world.table table ∧
      table.entries = c.world.table.entries.map fun x => if x.ptr = p then f x else x := by
  obtain ⟨table, hmod, rfl⟩ := Option.map_eq_some_iff.mp h
  obtain ⟨p, hp, -, rfl⟩ := FdTable.modify_eq_some hmod
  refine ⟨p, _, hp, rfl, ⟨?_, rfl⟩, rfl⟩
  dsimp only
  rw [List.map_map]
  apply List.map_congr_left
  intro x _
  rw [Function.comp_apply]
  split
  · obtain ⟨hptr, hfd, hkind⟩ := hkey x
    rw [hptr, hfd, hkind]
  · rfl

/-- `tmp = tmp->next` is the last one. -/
theorem next_iff {k : Nat} : fdtable_forked[k]? = some .next ↔ k + 1 = fdtable_forked.length := by
  have hidx : fdtable_forked.idxOf .next + 1 = fdtable_forked.length := by decide
  rw [getElem?_fdtable_forked_iff (by decide)]
  omega

/-- A statement that leaves the table. -/
theorem Advances.of_table {i : Stmt} (hi : i ≠ .set_pid) (hpc : c'.pc = c.pc + 1)
    (htmp : c'.tmp = c.tmp) (hworld : c'.world = c.world)
    (hsem : ∀ p x, c'.sem p x = c.sem p x ∨
      c.tmp.head? = some p ∧ i = .sem_init x (initial x) ∧ c'.sem p x = initial x)
    (hinit : ∀ x, i = .sem_init x (initial x) → ∀ p, c.tmp.head? = some p →
      c'.sem p x = initial x)
    (hthread : c'.thread = c.thread) : Advances c i c' where
  pc := hpc
  tmp := htmp
  lock := by rw [hworld]
  world_pid := by rw [hworld]
  same := by
    rw [hworld]
    exact Same.refl _
  entries x hx := by
    rw [hworld] at hx
    exact ⟨x, hx, rfl, .inl rfl⟩
  set_pid h := absurd h hi
  sem := hsem
  sem_init := hinit
  running id p t := by rw [hthread]
  created := ⟨0, fun id h => .inl (by rwa [hthread] at h)⟩

theorem advances_set_pid (h : c.exec e message .set_pid = some c') : Advances c .set_pid c' := by
  obtain ⟨c₁, hmod, rfl⟩ := Option.map_eq_some_iff.mp h
  obtain ⟨p, table, hp, rfl, hsame, hentries⟩ :=
    Child.modify_spec hmod fun x => ⟨rfl, rfl, rfl⟩
  refine ⟨rfl, rfl, rfl, rfl, hsame, fun x' hx' => ?_, fun _ x' hx' hhead => ?_,
    fun _ _ => .inl rfl, by simp, fun _ _ _ => Iff.rfl, ⟨0, fun _ h => .inl h⟩⟩
  · replace hx' : x' ∈ table.entries := hx'
    rw [hentries] at hx'
    obtain ⟨x, hx, rfl⟩ := List.mem_map.mp hx'
    refine ⟨x, hx, ?_⟩
    split
    · exact ⟨rfl, .inr rfl⟩
    · exact ⟨rfl, .inl rfl⟩
  · replace hx' : x' ∈ table.entries := hx'
    rw [hentries] at hx'
    obtain ⟨x, hx, rfl⟩ := List.mem_map.mp hx'
    rw [hp, Option.some.injEq] at hhead
    by_cases hxp : x.ptr = p
    · rw [if_pos hxp]
    · rw [if_neg hxp] at hhead
      exact absurd hhead.symm hxp

theorem advances_pthread_create (h : c.exec e message .pthread_create = some c') :
    Advances c .pthread_create c' := by
  simp only [Child.exec] at h
  split at h
  · split at h
    · cases h
    · rename_i hnew
      obtain ⟨c₁, hmod, rfl⟩ := Option.map_eq_some_iff.mp h
      obtain ⟨p, table, hp, rfl, hsame, hentries⟩ :=
        Child.modify_spec hmod fun x => ⟨rfl, rfl, rfl⟩
      refine ⟨rfl, rfl, rfl, rfl, hsame, fun x' hx' => ?_, by simp, fun _ _ => .inl rfl, by simp,
        fun id p t => ?_, ⟨e.thread, fun id hid => ?_⟩⟩
      · replace hx' : x' ∈ table.entries := hx'
        rw [hentries] at hx'
        obtain ⟨x, hx, rfl⟩ := List.mem_map.mp hx'
        refine ⟨x, hx, ?_⟩
        split
        · exact ⟨rfl, .inl rfl⟩
        · exact ⟨rfl, .inl rfl⟩
      · by_cases hid : id = e.thread
        · subst hid
          simp [hnew]
        · simp [hid]
      · by_cases heq : id = e.thread
        · exact .inr heq
        · exact .inl (by simpa [heq] using hid)
  · cases h
    exact .of_table (by simp) rfl rfl rfl (fun _ _ => .inl rfl) (by simp) rfl

theorem advances_malloc (h : c.exec e message .malloc = some c') : Advances c .malloc c' := by
  obtain ⟨p, -, rfl⟩ := Option.map_eq_some_iff.mp h
  exact .of_table (by simp) rfl rfl rfl (fun _ _ => .inl rfl) (by simp) rfl

theorem advances_sem_init {x : Ipc.Sem} (h : c.exec e message (.sem_init x (initial x)) = some c') :
    Advances c (.sem_init x (initial x)) c' := by
  obtain ⟨p, hp, rfl⟩ := Option.map_eq_some_iff.mp h
  refine .of_table (by simp) rfl rfl rfl (fun q y => ?_) (fun y hy q hq => ?_) rfl
  · by_cases hqy : q = p ∧ y = x
    · obtain ⟨rfl, rfl⟩ := hqy
      exact .inr ⟨hp, rfl, by simp⟩
    · refine .inl ?_
      by_cases hq : q = p
      · subst hq
        have hy : y ≠ x := fun heq => hqy ⟨rfl, heq⟩
        simp [hy]
      · simp [hq]
  · obtain ⟨rfl, -⟩ := Stmt.sem_init.inj hy
    obtain rfl : p = q := Option.some.inj (hp.symm.trans hq)
    simp

/-- What the main thread does next. -/
theorem main_cases (h : step c (.main e message) = some c') :
    (c.pc = 0 ∧ c.stops = true ∧ c' = { c with pc := fdtable_forked.length }) ∨
      (fdtable_forked[c.pc]? = some .next ∧ c' = { c with tmp := c.tmp.tail, pc := 0 }) ∨
      ∃ i, fdtable_forked[c.pc]? = some i ∧ i ≠ .next ∧ (c.pc = 0 → c.stops = false) ∧
        Advances c i c' := by
  obtain ⟨i, hi, hexec⟩ := Option.bind_eq_some_iff.mp h
  have hpos : i ≠ .test → c.pc ≠ 0 := by
    intro hne hzero
    rw [hzero] at hi
    exact hne (Option.some.inj hi).symm
  cases i with
  | test =>
      have hzero := pc_of_test hi
      have hc' := Option.some.inj hexec
      by_cases hstop : c.stops = true
      · rw [if_pos hstop] at hc'
        exact .inl ⟨hzero, hstop, hc'.symm⟩
      · rw [if_neg hstop] at hc'
        subst hc'
        refine .inr (.inr ⟨.test, hi, by simp, fun _ => by simpa using hstop, ?_⟩)
        exact .of_table (by simp) rfl rfl rfl (fun _ _ => .inl rfl) (by simp) rfl
  | set_pid =>
      exact .inr (.inr ⟨_, hi, by simp, fun hzero => absurd hzero (hpos (by simp)),
        advances_set_pid hexec⟩)
  | pthread_create =>
      exact .inr (.inr ⟨_, hi, by simp, fun hzero => absurd hzero (hpos (by simp)),
        advances_pthread_create hexec⟩)
  | malloc =>
      exact .inr (.inr ⟨_, hi, by simp, fun hzero => absurd hzero (hpos (by simp)),
        advances_malloc hexec⟩)
  | sem_init x v =>
      obtain rfl := initial_of_mem (List.mem_of_getElem? hi)
      exact .inr (.inr ⟨_, hi, by simp, fun hzero => absurd hzero (hpos (by simp)),
        advances_sem_init hexec⟩)
  | next => exact .inr (.inl ⟨hi, (Option.some.inj hexec).symm⟩)

/-! ## The walk -/

/-- What the first `k` statements of the loop's body do to the entry at `p`. -/
structure Done (pid : Nat) (c : Child Tid) (p : Ptr) (k : Nat) : Prop where
  sem : ∀ x, .sem_init x (initial x) ∈ fdtable_forked.take k → c.sem p x = initial x
  pid : .set_pid ∈ fdtable_forked.take k → ∀ x ∈ c.world.table.entries, x.ptr = p → x.pid = pid

/-- The main thread is at `tmp`, behind it all entries are done. -/
structure Reset (par : Parent Tid) (pid : Nat) (c : Child Tid) : Prop where
  lock : c.world.lock = par.world.lock
  world_pid : c.world.pid = pid
  same : Same par.world.table c.world.table
  done : ∃ done, par.world.table.ptrs = done ++ c.tmp ∧
    ∀ p ∈ done, Done pid c p fdtable_forked.length
  current : ∀ p, c.tmp.head? = some p → Done pid c p c.pc
  le : c.pc ≤ fdtable_forked.length
  inside : c.pc ≠ 0 → ¬ c.Returns → c.tmp ≠ []
  returned : c.Returns → c.tmp = []

theorem Done.zero (p : Ptr) : Done pid c p 0 :=
  ⟨fun _ h => absurd h List.not_mem_nil, fun h => absurd h List.not_mem_nil⟩

theorem Done.advance {i : Stmt} (hpid : c.world.pid = pid) (h : Advances c i c') {p : Ptr}
    {k : Nat} (hd : Done pid c p k) : Done pid c' p k := by
  refine ⟨fun x hx => ?_, fun hset x' hx' hptr => ?_⟩
  · rcases h.sem p x with hkeep | ⟨-, -, hinit⟩
    · rw [hkeep]
      exact hd.sem x hx
    · exact hinit
  · obtain ⟨x, hx, hxptr, hkeep | hchild⟩ := h.entries x' hx'
    · rw [hkeep]
      exact hd.pid hset x hx (hxptr.trans hptr)
    · rw [hchild]
      exact hpid

/-- The current entry, after its next statement. -/
theorem Done.advance_current {i : Stmt} (hpid : c.world.pid = pid)
    (hi : fdtable_forked[c.pc]? = some i) (h : Advances c i c') {p : Ptr}
    (hp : c.tmp.head? = some p) (hd : Done pid c p c.pc) : Done pid c' p c'.pc := by
  have hkeep := hd.advance hpid h
  have htake : fdtable_forked.take c'.pc = fdtable_forked.take c.pc ++ [i] := by
    rw [h.pc, List.take_add_one, hi]
    rfl
  refine ⟨fun x hx => ?_, fun hset x' hx' hptr => ?_⟩
  · rw [htake, List.mem_append, List.mem_singleton] at hx
    rcases hx with hx | hx
    · exact hkeep.sem x hx
    · exact h.sem_init x hx.symm p hp
  · rw [htake, List.mem_append, List.mem_singleton] at hset
    rcases hset with hset | hset
    · exact hkeep.pid hset x' hx' hptr
    · rw [h.set_pid hset.symm x' hx' (by rw [hp, hptr])]
      exact hpid

theorem tmp_of_stops (hc : Same par.world.table c.world.table) :
    c.stops = true → c.tmp = [] := by
  intro hstop
  unfold Child.stops at hstop
  cases htmp : c.tmp with
  | nil => rfl
  | cons p rest =>
      simp only [htmp, List.any_eq_true, Bool.and_eq_true, beq_iff_eq] at hstop
      obtain ⟨x', hx', -, hmark⟩ := hstop
      obtain ⟨x, hx, hfd⟩ := hc.thr_fd hx'
      rcases par.sound.thr_fd x hx with hnew | hnonneg
      · rw [hfd, hmark] at hnew
        cases hnew
      · rw [hfd, hmark] at hnonneg
        exact absurd hnonneg (by decide)

theorem reset_fork (par : Parent Tid) (pid : Nat) : Reset par pid (fork par pid) where
  lock := rfl
  world_pid := rfl
  same := Same.refl _
  done := ⟨[], rfl, by simp⟩
  current p _ := Done.zero p
  le := Nat.zero_le _
  inside h := absurd rfl h
  returned h := by cases h

/-- The main thread keeps the invariant. -/
theorem Reset.main (h : Reset par pid c) (hs : step c (.main e message) = some c') :
    Reset par pid c' := by
  obtain ⟨done, hsplit, hdone⟩ := h.done
  obtain ⟨-, hstop, rfl⟩ | ⟨hi, rfl⟩ | ⟨i, hi, hnext, hpass, hadv⟩ := main_cases hs
  · have htmp := tmp_of_stops h.same hstop
    refine ⟨h.lock, h.world_pid, h.same, ⟨done, hsplit, fun p hp => ?_⟩, fun p hp => ?_,
      Nat.le_refl _, fun _ hret => absurd rfl hret, fun _ => htmp⟩
    · exact ⟨(hdone p hp).sem, (hdone p hp).pid⟩
    · rw [htmp] at hp
      cases hp
  · refine ⟨h.lock, h.world_pid, h.same, ?_, fun p _ => Done.zero p, Nat.zero_le _,
      fun hne => absurd rfl hne, fun hret => by cases hret⟩
    cases htmp : c.tmp with
    | nil =>
        rw [htmp] at hsplit
        exact ⟨done, hsplit, fun p hp => ⟨(hdone p hp).sem, (hdone p hp).pid⟩⟩
    | cons p rest =>
        -- `next` does nothing to the entry, so all of the body is done
        have hcurrent := h.current p (by rw [htmp]; rfl)
        have htake : fdtable_forked.take fdtable_forked.length
            = fdtable_forked.take c.pc ++ [.next] := by
          rw [← next_iff.mp hi, List.take_add_one, hi]
          rfl
        refine ⟨done ++ [p], ?_, fun q hq => ?_⟩
        · rw [hsplit, htmp, List.append_assoc]
          rfl
        · rcases List.mem_append.mp hq with hq | hq
          · exact ⟨(hdone q hq).sem, (hdone q hq).pid⟩
          · obtain rfl := List.mem_singleton.mp hq
            refine ⟨fun x hx => hcurrent.sem x ?_, fun hset => hcurrent.pid ?_⟩
            · simpa [htake] using hx
            · simpa [htake] using hset
  · have hne : c.tmp ≠ [] := by
      by_cases hzero : c.pc = 0
      · intro htmp
        have hgo := hpass hzero
        simp [Child.stops, htmp] at hgo
      · refine h.inside hzero fun hret => ?_
        rw [hret, List.getElem?_length] at hi
        cases hi
    refine ⟨hadv.lock.trans h.lock, hadv.world_pid.trans h.world_pid, h.same.trans hadv.same,
      ⟨done, ?_, fun p hp => (hdone p hp).advance h.world_pid hadv⟩, fun p hp => ?_,
      ?_, fun _ _ => ?_, fun hret => ?_⟩
    · rw [hadv.tmp]
      exact hsplit
    · rw [hadv.tmp] at hp
      exact (h.current p hp).advance_current h.world_pid hi hadv hp
    · obtain ⟨hlt, -⟩ := List.getElem?_eq_some_iff.mp hi
      rw [hadv.pc]
      exact hlt
    · rw [hadv.tmp]
      exact hne
    · have hlast := hadv.pc.symm.trans hret
      rw [next_iff.mpr hlast] at hi
      exact absurd (Option.some.inj hi).symm hnext

/-- When `fork` returns, every entry is reset. -/
theorem Reset.quiescent (h : Reset par pid c) (hret : c.Returns)
    (hfree : par.world.lock.readers = [] ∧ par.world.lock.writer = none) :
    Quiescent par pid c := by
  obtain ⟨done, hsplit, hdone⟩ := h.done
  rw [h.returned hret, List.append_nil] at hsplit
  have hall : ∀ x ∈ c.world.table.entries, Done pid c x.ptr fdtable_forked.length := by
    intro x hx
    apply hdone
    rw [← hsplit, ← h.same.ptrs]
    exact FdTable.mem_ptrs.mpr ⟨x, hx, rfl⟩
  refine ⟨by rw [h.lock]; exact hfree, fun x hx => ?_, fun x hx => ?_, h.same⟩
  · funext y
    exact (hall x hx).sem y (by cases y <;> decide)
  · exact (hall x hx).pid (by decide) x hx rfl

end CorePartitioning.Preload.Fork
