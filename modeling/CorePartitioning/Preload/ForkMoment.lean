import Mathlib.Data.Set.Finite.Lattice
import CorePartitioning.Preload.ForkReset

/-!
# ld_preload.c — when the child starts afresh

`fdtable_forked` creates the thread of an entry before it resets the
entry's semaphores, and nothing resets `table_rwlock`. So the child starts
afresh exactly when the parent forks at a good moment: the lock is free,
and no thread finds a request that is not for it.
-/

namespace CorePartitioning.Preload.Fork

variable {Tid : Type} {par : Parent Tid} {pid : Nat} {c c' : Child Tid} {e : Env}
  {message : ArgsData}

/-! ## A good moment is enough -/

/-- Every created thread waits for its first request. -/
structure Waiting (par : Parent Tid) (c : Child Tid) : Prop where
  full : ∀ p ∈ reached par.world.table, c.sem p .full = 0
  running : ∀ id sock t, c.thread id = some (.running sock t) →
    t.pc = 0 ∧ sock ∈ reached par.world.table

theorem waiting_fork (h : GoodMoment par) : Waiting par (fork par pid) :=
  ⟨h.full, fun _ _ _ ht => by cases ht⟩

theorem Waiting.main (h : Waiting par c) (hs : step c (.main e message) = some c') :
    Waiting par c' := by
  obtain ⟨-, -, rfl⟩ | ⟨-, rfl⟩ | ⟨i, -, -, -, hadv⟩ := main_cases hs
  · exact ⟨h.full, h.running⟩
  · exact ⟨h.full, h.running⟩
  · refine ⟨fun p hp => ?_, fun id sock t ht => h.running id sock t ((hadv.running ..).mp ht)⟩
    rcases hadv.sem p .full with hkeep | ⟨-, -, hinit⟩
    · rw [hkeep]
      exact h.full p hp
    · exact hinit

/-- A thread that starts finds an entry and waits. -/
theorem Waiting.start (h : Waiting par c) (hsame : Same par.world.table c.world.table) {id : Nat}
    {send_data : ArgsData} {recv_data : RetvalData} :
    Waiting par { c with
      thread := Function.update c.thread id (some (c.start id send_data recv_data)) } := by
  refine ⟨h.full, fun id' sock t ht => ?_⟩
  by_cases hid : id' = id
  · subst hid
    have hrun : c.start id' send_data recv_data = .running sock t := by simpa using ht
    unfold Child.start at hrun
    split at hrun
    · cases hrun
    · rename_i x hx
      split at hrun
      · cases hrun
        refine ⟨rfl, ?_⟩
        rw [← hsame.reached]
        exact List.mem_map_of_mem (fdtable_search_reached hx)
      · cases hrun
  · exact h.running id' sock t (by simpa [hid] using ht)

/-- No thread gets past its first statement. -/
theorem Waiting.not_serve (h : Waiting par c) {id : Nat} {o : Outcome} :
    step c (.thread id o) ≠ some c' := by
  intro hs
  obtain ⟨sock, t, ht, hserve⟩ := serve_of_step hs
  obtain ⟨hpc, hsock⟩ := h.running id sock t ht
  obtain ⟨s, hstep, -⟩ := Option.map_eq_some_iff.mp hserve
  obtain ⟨i, hi, hexec⟩ := Ipc.step_thread_iff.mp hstep
  have hfirst : Ipc.syscall_thread[t.pc]? = some i := hi
  rw [hpc] at hfirst
  obtain rfl : Ipc.Instr.sem_wait .full = i := Option.some.inj hfirst
  simp only [Ipc.threadExec, Option.ite_none_right_eq_some] at hexec
  have hpos : 0 < c.sem sock .full := hexec.1
  rw [h.full sock hsock] at hpos
  exact Nat.lt_irrefl 0 hpos

/-- Starting a thread does nothing to the memory. -/
theorem Reset.of_thread (h : Reset par pid c) (thread : Nat → Option Worker) :
    Reset par pid { c with thread } := by
  obtain ⟨done, hsplit, hdone⟩ := h.done
  exact ⟨h.lock, h.world_pid, h.same,
    ⟨done, hsplit, fun p hp => ⟨(hdone p hp).sem, (hdone p hp).pid⟩⟩,
    fun p hp => ⟨(h.current p hp).sem, (h.current p hp).pid⟩, h.le, h.inside, h.returned⟩

theorem quiescent_of_goodMoment (h : GoodMoment par) (hc : Runs par pid c) (hret : c.Returns) :
    Quiescent par pid c := by
  have hinv : Reset par pid c ∧ Waiting par c := by
    apply hc.invariant (I := fun c => Reset par pid c ∧ Waiting par c)
      ⟨reset_fork par pid, waiting_fork h⟩
    intro c l c' hI _ hs
    obtain ⟨hreset, hwait⟩ := hI
    cases l with
    | main e message => exact ⟨hreset.main hs, hwait.main hs⟩
    | start id send_data recv_data =>
        obtain ⟨-, rfl⟩ := start_of_step hs
        exact ⟨hreset.of_thread _, hwait.start hreset.same⟩
    | thread id o => exact absurd hs hwait.not_serve
  exact hinv.1.quiescent hret h.lock

/-! ## And it is needed -/

/-- The child has only finitely many threads, so there is an id for one more. -/
def Few (c : Child Tid) : Prop := {id | c.thread id ≠ none}.Finite

theorem Few.main (h : Few c) (hs : step c (.main e message) = some c') : Few c' := by
  obtain ⟨-, -, rfl⟩ | ⟨-, rfl⟩ | ⟨i, -, -, -, hadv⟩ := main_cases hs
  · exact h
  · exact h
  · obtain ⟨new, hnew⟩ := hadv.created
    exact (h.union (Set.finite_singleton new)).subset fun id hid => hnew id hid

/-- It leaves the others where they are. -/
theorem running_main (hs : step c (.main e message) = some c') {id : Nat} {p : Ptr}
    {t : Ipc.Thread} (h : c.thread id = some (.running p t)) :
    c'.thread id = some (.running p t) := by
  obtain ⟨-, -, rfl⟩ | ⟨-, rfl⟩ | ⟨i, -, -, -, hadv⟩ := main_cases hs
  · exact h
  · exact h
  · exact (hadv.running ..).mpr h

/-- How far the main thread is from the end. -/
def toGo (c : Child Tid) : Nat := c.tmp.length * 12 + (fdtable_forked.length - c.pc)

theorem toGo_main (h : Reset par pid c) (hs : step c (.main e message) = some c') :
    toGo c' < toGo c := by
  have hlen : fdtable_forked.length = 11 := rfl
  unfold toGo
  obtain ⟨hzero, -, rfl⟩ | ⟨hi, rfl⟩ | ⟨i, hi, -, -, hadv⟩ := main_cases hs
  · dsimp only
    omega
  · have hpc := next_iff.mp hi
    have hne : c.tmp ≠ [] := by
      refine h.inside (by omega) fun hret => ?_
      unfold Child.Returns at hret
      omega
    have hpos := List.length_pos_iff.mpr hne
    dsimp only
    rw [List.length_tail]
    omega
  · obtain ⟨hlt, -⟩ := List.getElem?_eq_some_iff.mp hi
    rw [hadv.tmp, hadv.pc]
    omega

theorem modify_isSome {p : Ptr} (hhead : c.tmp.head? = some p) (hp : p ∈ c.world.table.ptrs)
    (f : ThreadInfo → ThreadInfo) : ∃ c', c.modify f = some c' := by
  obtain ⟨x, hx, hxp⟩ := FdTable.mem_ptrs.mp hp
  have hany : c.world.table.entries.any (fun x => x.ptr == p) = true := by
    rw [List.any_eq_true]
    exact ⟨x, hx, by simpa using hxp⟩
  unfold Child.modify
  rw [hhead]
  simp [FdTable.modify, hany]

/-- The current entry is in the table. -/
theorem Reset.current_mem (h : Reset par pid c) {p : Ptr} (hhead : c.tmp.head? = some p) :
    p ∈ c.world.table.ptrs := by
  obtain ⟨done, hsplit, -⟩ := h.done
  rw [h.same.ptrs, hsplit]
  exact List.mem_append_right _ (List.mem_of_mem_head? hhead)

/-- The main thread never blocks. -/
theorem main_progress (h : Reset par pid c) (hret : ¬ c.Returns) (hnew : c.thread e.thread = none)
    (message : ArgsData) : ∃ c', step c (.main e message) = some c' := by
  obtain ⟨i, hi⟩ : ∃ i, fdtable_forked[c.pc]? = some i := by
    have hlt : c.pc < fdtable_forked.length := lt_of_le_of_ne h.le hret
    exact ⟨_, List.getElem?_eq_getElem hlt⟩
  have hstep : step c (.main e message) = c.exec e message i := by
    simp [step, hi]
  rw [hstep]
  by_cases hzero : c.pc = 0
  · rw [hzero] at hi
    obtain rfl : Stmt.test = i := Option.some.inj hi
    exact ⟨_, rfl⟩
  · obtain ⟨p, rest, htmp⟩ := List.exists_cons_of_ne_nil (h.inside hzero hret)
    have hhead : c.tmp.head? = some p := by rw [htmp]; rfl
    have hmodify := modify_isSome hhead (h.current_mem hhead)
    cases i with
    | test | next => exact ⟨_, rfl⟩
    | set_pid =>
        obtain ⟨c₁, hc₁⟩ := hmodify fun x => { x with pid := c.world.pid }
        exact ⟨_, by simp only [Child.exec]; rw [hc₁]; rfl⟩
    | pthread_create =>
        obtain ⟨c₁, hc₁⟩ := hmodify fun x => { x with p_thread := e.thread }
        simp only [Child.exec, hnew, hc₁, Option.map_some]
        split
        · exact ⟨_, rfl⟩
        · exact ⟨_, rfl⟩
    | malloc | sem_init x v => exact ⟨_, by simp only [Child.exec]; rw [hhead]; rfl⟩

/-- **The main thread alone** gets to any goal that it does not pass. -/
theorem main_reaches {J G : Child Tid → Prop}
    (hJ : ∀ c e message c', Reset par pid c → J c → ¬ G c → step c (.main e message) = some c' →
      J c')
    (hend : ∀ c, Reset par pid c → J c → c.Returns → G c) (h : Reset par pid c) (hfew : Few c)
    (hj : J c) :
    ∃ c', Run.Reachable step Run.free c c' ∧ (Reset par pid c' ∧ Few c' ∧ J c') ∧ G c' := by
  refine Run.exists_reachable (K := fun c => Reset par pid c ∧ Few c ∧ J c) toGo ?_ ⟨h, hfew, hj⟩
  rintro c ⟨h, hfew, hj⟩ hgoal
  obtain ⟨new, hnew⟩ := hfew.exists_notMem
  obtain ⟨c', hs⟩ := main_progress (e := { thread := new }) h (fun hret => hgoal (hend c h hj hret))
    (not_not.mp hnew) .zero
  exact ⟨c', ⟨_, trivial, hs⟩, ⟨h.main hs, hfew.main hs, hJ c _ _ c' h hj hgoal hs⟩, toGo_main h hs⟩

theorem few_fork (par : Parent Tid) (pid : Nat) : Few (fork par pid) := by
  have hempty : {id | (fork par pid).thread id ≠ none} = ∅ := by
    ext id
    simp [fork]
  rw [Few, hempty]
  exact Set.finite_empty

/-- Some run of the child returns from `fork`. -/
theorem exists_returns (par : Parent Tid) (pid : Nat) :
    ∃ c, Runs par pid c ∧ Reset par pid c ∧ c.Returns := by
  obtain ⟨c, hrun, ⟨hreset, -⟩, hret⟩ := main_reaches (J := fun _ => True)
    (G := Child.Returns) (fun _ _ _ _ _ _ _ _ => trivial) (fun _ _ _ hret => hret)
    (reset_fork par pid) (few_fork par pid) trivial
  exact ⟨c, hrun, hreset, hret⟩

/-! ### A request in flight -/

/-- The entry at `p` still has the parent's request. -/
structure Ahead (p : Ptr) (c : Child Tid) : Prop where
  mem : p ∈ c.tmp
  full : 0 < c.sem p .full
  pc : c.tmp.head? = some p → c.pc ≤ 2

/-- The main thread is about to create the thread of the entry at `p`. -/
def Creates (p : Ptr) (c : Child Tid) : Prop := c.tmp.head? = some p ∧ c.pc = 2

theorem Ahead.main {p : Ptr} (hreset : Reset par pid c) (h : Ahead p c) (hgoal : ¬ Creates p c)
    (hs : step c (.main e message) = some c') : Ahead p c' := by
  have hlen : fdtable_forked.length = 11 := rfl
  obtain ⟨-, hstop, rfl⟩ | ⟨hi, rfl⟩ | ⟨i, hi, -, -, hadv⟩ := main_cases hs
  · have hmem := h.mem
    rw [tmp_of_stops hreset.same hstop] at hmem
    cases hmem
  · have hpc := next_iff.mp hi
    have hne : c.tmp.head? ≠ some p := by
      intro hhead
      have hle := h.pc hhead
      omega
    refine ⟨?_, h.full, fun _ => Nat.zero_le 2⟩
    have hmem := h.mem
    cases htmp : c.tmp with
    | nil =>
        rw [htmp] at hmem
        cases hmem
    | cons q rest =>
        rw [htmp] at hmem hne
        rcases List.mem_cons.mp hmem with rfl | hrest
        · exact absurd rfl hne
        · exact hrest
  · refine ⟨by rw [hadv.tmp]; exact h.mem, ?_, fun hhead => ?_⟩
    · rcases hadv.sem p .full with hkeep | ⟨hhead, rfl, -⟩
      · rw [hkeep]
        exact h.full
      · -- no semaphore is reset by the first three statements
        have hnone : ∀ k ≤ 2, fdtable_forked[k]? ≠ some (.sem_init .full (initial .full)) := by
          decide
        exact absurd hi (hnone c.pc (h.pc hhead))
    · rw [hadv.tmp] at hhead
      have hle := h.pc hhead
      have hne : c.pc ≠ 2 := fun hpc => hgoal ⟨hhead, hpc⟩
      rw [hadv.pc]
      omega

/-- The search finds an entry when there is one to find. -/
theorem fdtable_search_isSome (found : ThreadInfo → Bool) {entries : List ThreadInfo}
    {y : ThreadInfo} (hy : y ∈ entries.takeWhile passed) (hfound : found y = true) :
    ∃ x, fdtable_search found entries = some x := by
  rw [fdtable_search_eq]
  exact Option.isSome_iff_exists.mp (List.find?_isSome.mpr ⟨y, hy, hfound⟩)

/-- The thread of the entry at `p` is created, with an id of its own. -/
theorem create_spec {p : Ptr} (h : Reset par pid c) (hat : Creates p c) {id : Nat}
    (hid : c.thread id = none) (hfresh : ∀ x ∈ c.world.table.entries, x.p_thread ≠ id) :
    ∃ c', step c (.main { thread := id } .zero) = some c' ∧ c'.tmp = c.tmp ∧ c'.pc = 3 ∧
      c'.sem = c.sem ∧ c'.thread id = some .created ∧
      ∀ x ∈ c'.world.table.entries, x.p_thread = id ↔ x.ptr = p := by
  obtain ⟨hhead, hpc⟩ := hat
  obtain ⟨c₁, hmod⟩ := modify_isSome hhead (h.current_mem hhead) fun x =>
    { x with p_thread := id }
  obtain ⟨q, table, hq, rfl, -, hentries⟩ := Child.modify_spec hmod fun x => ⟨rfl, rfl, rfl⟩
  obtain rfl : p = q := Option.some.inj (hhead.symm.trans hq)
  have hi : fdtable_forked[c.pc]? = some .pthread_create := by
    rw [hpc]
    rfl
  refine ⟨{ c with
      world := { c.world with table }
      pc := c.pc + 1
      thread := Function.update c.thread id (some .created) }, ?_, rfl, ?_, rfl,
    Function.update_self .., ?_⟩
  · simp only [step, hi, Option.bind_eq_bind, Option.bind_some, Child.exec, hid, hmod]
    rfl
  · show c.pc + 1 = 3
    rw [hpc]
  · show ∀ x ∈ table.entries, _
    rw [hentries]
    intro x hx
    obtain ⟨y, hy, rfl⟩ := List.mem_map.mp hx
    by_cases hyp : y.ptr = p
    · rw [if_pos hyp]
      exact ⟨fun _ => hyp, fun _ => rfl⟩
    · rw [if_neg hyp]
      exact ⟨fun heq => absurd heq (hfresh y hy), fun heq => absurd heq hyp⟩

/-- It finds its entry. -/
theorem start_spec {p : Ptr} (h : Reset par pid c) (hp : p ∈ reached par.world.table)
    (hcurrent : ∀ x ∈ c.world.table.entries, x.ptr = p → x.pid = pid) {id : Nat}
    (hid : ∀ x ∈ c.world.table.entries, x.p_thread = id ↔ x.ptr = p) (send_data : ArgsData)
    (recv_data : RetvalData) :
    ∃ t, c.start id send_data recv_data = .running p t ∧ t.pc = 0 := by
  rw [← h.same.reached] at hp
  obtain ⟨y, hy, hyp⟩ := List.mem_map.mp hp
  have hyid := (hid y ((List.takeWhile_subset _) hy)).mpr hyp
  obtain ⟨x, hx⟩ := fdtable_search_isSome (fun tmp => tmp.p_thread == id) hy
    (by simpa using hyid)
  obtain ⟨hmem, hfound⟩ := fdtable_search_mem hx
  have hxp := (hid x hmem).mp (by simpa using hfound)
  have hxpid := hcurrent x hmem hxp
  have htid : fdtable_get_by_tid c.world.table id = some x := hx
  refine ⟨⟨0, { send_data with request_type := -1 }, recv_data, false⟩, ?_, rfl⟩
  unfold Child.start
  rw [htid]
  dsimp only
  rw [if_pos (hxpid.trans h.world_pid.symm), hxp]

/-- A created thread gets past a semaphore. -/
theorem serve_sem_wait {id : Nat} {p : Ptr} {t : Ipc.Thread} {x : Ipc.Sem} (o : Outcome)
    (ht : c.thread id = some (.running p t)) (hi : Ipc.syscall_thread[t.pc]? = some (.sem_wait x))
    (hpos : 0 < c.sem p x) :
    step c (.thread id o) = some { c with
      sem := Function.update c.sem p (Ipc.down (c.sem p) x)
      message := Function.update c.message p (c.message p)
      thread := Function.update c.thread id (some (.running p { t with pc := t.pc + 1 })) } := by
  have hstep : Ipc.step (c.entry p t) (.thread o) = some { c.entry p t with
      thread := { t with pc := t.pc + 1 }, sem := Ipc.down (c.sem p) x } := by
    show ((Ipc.syscall_thread[t.pc]?).bind fun i => Ipc.threadExec (c.entry p t) o i) = _
    rw [hi]
    show Ipc.threadExec (c.entry p t) o (.sem_wait x) = _
    exact if_pos hpos
  simp only [step, ht, Child.serve, hstep]
  rfl

/-- What is left of the walk does not care about requests. -/
theorem Reset.of_full {p : Ptr} (h : Reset par pid c) (hhead : c.tmp.head? = some p)
    (hpc : c.pc = 3) (message : Ptr → ArgsData) :
    Reset par pid { c with
      sem := Function.update c.sem p (Ipc.down (c.sem p) .full)
      message } := by
  obtain ⟨done, hsplit, hdone⟩ := h.done
  have hother : ∀ q ∈ done, q ≠ p := by
    have hnodup := par.sound.nodup
    rw [hsplit] at hnodup
    intro q hq heq
    exact List.disjoint_of_nodup_append hnodup hq (heq ▸ List.mem_of_mem_head? hhead)
  refine ⟨h.lock, h.world_pid, h.same, ⟨done, hsplit, fun q hq => ⟨fun x hx => ?_, ?_⟩⟩,
    fun q hq => ⟨fun x hx => ?_, (h.current q hq).pid⟩, h.le, h.inside, h.returned⟩
  · show Function.update c.sem p _ q x = initial x
    rw [Function.update_of_ne (hother q hq)]
    exact (hdone q hq).sem x hx
  · exact (hdone q hq).pid
  · have hnone : ∀ x, .sem_init x (initial x) ∉ fdtable_forked.take 3 := by
      intro x
      cases x <;> decide
    exact absurd (hpc ▸ hx) (hnone x)

theorem Few.of_thread (h : Few c) (id : Nat) (w : Worker) :
    Few { c with thread := Function.update c.thread id (some w) } := by
  refine (h.union (Set.finite_singleton id)).subset fun id' hid' => ?_
  by_cases heq : id' = id
  · exact .inr heq
  · refine .inl ?_
    have hne : Function.update c.thread id (some w) id' ≠ none := hid'
    rwa [Function.update_of_ne heq] at hne

/-- The new thread starts and takes the request. -/
theorem take_request {p : Ptr} {id : Nat} {t : Ipc.Thread} (h : Reset par pid c) (hfew : Few c)
    (hhead : c.tmp.head? = some p) (hpc : c.pc = 3) (hfull : 0 < c.sem p .full)
    (hthread : c.thread id = some .created) (hstart : c.start id .zero .zero = .running p t)
    (ht : t.pc = 0) :
    ∃ c', Run.Reachable step Run.free c c' ∧ Reset par pid c' ∧ Few c' ∧
      ∃ t', c'.thread id = some (.running p t') ∧ t'.pc = 1 := by
  obtain ⟨c₁, hc₁⟩ : ∃ c₁, c₁ = { c with
      thread := Function.update c.thread id (some (.running p t)) } := ⟨_, rfl⟩
  have hs : step c (.start id .zero .zero) = some c₁ := by
    simp only [step, hthread, hstart, hc₁]
  have hthread₁ : c₁.thread id = some (.running p t) := by
    rw [hc₁]
    exact Function.update_self ..
  have hreset : Reset par pid c₁ := by
    rw [hc₁]
    exact h.of_thread _
  have hfew₁ : Few c₁ := by
    rw [hc₁]
    exact hfew.of_thread id _
  have hwait := serve_sem_wait ⟨0, 0⟩ hthread₁ (x := .full) (by rw [ht]; rfl)
    (by rw [hc₁]; exact hfull)
  refine ⟨_, Relation.ReflTransGen.tail (.single ⟨_, trivial, hs⟩) ⟨_, trivial, hwait⟩, ?_, ?_,
    { t with pc := t.pc + 1 }, Function.update_self .., by rw [ht]⟩
  · exact (hreset.of_full (by rw [hc₁]; exact hhead) (by rw [hc₁]; exact hpc) _).of_thread _
  · exact hfew₁.of_thread id _

/-- On its way it takes `mutex` when `fork` returns. -/
theorem disturb {p : Ptr} {id : Nat} {t : Ipc.Thread} (hret : c.Returns)
    (hquiet : Quiescent par pid c) (hp : p ∈ par.world.table.ptrs)
    (hthread : c.thread id = some (.running p t)) (ht : t.pc = 1) :
    ∃ c', Run.Reachable step Run.free c c' ∧ c'.Returns ∧ ¬ Quiescent par pid c' := by
  have hentry : ∀ c : Child Tid, Quiescent par pid c → c.sem p = initial := by
    intro c hc
    rw [← hc.same.ptrs] at hp
    obtain ⟨x, hx, rfl⟩ := FdTable.mem_ptrs.mp hp
    exact hc.sem x hx
  have hone : c.sem p .mutex = 1 := by rw [hentry c hquiet]; rfl
  have hwait := serve_sem_wait ⟨0, 0⟩ hthread (x := .mutex) (by rw [ht]; rfl) (by omega)
  refine ⟨_, .single ⟨_, trivial, hwait⟩, hret, fun hc => ?_⟩
  have hsem := congrFun (hentry _ hc) .mutex
  dsimp only at hsem
  rw [Function.update_self, Ipc.down, Function.update_self, hone] at hsem
  cases hsem

/-- **A request in flight gets through**: the new thread takes it before the
semaphores are reset, and one of the new semaphores after that. -/
theorem exists_disturbed (pid : Nat) {p : Ptr} (hp : p ∈ reached par.world.table)
    (hfull : 0 < par.sem p .full) :
    ∃ c, Runs par pid c ∧ c.Returns ∧ ¬ Quiescent par pid c := by
  have hptrs : p ∈ par.world.table.ptrs := by
    obtain ⟨x, hx, rfl⟩ := List.mem_map.mp hp
    exact List.mem_map_of_mem (List.takeWhile_subset _ hx)
  obtain ⟨c₀, hrun₀, ⟨hreset₀, hfew₀, hahead⟩, hat⟩ := main_reaches (J := Ahead p)
    (G := Creates p) (fun c e message c' hreset h hgoal hs => h.main hreset hgoal hs)
    (fun c hreset h hret => absurd h.mem (by rw [hreset.returned hret]; exact List.not_mem_nil))
    (reset_fork par pid) (few_fork par pid) ⟨hptrs, hfull, fun _ => Nat.zero_le 2⟩
  obtain ⟨id, hid⟩ := (hfew₀.union
    (c₀.world.table.entries.map (·.p_thread)).finite_toSet).exists_notMem
  have hnew : c₀.thread id = none := by
    by_contra hne
    exact hid (.inl hne)
  have hfresh : ∀ x ∈ c₀.world.table.entries, x.p_thread ≠ id := by
    rintro x hx rfl
    exact hid (.inr (List.mem_map_of_mem hx))
  obtain ⟨c₁, hs₁, htmp₁, hpc₁, hsem₁, hthread₁, hids₁⟩ := create_spec hreset₀ hat hnew hfresh
  have hreset₁ := hreset₀.main hs₁
  have hhead₁ : c₁.tmp.head? = some p := by rw [htmp₁]; exact hat.1
  have hpid₁ : ∀ x ∈ c₁.world.table.entries, x.ptr = p → x.pid = pid := by
    have hdone := hreset₁.current p hhead₁
    rw [hpc₁] at hdone
    exact hdone.pid (by decide)
  obtain ⟨t, hstart, ht⟩ := start_spec hreset₁ hp hpid₁ hids₁ .zero .zero
  obtain ⟨c₂, hrun₂, hreset₂, hfew₂, htaken⟩ := take_request hreset₁ (hfew₀.main hs₁) hhead₁ hpc₁
    (by rw [hsem₁]; exact hahead.full) hthread₁ hstart ht
  -- the main thread resets everything, then the new thread goes on
  obtain ⟨c₃, hrun₃, ⟨-, -, t', hthread₃, ht'⟩, hret₃⟩ := main_reaches
    (J := fun c => ∃ t, c.thread id = some (.running p t) ∧ t.pc = 1) (G := Child.Returns)
    (fun c e message c' _ h _ hs => by
      obtain ⟨t, hthread, ht⟩ := h
      exact ⟨t, running_main hs hthread, ht⟩)
    (fun _ _ _ hret => hret) hreset₂ hfew₂ htaken
  have hrun : Runs par pid c₃ :=
    ((hrun₀.tail ⟨_, trivial, hs₁⟩).trans hrun₂).trans hrun₃
  by_cases hquiet : Quiescent par pid c₃
  · obtain ⟨c₄, hrun₄, hret₄, hnot⟩ := disturb hret₃ hquiet hptrs hthread₃ ht'
    exact ⟨c₄, hrun.trans hrun₄, hret₄, hnot⟩
  · exact ⟨c₃, hrun, hret₃, hquiet⟩

/-- **The child starts afresh in every run if and only if the parent forked
at a good moment.** -/
theorem fork_quiescent_iff (par : Parent Tid) (pid : Nat) :
    (∀ c, Runs par pid c → c.Returns → Quiescent par pid c) ↔ GoodMoment par := by
  constructor
  · intro hall
    constructor
    · obtain ⟨c, hrun, hreset, hret⟩ := exists_returns par pid
      rw [← hreset.lock]
      exact (hall c hrun hret).lock
    · intro p hp
      by_contra hne
      obtain ⟨c, hrun, hret, hnot⟩ := exists_disturbed pid hp (Nat.pos_of_ne_zero hne)
      exact hnot (hall c hrun hret)
  · intro h c hrun hret
    exact quiescent_of_goodMoment h hrun hret

/-- While thread `true` is inside `bind` with its read hold, `false` forks:
nobody in the child will give the hold back. -/
theorem fork_inherits_lock :
    ∃ (s : Process Bool) (par : Parent Bool) (c : Child Bool),
      Run.Reachable Preload.step Run.free fdtable_init s ∧ par.world = s.shared ∧
        Runs par 2 c ∧ c.Returns ∧ ¬ Quiescent par 2 c := by
  have hrun : ((Run.exec Preload.step Run.free (fdtable_init : Process Bool)
      (.call true (.bind 5 0 0) :: List.replicate 2 (.step true {}))).map
      fun s => s.shared.lock.readers) = some [true] := by
    decide
  obtain ⟨s, hs, hreaders⟩ := Option.map_eq_some_iff.mp hrun
  have hreach := Run.reachable_of_exec hs
  obtain ⟨c, hc, hreset, hret⟩ := exists_returns
    ⟨s.shared, fun _ => initial, fun _ => .zero, sound_of_reachable hreach⟩ 2
  refine ⟨s, _, c, hreach, rfl, hc, hret, fun hquiet => ?_⟩
  have hfree := hquiet.lock.1
  rw [hreset.lock] at hfree
  rw [hfree] at hreaders
  cases hreaders

end CorePartitioning.Preload.Fork
