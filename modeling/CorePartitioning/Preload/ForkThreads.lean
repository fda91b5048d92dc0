import CorePartitioning.Preload.ForkIdentify

/-!
# ld_preload.c — the threads of a child that starts afresh

When the parent forks at a good moment and the child gets the threads it
asks for, the walk of `fdtable_forked` leaves behind entries whose threads
are there: each has an id of its own, finds its own entry by it, and has
not passed its first statement, so that no request is lost and none of the
parent's is answered.
-/

namespace CorePartitioning.Preload.Fork

variable {Tid : Type} {par : Parent Tid} {pid : Nat} {c c' : Child Tid} {e : Env}
  {message : ArgsData}

/-- Every `pthread_create` of the walk gives an id, and 0 is none. -/
def Supplied (c : Child Tid) : Label → Prop
  | .main e _ => fdtable_forked[c.pc]? = some .pthread_create → e.created = 0 ∧ e.thread ≠ 0
  | .start .. => True
  | .thread .. => True

instance (c : Child Tid) (l : Label) : Decidable (Supplied c l) :=
  match l with
  | .main e _ =>
      inferInstanceAs (Decidable (fdtable_forked[c.pc]? = some .pthread_create →
        e.created = 0 ∧ e.thread ≠ 0))
  | .start .. => inferInstanceAs (Decidable True)
  | .thread .. => inferInstanceAs (Decidable True)

/-- The thread of the entry at `p` looks for its entry, or waits for its
first request. -/
inductive AtStart (p : Ptr) : Option Worker → Prop
  | created : AtStart p (some .created)
  | running {t : Ipc.Thread} (hpc : t.pc = 0) : AtStart p (some (.running p t))

/-- The entries behind the walk have their threads. -/
structure Staffed (c : Child Tid) : Prop where
  found : ∀ x ∈ c.world.table.entries, x.ptr ∉ ahead c → Found x.ptr x.p_thread c
  atStart : ∀ x ∈ c.world.table.entries, x.ptr ∉ ahead c → AtStart x.ptr (c.thread x.p_thread)
  nonzero : ∀ x ∈ c.world.table.entries, x.ptr ∉ ahead c → x.p_thread ≠ 0

/-- The walk takes no address, and starts at most the thread it creates. -/
theorem main_threads (hs : step c (.main e message) = some c') :
    c'.world.table.nextPtr = c.world.table.nextPtr ∧
      (c'.thread = c.thread ∨
        c.pc = 2 ∧ c.thread e.thread = none ∧
          c'.thread = Function.update c.thread e.thread (some .created)) := by
  obtain ⟨i, hi, hexec⟩ := Option.bind_eq_some_iff.mp hs
  have hmodify : ∀ {f : ThreadInfo → ThreadInfo} {c₁ : Child Tid}, c.modify f = some c₁ →
      c₁.world.table.nextPtr = c.world.table.nextPtr ∧ c₁.thread = c.thread := by
    intro f c₁ hmod
    obtain ⟨table, htable, rfl⟩ := Option.map_eq_some_iff.mp hmod
    obtain ⟨p, -, -, rfl⟩ := FdTable.modify_eq_some htable
    exact ⟨rfl, rfl⟩
  cases i with
  | test =>
      obtain rfl := Option.some.inj hexec
      split
      · exact ⟨rfl, .inl rfl⟩
      · exact ⟨rfl, .inl rfl⟩
  | set_pid =>
      obtain ⟨c₁, hmod, rfl⟩ := Option.map_eq_some_iff.mp hexec
      obtain ⟨hnext, hthread⟩ := hmodify hmod
      exact ⟨hnext, .inl hthread⟩
  | pthread_create =>
      unfold Child.exec at hexec
      dsimp only at hexec
      split at hexec
      · split at hexec
        · cases hexec
        · rename_i hunused
          obtain ⟨c₁, hmod, rfl⟩ := Option.map_eq_some_iff.mp hexec
          exact ⟨(hmodify hmod).1, .inr ⟨create_iff.mp hi, hunused, rfl⟩⟩
      · obtain rfl := Option.some.inj hexec
        exact ⟨rfl, .inl rfl⟩
  | malloc | sem_init x v =>
      obtain ⟨p, -, rfl⟩ := Option.map_eq_some_iff.mp hexec
      exact ⟨rfl, .inl rfl⟩
  | next =>
      obtain rfl := Option.some.inj hexec
      exact ⟨rfl, .inl rfl⟩

/-- The entries behind the walk have the child's id. -/
theorem Reset.pid_behind (h : Reset par pid c) {x : ThreadInfo} (hx : x ∈ c.world.table.entries)
    (hbehind : x.ptr ∉ ahead c) : x.pid = pid := by
  obtain ⟨done, hsplit, hdone⟩ := h.done
  have hmem : x.ptr ∈ done ++ c.tmp := by
    rw [← hsplit, ← h.same.ptrs]
    exact FdTable.mem_ptrs.mpr ⟨x, hx, rfl⟩
  rcases List.mem_append.mp hmem with hpast | htmp
  · exact (hdone x.ptr hpast).pid (by decide) x hx rfl
  · -- the walk is at the entry, and past its `pthread_create`
    unfold ahead at hbehind
    split at hbehind
    · exact absurd htmp hbehind
    · rename_i hpc
      cases hlist : c.tmp with
      | nil =>
          rw [hlist] at htmp
          cases htmp
      | cons q rest =>
          rw [hlist] at htmp hbehind
          have hq : x.ptr = q := by
            rcases List.mem_cons.mp htmp with heq | hrest
            · exact heq
            · exact absurd hrest hbehind
          have hcurrent := h.current q (by rw [hlist]; rfl)
          apply hcurrent.pid _ x hx hq
          have hprefix : fdtable_forked.take 2 ⊆ fdtable_forked.take c.pc :=
            (List.take_prefix_take_left (by omega)).subset
          exact hprefix (by decide)

theorem Staffed.main (h : Staffed c) (hnum : Numbered par c) (hg : Supplied c (.main e message))
    (hs : step c (.main e message) = some c') : Staffed c' := by
  obtain ⟨f, hrewrites, hids⟩ := main_rewrites hs
  have hthread := (main_threads hs).2
  have hahead := ahead_main hnum.same hs
  rcases hids with ⟨hkeep, hfailed⟩ | ⟨p, hassigned⟩
  · -- no thread is created
    have hpc : c.pc ≠ 2 := by
      intro hpc
      have hi := create_iff.mpr hpc
      exact hfailed hi (hg hi).1
    have hsame : c'.thread = c.thread := by
      rcases hthread with hsame | ⟨htwo, -⟩
      · exact hsame
      · exact absurd htwo hpc
    rw [if_neg hpc] at hahead
    have hold : ∀ x' ∈ c'.world.table.entries, x'.ptr ∉ ahead c' →
        ∃ x ∈ c.world.table.entries, x.ptr ∉ ahead c ∧ x'.ptr = x.ptr ∧
          x'.p_thread = x.p_thread := by
      intro x' hx' hbehind
      rw [hrewrites.entries] at hx'
      obtain ⟨x, hx, rfl⟩ := List.mem_map.mp hx'
      rw [hahead, hrewrites.ptr] at hbehind
      exact ⟨x, hx, hbehind, hrewrites.ptr x, hkeep x⟩
    constructor
    · intro x' hx' hbehind
      obtain ⟨x, hx, hb, hptr, hid⟩ := hold x' hx' hbehind
      rw [hptr, hid]
      exact (h.found x hx hb).main hnum.same hs
    · intro x' hx' hbehind
      obtain ⟨x, hx, hb, hptr, hid⟩ := hold x' hx' hbehind
      rw [hptr, hid, hsame]
      exact h.atStart x hx hb
    · intro x' hx' hbehind
      obtain ⟨x, hx, hb, -, hid⟩ := hold x' hx' hbehind
      rw [hid]
      exact h.nonzero x hx hb
  · -- the entry at `p` gets its thread
    obtain ⟨hhead, hpc⟩ := hassigned.creates
    obtain ⟨hcreated, hnonzero⟩ := hg (create_iff.mpr hpc)
    have hunused := hassigned.unused
    have hnew : c'.thread = Function.update c.thread e.thread (some .created) := by
      rcases hthread with hsame | ⟨-, -, hnew⟩
      · have halive := hassigned.alive
        rw [hsame] at halive
        exact absurd hunused halive
      · exact hnew
    have hcases : ∀ x' ∈ c'.world.table.entries, x'.ptr ∉ ahead c' →
        (x'.ptr = p ∧ x'.p_thread = e.thread) ∨
          ∃ x ∈ c.world.table.entries, x.ptr ∉ ahead c ∧ x'.ptr = x.ptr ∧
            x'.p_thread = x.p_thread := by
      intro x' hx' hbehind
      rw [hrewrites.entries] at hx'
      obtain ⟨x, hx, rfl⟩ := List.mem_map.mp hx'
      rw [hrewrites.ptr] at hbehind ⊢
      rw [hassigned.p_thread]
      by_cases hp : x.ptr = p
      · rw [if_pos hp]
        exact .inl ⟨hp, rfl⟩
      · rw [if_neg hp]
        refine .inr ⟨x, hx, fun hmem => hbehind ?_, rfl, rfl⟩
        have htmp : ahead c = c.tmp := if_pos (by omega)
        obtain ⟨rest, hrest⟩ := List.head?_eq_some_iff.mp hhead
        rw [hahead, if_pos hpc, htmp, hrest]
        rw [htmp, hrest] at hmem
        rcases List.mem_cons.mp hmem with heq | hmem
        · exact absurd heq hp
        · exact hmem
    have hother : ∀ x ∈ c.world.table.entries, x.ptr ∉ ahead c → x.p_thread ≠ e.thread := by
      intro x hx hb heq
      have halive := (h.found x hx hb).alive
      rw [heq] at halive
      exact halive hunused
    constructor
    · intro x' hx' hbehind
      rcases hcases x' hx' hbehind with ⟨hptr, hid⟩ | ⟨x, hx, hb, hptr, hid⟩
      · rw [hptr, hid]
        exact hnum.found ⟨hhead, hpc⟩ hcreated hs
      · rw [hptr, hid]
        exact (h.found x hx hb).main hnum.same hs
    · intro x' hx' hbehind
      rcases hcases x' hx' hbehind with ⟨hptr, hid⟩ | ⟨x, hx, hb, hptr, hid⟩
      · rw [hid, hnew, Function.update_self]
        exact .created
      · rw [hptr, hid, hnew, Function.update_of_ne (hother x hx hb)]
        exact h.atStart x hx hb
    · intro x' hx' hbehind
      rcases hcases x' hx' hbehind with ⟨-, hid⟩ | ⟨x, hx, hb, -, hid⟩
      · rw [hid]
        exact hnonzero
      · rw [hid]
        exact h.nonzero x hx hb

/-! ## The threads -/

/-- A thread that starts comes to its own entry. -/
theorem Staffed.start (h : Staffed c) (hreset : Reset par pid c)
    (hpass : Passable c.world.table) {id : Nat} (send_data : ArgsData) (recv_data : RetvalData) :
    Staffed { c with
      thread := Function.update c.thread id (some (c.start id send_data recv_data)) } := by
  have hfound : ∀ x ∈ c.world.table.entries, x.ptr ∉ ahead c → Found x.ptr x.p_thread
      { c with thread := Function.update c.thread id (some (c.start id send_data recv_data)) } :=
    fun x hx hb => (h.found x hx hb).apart .of_thread
  refine ⟨hfound, fun x hx hb => ?_, h.nonzero⟩
  show AtStart x.ptr (Function.update c.thread id _ x.p_thread)
  by_cases hid : x.p_thread = id
  · obtain ⟨y, hy, hyp⟩ := (h.found x hx hb).search hpass
    have hmem := (fdtable_search_mem hy).1
    have hypid : y.pid = c.world.pid := by
      rw [hreset.world_pid]
      exact hreset.pid_behind hmem (by rw [hyp]; exact hb)
    rw [hid] at hy ⊢
    rw [Function.update_self, Child.start, hy]
    dsimp only
    rw [if_pos hypid, hyp]
    exact .running rfl
  · rw [Function.update_of_ne hid]
    exact h.atStart x hx hb

/-! ## The child when `fork` returns -/

/-- All that the walk has done. -/
structure Afresh (par : Parent Tid) (pid : Nat) (c : Child Tid) : Prop where
  reset : Reset par pid c
  waiting : Waiting par c
  numbered : Numbered par c
  staffed : Staffed c
  nextPtr : c.world.table.nextPtr = par.world.table.nextPtr

/-- No entry is left to do. -/
theorem Afresh.ahead_eq_nil (h : Afresh par pid c) (hret : c.Returns) : ahead c = [] := by
  have htmp := h.reset.returned hret
  unfold ahead
  rw [htmp]
  split
  · rfl
  · rfl

theorem Afresh.behind (h : Afresh par pid c) (hret : c.Returns) (p : Ptr) : p ∉ ahead c := by
  rw [h.ahead_eq_nil hret]
  exact List.not_mem_nil

/-- Different entries have threads with different ids. -/
theorem Afresh.inj (h : Afresh par pid c) (hret : c.Returns) (hpass : Passable c.world.table)
    {x y : ThreadInfo} (hx : x ∈ c.world.table.entries) (hy : y ∈ c.world.table.entries)
    (heq : x.p_thread = y.p_thread) : x.ptr = y.ptr := by
  obtain ⟨z, hz, hzx⟩ := (h.staffed.found x hx (h.behind hret _)).search hpass
  obtain ⟨z', hz', hzy⟩ := (h.staffed.found y hy (h.behind hret _)).search hpass
  rw [← heq, hz, Option.some_inj] at hz'
  rw [← hzx, ← hzy, hz']

end CorePartitioning.Preload.Fork
