import CorePartitioning.Preload.ForkMoment

/-!
# fdtable.c — does a new thread find its entry?

`fdtable_forked` goes through the table from the front and overwrites the
parent's thread ids one by one, while the threads it has created already
look for theirs. Behind the walk stand ids of the parent, and the child may
have been given one of these again. The search starts at the front too, so
it comes to the new id first.
-/

namespace CorePartitioning.Preload.Fork

variable {Tid : Type} {par : Parent Tid} {pid : Nat} {c c' : Child Tid} {e : Env}
  {message : ArgsData}

/-- Every `pthread_create` of the walk gives an id. -/
def Assigns (c : Child Tid) : Label → Prop
  | .main e _ => fdtable_forked[c.pc]? = some .pthread_create → e.created = 0
  | .start .. => True
  | .thread .. => True

instance (c : Child Tid) (l : Label) : Decidable (Assigns c l) :=
  match l with
  | .main e _ =>
      inferInstanceAs (Decidable (fdtable_forked[c.pc]? = some .pthread_create → e.created = 0))
  | .start .. => inferInstanceAs (Decidable True)
  | .thread .. => inferInstanceAs (Decidable True)

/-- The entries whose thread is still to be created. -/
def ahead (c : Child Tid) : List Ptr := if c.pc ≤ 2 then c.tmp else c.tmp.tail

/-! ## One step -/

theorem create_iff {k : Nat} : fdtable_forked[k]? = some .pthread_create ↔ k = 2 :=
  getElem?_fdtable_forked_iff (by decide)

/-- The walk leaves an entry when it creates its thread. -/
theorem ahead_main (hsame : Same par.world.table c.world.table)
    (hs : step c (.main e message) = some c') :
    ahead c' = if c.pc = 2 then (ahead c).tail else ahead c := by
  have hlen : fdtable_forked.length = 11 := rfl
  rcases main_cases hs with ⟨hzero, hstop, rfl⟩ | ⟨hi, rfl⟩ | ⟨i, -, -, -, hadv⟩
  · have htmp := tmp_of_stops hsame hstop
    simp [ahead, hzero, htmp]
  · have hpc := next_iff.mp hi
    rw [if_neg (by omega)]
    unfold ahead
    rw [if_pos (Nat.zero_le 2), if_neg (by omega)]
  · unfold ahead
    rw [hadv.pc, hadv.tmp]
    by_cases htwo : c.pc = 2
    · rw [if_pos htwo, if_neg (by omega), if_pos (by omega)]
    · rw [if_neg htwo]
      by_cases hle : c.pc ≤ 2
      · rw [if_pos hle, if_pos (by omega)]
      · rw [if_neg hle, if_neg (by omega)]

/-- The main thread rewrites the entries by `f`. -/
structure Rewrites (c : Child Tid) (f : ThreadInfo → ThreadInfo) (c' : Child Tid) : Prop where
  entries : c'.world.table.entries = c.world.table.entries.map f
  ptr : ∀ x, (f x).ptr = x.ptr
  alive : ∀ id, c.thread id ≠ none → c'.thread id ≠ none

/-- `f` stores the new thread's id in the entry at `p`. -/
structure Assigned (c : Child Tid) (id : Nat) (p : Ptr) (f : ThreadInfo → ThreadInfo)
    (c' : Child Tid) : Prop where
  creates : Creates p c
  unused : c.thread id = none
  alive : c'.thread id ≠ none
  p_thread : ∀ x, (f x).p_thread = if x.ptr = p then id else x.p_thread

/-- A statement that leaves the table. -/
theorem Rewrites.of_table (htable : c'.world.table = c.world.table)
    (hthread : c'.thread = c.thread) : Rewrites c id c' where
  entries := by rw [htable, List.map_id]
  ptr _ := rfl
  alive id h := by rwa [hthread]

theorem rewrites_pthread_create (hpc : fdtable_forked[c.pc]? = some .pthread_create)
    (hcreated : e.created = 0) (h : c.exec e message .pthread_create = some c') :
    ∃ f p, Rewrites c f c' ∧ Assigned c e.thread p f c' := by
  unfold Child.exec at h
  dsimp only at h
  rw [if_pos hcreated] at h
  split at h
  · cases h
  · rename_i hnew
    obtain ⟨c₁, hmod, rfl⟩ := Option.map_eq_some_iff.mp h
    obtain ⟨p, table, hp, rfl, -, hentries⟩ := Child.modify_spec hmod fun x => ⟨rfl, rfl, rfl⟩
    refine ⟨_, p, ⟨hentries, fun x => ?_, fun id hid => ?_⟩,
      ⟨hp, create_iff.mp hpc⟩, hnew, ?_, fun x => ?_⟩
    · split
      · rfl
      · rfl
    · show Function.update c.thread e.thread (some .created) id ≠ none
      by_cases heq : id = e.thread
      · rw [heq, Function.update_self]
        simp
      · rwa [Function.update_of_ne heq]
    · show Function.update c.thread e.thread (some .created) e.thread ≠ none
      rw [Function.update_self]
      simp
    · split
      · rfl
      · rfl

/-- Only `pthread_create` stores an id. -/
theorem main_rewrites (hs : step c (.main e message) = some c') :
    ∃ f, Rewrites c f c' ∧
      ((∀ x, (f x).p_thread = x.p_thread) ∧
          (fdtable_forked[c.pc]? = some .pthread_create → e.created ≠ 0) ∨
        ∃ p, Assigned c e.thread p f c') := by
  obtain ⟨i, hi, hexec⟩ := Option.bind_eq_some_iff.mp hs
  have hother : i ≠ .pthread_create →
      fdtable_forked[c.pc]? = some .pthread_create → e.created ≠ 0 := by
    intro hne hpc
    rw [hi] at hpc
    exact absurd (Option.some.inj hpc) hne
  cases i with
  | test =>
      obtain rfl := Option.some.inj hexec
      refine ⟨id, ?_, .inl ⟨fun _ => rfl, hother (by simp)⟩⟩
      split
      · exact .of_table rfl rfl
      · exact .of_table rfl rfl
  | set_pid =>
      obtain ⟨c₁, hmod, rfl⟩ := Option.map_eq_some_iff.mp hexec
      obtain ⟨p, table, -, rfl, -, hentries⟩ := Child.modify_spec hmod fun x => ⟨rfl, rfl, rfl⟩
      refine ⟨_, ⟨hentries, fun x => ?_, fun id hid => hid⟩, .inl ⟨fun x => ?_, hother (by simp)⟩⟩
      · split
        · rfl
        · rfl
      · split
        · rfl
        · rfl
  | pthread_create =>
      by_cases hcreated : e.created = 0
      · obtain ⟨f, p, hrewrites, hassigned⟩ := rewrites_pthread_create hi hcreated hexec
        exact ⟨f, hrewrites, .inr ⟨p, hassigned⟩⟩
      · simp only [Child.exec, if_neg hcreated] at hexec
        obtain rfl := Option.some.inj hexec
        exact ⟨id, .of_table rfl rfl, .inl ⟨fun _ => rfl, fun _ => hcreated⟩⟩
  | malloc =>
      obtain ⟨p, -, rfl⟩ := Option.map_eq_some_iff.mp hexec
      exact ⟨id, .of_table rfl rfl, .inl ⟨fun _ => rfl, hother (by simp)⟩⟩
  | sem_init x value =>
      obtain ⟨p, -, rfl⟩ := Option.map_eq_some_iff.mp hexec
      exact ⟨id, .of_table rfl rfl, .inl ⟨fun _ => rfl, hother (by simp)⟩⟩
  | next =>
      obtain rfl := Option.some.inj hexec
      exact ⟨id, .of_table rfl rfl, .inl ⟨fun _ => rfl, hother (by simp)⟩⟩

theorem same_main (hs : step c (.main e message) = some c') :
    Same c.world.table c'.world.table := by
  rcases main_cases hs with ⟨-, -, rfl⟩ | ⟨-, rfl⟩ | ⟨i, -, -, -, hadv⟩
  · exact Same.refl _
  · exact Same.refl _
  · exact hadv.same

/-- The created threads do nothing to the walk, and keep their ids. -/
structure Apart (c c' : Child Tid) : Prop where
  world : c'.world = c.world
  tmp : c'.tmp = c.tmp
  pc : c'.pc = c.pc
  alive : ∀ id, c.thread id ≠ none → c'.thread id ≠ none

theorem Apart.of_thread {sem : Ptr → Ipc.Sem → Nat} {message : Ptr → ArgsData} {id : Nat}
    {w : Worker} :
    Apart c { c with sem, message, thread := Function.update c.thread id (some w) } where
  world := rfl
  tmp := rfl
  pc := rfl
  alive id' h := by
    show Function.update c.thread id (some w) id' ≠ none
    by_cases heq : id' = id
    · rw [heq, Function.update_self]
      simp
    · rwa [Function.update_of_ne heq]

theorem step_cases {l : Label} (hs : step c l = some c') :
    (∃ e message, l = .main e message) ∨ Apart c c' := by
  cases l with
  | main e message => exact .inl ⟨e, message, rfl⟩
  | start id send_data recv_data =>
      obtain ⟨-, rfl⟩ := start_of_step hs
      exact .inr .of_thread
  | thread id o =>
      obtain ⟨sock, t, -, hserve⟩ := serve_of_step hs
      obtain ⟨s, -, rfl⟩ := Option.map_eq_some_iff.mp hserve
      exact .inr .of_thread

theorem Apart.ahead (h : Apart c c') : Fork.ahead c' = Fork.ahead c := by
  unfold Fork.ahead
  rw [h.pc, h.tmp]

theorem same_step {l : Label} (hs : step c l = some c') : Same c.world.table c'.world.table := by
  rcases step_cases hs with ⟨e, message, rfl⟩ | hapart
  · exact same_main hs
  · rw [hapart.world]
    exact Same.refl _

/-! ## The walk -/

/-- All entries behind the walk have ids that the child has given out. -/
structure Numbered (par : Parent Tid) (c : Child Tid) : Prop where
  same : Same par.world.table c.world.table
  walk : c.tmp <:+ par.world.table.ptrs
  alive : ∀ x ∈ c.world.table.entries, x.ptr ∉ ahead c → c.thread x.p_thread ≠ none

theorem numbered_fork (par : Parent Tid) (pid : Nat) : Numbered par (fork par pid) where
  same := Same.refl _
  walk := List.suffix_refl _
  alive x hx hbehind := absurd (FdTable.mem_ptrs.mpr ⟨x, hx, rfl⟩) hbehind

theorem tmp_main (hs : step c (.main e message) = some c') : c'.tmp <:+ c.tmp := by
  rcases main_cases hs with ⟨-, -, rfl⟩ | ⟨-, rfl⟩ | ⟨i, -, -, -, hadv⟩
  · exact List.suffix_refl _
  · exact List.tail_suffix _
  · rw [hadv.tmp]

/-- The entry that the walk leaves has its id by then. -/
theorem Numbered.main (h : Numbered par c) (hg : Assigns c (.main e message))
    (hs : step c (.main e message) = some c') : Numbered par c' := by
  refine ⟨h.same.trans (same_main hs), (tmp_main hs).trans h.walk, fun x' hx' hbehind => ?_⟩
  obtain ⟨f, hrewrites, ⟨hkeep, hfailed⟩ | ⟨p, hassigned⟩⟩ := main_rewrites hs
  · have hpc : c.pc ≠ 2 := by
      intro hpc
      have hcreate := create_iff.mpr hpc
      exact hfailed hcreate (hg hcreate)
    rw [hrewrites.entries] at hx'
    obtain ⟨x, hx, rfl⟩ := List.mem_map.mp hx'
    rw [ahead_main h.same hs, if_neg hpc, hrewrites.ptr] at hbehind
    rw [hkeep]
    exact hrewrites.alive _ (h.alive x hx hbehind)
  · obtain ⟨hhead, hpc⟩ := hassigned.creates
    rw [hrewrites.entries] at hx'
    obtain ⟨x, hx, rfl⟩ := List.mem_map.mp hx'
    rw [hassigned.p_thread]
    split
    · exact hassigned.alive
    · rename_i hother
      refine hrewrites.alive _ (h.alive x hx ?_)
      intro hmem
      apply hbehind
      rw [ahead_main h.same hs, if_pos hpc, hrewrites.ptr]
      have htmp : ahead c = c.tmp := if_pos (by omega)
      obtain ⟨rest, hrest⟩ := List.head?_eq_some_iff.mp hhead
      rw [htmp, hrest] at hmem ⊢
      rcases List.mem_cons.mp hmem with heq | hmem
      · exact absurd heq hother
      · exact hmem

theorem Numbered.apart (h : Numbered par c) (hapart : Apart c c') : Numbered par c' where
  same := by
    rw [hapart.world]
    exact h.same
  walk := by
    rw [hapart.tmp]
    exact h.walk
  alive x hx hbehind := by
    rw [hapart.world] at hx
    rw [hapart.ahead] at hbehind
    exact hapart.alive _ (h.alive x hx hbehind)

theorem numbered_of_reachable (hc : Run.Reachable step Assigns (fork par pid) c) :
    Numbered par c := by
  apply hc.invariant (I := Numbered par) (numbered_fork par pid)
  intro c l c' h hg hs
  rcases step_cases hs with ⟨e, message, rfl⟩ | hapart
  · exact h.main hg hs
  · exact h.apart hapart

/-! ## The search -/

/-- The first entry with the thread's id is the one at `p`, and the walk does
not come back to it. -/
structure Found (p : Ptr) (id : Nat) (c : Child Tid) : Prop where
  first : ∃ front x back, c.world.table.entries = front ++ x :: back ∧ x.ptr = p ∧
    x.p_thread = id ∧ ∀ y ∈ front, y.p_thread ≠ id
  behind : p ∉ ahead c
  alive : c.thread id ≠ none

/-- The id is new, and everything in front of the entry has another that is
in use. -/
theorem Numbered.found (h : Numbered par c) {p : Ptr} (hat : Creates p c) (hcreated : e.created = 0)
    (hs : step c (.main e message) = some c') : Found p e.thread c' := by
  obtain ⟨hhead, hpc⟩ := hat
  obtain ⟨f, hrewrites, ⟨-, hfailed⟩ | ⟨q, hassigned⟩⟩ := main_rewrites hs
  · exact absurd hcreated (hfailed (create_iff.mpr hpc))
  · obtain rfl : q = p := Option.some.inj (hassigned.creates.1.symm.trans hhead)
    obtain ⟨rest, htmp⟩ := List.head?_eq_some_iff.mp hhead
    obtain ⟨done, hsplit⟩ := h.walk
    have hahead : ahead c = c.tmp := if_pos (by omega)
    have hnodup : (done ++ c.tmp).Nodup := by
      rw [hsplit]
      exact par.sound.nodup
    have hptrs : c.world.table.entries.map (·.ptr) = done ++ q :: rest := by
      rw [← htmp, hsplit]
      exact h.same.ptrs
    obtain ⟨front, tail, hentries, rfl, htail⟩ := List.map_eq_append_iff.mp hptrs
    obtain ⟨x, back, rfl, hxq, -⟩ := List.map_eq_cons_iff.mp htail
    refine ⟨⟨front.map f, f x, back.map f, ?_, ?_, ?_, ?_⟩, ?_, hassigned.alive⟩
    · rw [hrewrites.entries, hentries, List.map_append, List.map_cons]
    · rw [hrewrites.ptr]
      exact hxq
    · rw [hassigned.p_thread, if_pos hxq]
    · intro y' hy'
      obtain ⟨y, hy, rfl⟩ := List.mem_map.mp hy'
      have hbehind : y.ptr ∉ c.tmp :=
        List.disjoint_of_nodup_append hnodup (List.mem_map_of_mem hy)
      have hyq : y.ptr ≠ q := by
        intro heq
        exact hbehind (heq ▸ List.mem_of_mem_head? hhead)
      rw [hassigned.p_thread, if_neg hyq]
      intro heq
      have hused := h.alive y (by rw [hentries]; exact List.mem_append_left _ hy)
        (by rw [hahead]; exact hbehind)
      rw [heq] at hused
      exact hused hassigned.unused
    · rw [ahead_main h.same hs, if_pos hpc, hahead, htmp, List.tail_cons]
      rw [htmp] at hnodup
      exact (List.nodup_cons.mp (List.Nodup.of_append_right hnodup)).1

/-- A later id is another one, and is stored in another entry. -/
theorem Found.main {p : Ptr} {id : Nat} (h : Found p id c)
    (hsame : Same par.world.table c.world.table) (hs : step c (.main e message) = some c') :
    Found p id c' := by
  obtain ⟨front, x, back, hentries, hxp, hxid, hfront⟩ := h.first
  obtain ⟨f, hrewrites, hwrite⟩ := main_rewrites hs
  have hids : (f x).p_thread = id ∧ ∀ y ∈ front, (f y).p_thread ≠ id := by
    rcases hwrite with ⟨hkeep, -⟩ | ⟨q, hassigned⟩
    · refine ⟨(hkeep x).trans hxid, fun y hy => ?_⟩
      rw [hkeep]
      exact hfront y hy
    · obtain ⟨hhead, hpc⟩ := hassigned.creates
      have hpq : p ≠ q := by
        rintro rfl
        have hahead : ahead c = c.tmp := if_pos (by omega)
        exact h.behind (hahead ▸ List.mem_of_mem_head? hhead)
      have hother : e.thread ≠ id := by
        rintro rfl
        exact h.alive hassigned.unused
      rw [hassigned.p_thread, hxp, if_neg hpq]
      refine ⟨hxid, fun y hy => ?_⟩
      rw [hassigned.p_thread]
      split
      · exact hother
      · exact hfront y hy
  refine ⟨⟨front.map f, f x, back.map f, ?_, (hrewrites.ptr x).trans hxp, hids.1, ?_⟩, ?_,
    hrewrites.alive id h.alive⟩
  · rw [hrewrites.entries, hentries, List.map_append, List.map_cons]
  · intro y' hy'
    obtain ⟨y, hy, rfl⟩ := List.mem_map.mp hy'
    exact hids.2 y hy
  · rw [ahead_main hsame hs]
    split
    · exact fun hmem => h.behind (List.mem_of_mem_tail hmem)
    · exact h.behind

theorem Found.apart {p : Ptr} {id : Nat} (h : Found p id c) (hapart : Apart c c') :
    Found p id c' where
  first := by
    rw [hapart.world]
    exact h.first
  behind := by
    rw [hapart.ahead]
    exact h.behind
  alive := hapart.alive id h.alive

theorem found_of_reachable {p : Ptr} {id : Nat} (hc : Run.Reachable step Run.free c c')
    (hsame : Same par.world.table c.world.table) (h : Found p id c) :
    Same par.world.table c'.world.table ∧ Found p id c' := by
  apply hc.invariant (I := fun c => Same par.world.table c.world.table ∧ Found p id c) ⟨hsame, h⟩
  rintro c l c' ⟨hsame, h⟩ - hs
  refine ⟨hsame.trans (same_step hs), ?_⟩
  rcases step_cases hs with ⟨e, message, rfl⟩ | hapart
  · exact h.main hsame hs
  · exact h.apart hapart

/-- The search comes to it first. -/
theorem Found.search {p : Ptr} {id : Nat} (h : Found p id c) (hpass : Passable c.world.table) :
    ∃ x, fdtable_get_by_tid c.world.table id = some x ∧ x.ptr = p := by
  obtain ⟨front, x, back, hentries, hxp, hxid, hfront⟩ := h.first
  refine ⟨x, ?_, hxp⟩
  unfold fdtable_get_by_tid
  rw [fdtable_search_eq_find? hpass, List.find?_eq_some_iff_append]
  refine ⟨by simpa using hxid, front, back, hentries, fun y hy => ?_⟩
  simpa using hfront y hy

theorem passable_of_same (hzero : ∀ x ∈ par.world.table.entries, x.thr_fd ≠ 0)
    (hsame : Same par.world.table c.world.table) : Passable c.world.table := by
  intro x' hx'
  obtain ⟨x, hx, hfd⟩ := hsame.thr_fd hx'
  rw [← hfd]
  refine ⟨fun htail => ?_, hzero x hx⟩
  rcases par.sound.thr_fd x hx with hnew | hnonneg
  · rw [htail] at hnew
    cases hnew
  · rw [htail] at hnonneg
    exact absurd hnonneg (by decide)

/-- **Every new thread finds the entry it was created for**, from the moment
its id is stored on and whatever ids the parent has left in the table. -/
theorem thread_finds_own_entry {c₁ c₂ : Child Tid} {p : Ptr}
    (hzero : ∀ x ∈ par.world.table.entries, x.thr_fd ≠ 0)
    (hc : Run.Reachable step Assigns (fork par pid) c) (hat : Creates p c)
    (hcreated : e.created = 0) (hs : step c (.main e message) = some c₁)
    (hc₂ : Run.Reachable step Run.free c₁ c₂) :
    ∃ x, fdtable_get_by_tid c₂.world.table e.thread = some x ∧ x.ptr = p := by
  have hnum := numbered_of_reachable hc
  obtain ⟨hsame, hfound⟩ := found_of_reachable hc₂ (hnum.same.trans (same_main hs))
    (hnum.found hat hcreated hs)
  exact hfound.search (passable_of_same hzero hsame)

/-- A parent with the descriptors 7 and 5, whose threads are 20 and 10. -/
def twoEntries : Parent Bool where
  world := { table := { entries := [⟨2, 20, 7, 1, false⟩, ⟨1, 10, 5, 1, false⟩], nextPtr := 3 } }
  sem _ := initial
  message _ := .zero
  sound := ⟨⟨by decide, by decide⟩, by decide⟩

/-- The child's first thread gets the id 10 again. -/
theorem thread_finds_own_entry_reused :
    ∃ c₁ : Child Bool, Runs twoEntries 2 c₁ ∧
      c₁.world.table.entries.map (fun x => (x.ptr, x.p_thread)) = [(2, 10), (1, 10)] ∧
      ∃ x, fdtable_get_by_tid c₁.world.table 10 = some x ∧ x.ptr = 2 := by
  have hrun : ((Run.exec step Assigns (fork twoEntries 2)
      (List.replicate 2 (.main {} .zero))).map fun c =>
        (c.tmp.head?, c.pc, (step c (.main { thread := 10 } .zero)).map fun c₁ =>
          c₁.world.table.entries.map fun x => (x.ptr, x.p_thread)))
      = some (some 2, 2, some [(2, 10), (1, 10)]) := by
    decide
  obtain ⟨c, hc, hproj⟩ := Option.map_eq_some_iff.mp hrun
  simp only [Prod.mk.injEq] at hproj
  obtain ⟨hhead, hpc, hstep⟩ := hproj
  obtain ⟨c₁, hs, hids⟩ := Option.map_eq_some_iff.mp hstep
  have hreach := Run.reachable_of_exec hc
  have hruns : Runs twoEntries 2 c := by
    apply hreach.invariant (I := Runs twoEntries 2) Relation.ReflTransGen.refl
    intro c l c' h _ hl
    exact h.tail ⟨l, trivial, hl⟩
  exact ⟨c₁, hruns.tail ⟨_, trivial, hs⟩, hids,
    thread_finds_own_entry (by decide) hreach ⟨hhead, hpc⟩ rfl hs Relation.ReflTransGen.refl⟩

end CorePartitioning.Preload.Fork
