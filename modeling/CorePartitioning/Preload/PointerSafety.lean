import CorePartitioning.Preload.Endings
import CorePartitioning.Preload.ValidPointers

/-!
# ld_preload.c — entries are not used after they are freed

An entry is freed under the write hold, after its thread has been joined. A
wrapper uses an entry it has found or added since it took the lock, so
nobody else's deletion comes in between; and an entry's thread uses its own
entry until it leaves its loop. So in every interleaving whoever is about to
use an entry uses one of the table. Besides the lock this rests on `calloc`:
no wrapper looks at what it returned.
-/

namespace CorePartitioning.Preload

/-- The pointer an operation follows. -/
def Op.uses : Op → Option (Option Ptr)
  | .CPART_send_to_thread _ p | .CPART_recv_from_thread p | .pthread_join p => some (some p)
  | o => o.target

/-- Who has joined a thread joined it before, or does so now. -/
theorem Ann.joined_prev {h : Ann} {o : Op} {r : o.Res} (hj : (h.next o r).talk = .joined) :
    h.talk = .joined ∨ ∃ p, o = .pthread_join p := by
  cases o with
  | errno | set_errno | set_NetorFile | set_pid | fdtable_getnumber | fdtable_add | set_thr_fd
  | pthread_create | original => exact .inl hj
  | pthread_join p => exact .inr ⟨p, rfl⟩
  | pthread_rwlock x =>
      cases x with
      | rdlock | wrlock => exact .inl hj
      | unlock => cases hj
  | fdtable_get_by_fd fd k => cases r <;> cases hj
  | fdtable_get_by_fd_all fd =>
      have htalk : (h.lookupAll fd r).talk = .joined := hj
      obtain ⟨p, -, -, heq⟩ | ⟨p, -, -, heq⟩ | ⟨-, heq⟩ := h.lookupAll_cases fd r
      all_goals
        rw [heq] at htalk
        cases htalk
  | fdtable_delete | CPART_send_to_thread | CPART_recv_from_thread => cases hj

namespace Machine

variable {Tid : Type} [DecidableEq Tid] {m m' : Machine Tid} {t : Tid}

/-! ## Pointers that have been seen -/

/-- A thread knows whether it holds the lock, and what it has seen since it
took the lock is in the table. -/
structure SeenValid (tbl : FdTable) (ann : Tid → Ann × Seen) : Prop where
  held : ∀ t, (ann t).2.held = true ↔ (ann t).1.mode ≠ .none
  ptrs : ∀ t, ∀ p ∈ (ann t).2.ptrs, p ∈ tbl.ptrs ∧ (ann t).1.mode ≠ .none

omit [DecidableEq Tid] in
/-- Only a deletion takes a pointer out of the table. -/
theorem ptrs_stay {tbl tbl' : FdTable} {e : Env} {pid : Nat} {o : Op} {r : o.Res}
    (h : tbl.Change e pid o r tbl') (ho : ∀ fd, o ≠ .fdtable_delete fd) {p : Ptr}
    (hp : p ∈ tbl.ptrs) : p ∈ tbl'.ptrs := by
  obtain ⟨-, rfl⟩ | ⟨fd, rfl, -⟩ | ⟨hptrs, -⟩ := h.ptrs_cases
  · exact List.mem_cons_of_mem _ hp
  · exact absurd rfl (ho fd)
  · rwa [hptrs]

omit [DecidableEq Tid] in
/-- A thread keeps the lock until it unlocks. -/
theorem mode_stays {h : Ann} (hm : h.mode ≠ .none) {o : Op} (ho : o ≠ .pthread_rwlock .unlock)
    (r : o.Res) : (h.next o r).mode ≠ .none := by
  by_cases hlock : ∃ x, o = .pthread_rwlock x
  · obtain ⟨x, rfl⟩ := hlock
    cases x with
    | rdlock | wrlock => nofun
    | unlock => exact absurd rfl ho
  · rwa [Ann.next_mode fun x hx => hlock ⟨x, hx⟩]

/-- A pointer that has been seen after an operation was seen before, or has
just been found or added. -/
theorem seen_of_sem {w w' : World Tid} {e : Env} {o : Op} {r : o.Res}
    (ho : Preload.sem t e w o = some (r, w')) {h : Ann} (hp : h.pre o) {seen : Seen} {p : Ptr}
    (hmem : p ∈ (seen.next o r).ptrs) :
    o ≠ .pthread_rwlock .unlock ∧ (∀ fd, o ≠ .fdtable_delete fd) ∧
      (p ∈ seen.ptrs ∨ h.mode ≠ .none ∧ p ∈ w'.table.ptrs) := by
  have hfound : ∀ {x : Option ThreadInfo}, (∀ y, x = some y → y ∈ w.table.entries) →
      p ∈ (x.map (·.ptr)).toList ++ seen.ptrs → p ∈ seen.ptrs ∨ p ∈ w.table.ptrs := by
    intro x hx hmem
    rcases List.mem_append.mp hmem with hmem | hmem
    · obtain ⟨y, hy, rfl⟩ := Option.map_eq_some_iff.mp (Option.mem_toList.mp hmem)
      exact .inr (FdTable.mem_ptrs.mpr ⟨y, hx y hy, rfl⟩)
    · exact .inl hmem
  cases o with
  | fdtable_get_by_fd_all fd =>
      cases ho
      refine ⟨nofun, nofun, (hfound ?_ hmem).imp_right fun h => ⟨Ann.MayLookup.mode hp, h⟩⟩
      exact fun y hy => (fdtable_search_mem hy).1
  | fdtable_get_by_fd fd k =>
      cases ho
      refine ⟨nofun, nofun, (hfound ?_ hmem).imp_right fun h => ⟨hp.1.mode, h⟩⟩
      exact fun y hy => (fdtable_search_mem hy).1
  | fdtable_add =>
      refine ⟨nofun, nofun, ?_⟩
      have hchange := sem_change ho
      generalize w'.table = tbl at hchange
      cases hchange with
      | keep hm => cases hm
      | write hw => cases hw
      | add_fails => exact .inl hmem
      | add =>
          rcases List.mem_cons.mp hmem with rfl | hmem
          · exact .inr ⟨hp.mode, List.mem_cons_self⟩
          · exact .inl hmem
  | fdtable_delete fd => cases hmem
  | pthread_rwlock x =>
      cases x with
      | unlock => cases hmem
      | rdlock | wrlock => exact ⟨nofun, nofun, .inl hmem⟩
  | _ => exact ⟨nofun, nofun, .inl hmem⟩

omit [DecidableEq Tid] in
/-- Both annotations follow the lock. -/
theorem held_next {h : Ann} {s : Seen} (hs : s.held = true ↔ h.mode ≠ .none) (o : Op) (r : o.Res) :
    (s.next o r).held = true ↔ (h.next o r).mode ≠ .none := by
  by_cases hlock : ∃ x, o = .pthread_rwlock x
  · obtain ⟨x, rfl⟩ := hlock
    cases x with
    | rdlock | wrlock => exact iff_of_true rfl nofun
    | unlock => exact iff_of_false nofun fun h => h rfl
  · rw [Ann.next_mode fun x hx => hlock ⟨x, hx⟩, ← hs]
    cases o with
    | pthread_rwlock x => exact absurd ⟨x, rfl⟩ hlock
    | _ => exact Iff.rfl

theorem SeenValid.sem {w w' : World Tid} {ann : Tid → Ann × Seen} (hs : SeenValid w.table ann)
    (hh : Held w.lock fun t => (ann t).1) {e : Env} {o : Op} {r : o.Res} (hp : (ann t).1.pre o)
    (ho : Preload.sem t e w o = some (r, w')) :
    SeenValid w'.table
      (Function.update ann t ((ann t).1.next o r, (ann t).2.next o r)) where
  held u := by
    by_cases hut : u = t
    · subst hut
      rw [Function.update_self]
      exact held_next (hs.held u) o r
    · rw [Function.update_of_ne hut]
      exact hs.held u
  ptrs u p hmem := by
    by_cases hut : u = t
    · subst hut
      rw [Function.update_self] at hmem ⊢
      obtain ⟨hunlock, hdelete, hold | ⟨hmode, hnew⟩⟩ := seen_of_sem ho hp hmem
      · obtain ⟨hptr, hmode⟩ := hs.ptrs u p hold
        exact ⟨ptrs_stay (sem_change ho) hdelete hptr, mode_stays hmode hunlock r⟩
      · exact ⟨hnew, mode_stays hmode hunlock r⟩
    · rw [Function.update_of_ne hut] at hmem ⊢
      obtain ⟨hptr, hmode⟩ := hs.ptrs u p hmem
      refine ⟨ptrs_stay (sem_change ho) ?_ hptr, hmode⟩
      rintro fd rfl
      -- the deleting thread holds the lock alone
      obtain ⟨-, -, -, hwrite⟩ := hp
      exact hmode (hh.alone hwrite hut).1

omit [DecidableEq Tid] in
/-- A thread that has seen nothing. -/
theorem SeenValid.update [DecidableEq Tid] {tbl : FdTable} {ann : Tid → Ann × Seen}
    (hs : SeenValid tbl ann) {h : Ann} (hm : h.mode = .none) :
    SeenValid tbl (Function.update ann t (h, {})) where
  held u := by
    by_cases hut : u = t
    · rw [hut, Function.update_self]
      exact iff_of_false nofun fun hne => hne hm
    · rw [Function.update_of_ne hut]
      exact hs.held u
  ptrs u p hmem := by
    by_cases hut : u = t
    · rw [hut, Function.update_self] at hmem
      cases hmem
    · rw [Function.update_of_ne hut] at hmem ⊢
      exact hs.ptrs u p hmem

theorem fst_update (ann : Tid → Ann × Seen) (t : Tid) (h : Ann) (seen : Seen) :
    (fun u => (Function.update ann t (h, seen) u).1) =
      Function.update (fun u => (ann u).1) t h := by
  funext u
  by_cases hut : u = t
  · rw [hut, Function.update_self, Function.update_self]
  · rw [Function.update_of_ne hut, Function.update_of_ne hut]

/-! ## The invariant -/

/-- Entries that are used are in the table. -/
structure Anchored (m : Machine Tid) (ann : Tid → Ann × Seen) : Prop where
  tended : Tended m fun t => (ann t).1
  seen : SeenValid m.world.table ann
  joined : ∀ t p, (ann t).1.Ends p → (ann t).1.talk = .joined → (m.channel p).life = .left
  live : ∀ p, (m.channel p).life = .created ∨ (m.channel p).life = .running →
    p ∈ m.world.table.ptrs

/-- The entry that is deleted is the one whose thread has been joined. -/
theorem ptrs_of_delete {ann : Tid → Ann} (hk : Kept m.world.table ann) {e : Env} {fd : CInt}
    {r : CInt} (hp : (ann t).pre (.fdtable_delete fd))
    (ho : m.sem t e (.fdtable_delete fd) = some (r, m')) {p : Ptr}
    (hmem : p ∈ m.world.table.ptrs) :
    p ∈ m'.world.table.ptrs ∨ (ann t).Ends p ∧ (ann t).talk = .joined := by
  obtain ⟨q, hentry, hjoined, hmode⟩ := hp
  obtain ⟨x, hx, rfl⟩ := hk.writer t q fd hmode hentry
  obtain ⟨hw, -⟩ := sem_plain rfl ho
  have htable : m'.world.table = (fdtable_delete m.world.table fd).2 := by
    rw [← (Prod.mk.inj (Option.some.inj hw)).2]
    rfl
  by_cases hpx : p = x.ptr
  · subst hpx
    exact .inr ⟨⟨hmode, ⟨fd, hentry⟩, by rw [hjoined]; nofun⟩, hjoined⟩
  · rw [htable, hk.toAddressed.delete hx]
    exact .inl ⟨hmem, hpx⟩

omit [DecidableEq Tid] in
/-- A thread that has left does nothing more, and no other begins. -/
theorem Serves.live {b : ThreadStep} (h : m.Serves b m') (q : Ptr) :
    ((m.channel q).life = .left → (m'.channel q).life = .left) ∧
      ((m'.channel q).life = .created ∨ (m'.channel q).life = .running →
        (m.channel q).life = .created ∨ (m.channel q).life = .running) := by
  have hset : ∀ {p : Ptr} {ch : Channel Tid},
      (m.channel p).life = .created ∨ (m.channel p).life = .running →
      ((m.channel q).life = .left → ((m.set p ch).channel q).life = .left) ∧
        (((m.set p ch).channel q).life = .created ∨ ((m.set p ch).channel q).life = .running →
          (m.channel q).life = .created ∨ (m.channel q).life = .running) := by
    intro p ch hp
    by_cases hqp : q = p
    · subst hqp
      refine ⟨fun hleft => ?_, fun _ => hp⟩
      rw [hleft] at hp
      rcases hp with hp | hp <;> cases hp
    · rw [set_channel, Function.update_of_ne hqp]
      exact ⟨id, id⟩
  cases h with
  | unfound _ _ hl => exact hset (.inl hl)
  | start _ _ hl => exact hset (.inl hl)
  | recv_from_app hl => exact hset (.inr hl)
  | switch o hl =>
      rw [perform_channel]
      exact hset (.inr hl)
  | send_to_app hl => exact hset (.inr hl)

namespace Anchored

variable {ann : Tid → Ann × Seen}

/-- **One operation of an application thread.** -/
theorem sem (ha : Anchored m ann) {e : Env} {o : Op} {r : o.Res} (hp : (ann t).1.pre o)
    (ho : m.sem t e o = some (r, m')) :
    Anchored m' (Function.update ann t ((ann t).1.next o r, (ann t).2.next o r)) := by
  obtain ⟨recv_data, hw⟩ := sem_world ho
  have hc := ha.tended.held.coherent t
  have htmp : ∀ {p : Ptr}, o = .pthread_create (some p) → p ∈ m.world.table.ptrs := by
    rintro p rfl
    exact ha.tended.kept.tmp t p (Ann.MayStart.tmp hp).symm
  refine ⟨?_, ha.seen.sem ha.tended.held hp hw, fun u p he hj => ?_, fun p hlife => ?_⟩
  · rw [fst_update]
    exact ha.tended.sem hp ho
  · by_cases hut : u = t
    · subst hut
      rw [Function.update_self] at he hj
      obtain hjoined | ⟨q, rfl⟩ := Ann.joined_prev hj
      · obtain hbefore | ⟨args, rfl⟩ := Ann.ends_prev hc hp he
        · obtain ⟨fd, hentry⟩ := hbefore.entry
          have hleft := ha.joined u p hbefore hjoined
          obtain ⟨hsame, -⟩ | ⟨-, rfl, -⟩ | ⟨rfl, -⟩ := life_of_sem ho p
          · rw [hsame]
            exact hleft
          · exact absurd (ha.tended.kept.lt _ (ha.tended.kept.entry u _ fd hentry))
              (Nat.lt_irrefl _)
          · have hnone := Ann.MayWrite.entry hp.toMayWrite
            rw [hentry] at hnone
            cases hnone
        · obtain ⟨c, fd, hask⟩ := hp
          rw [hask.talk] at hjoined
          cases hjoined
      · obtain ⟨fd, hentry, -⟩ := hp
        obtain ⟨fd', hentry'⟩ := he.entry
        obtain ⟨rfl, -⟩ := Prod.mk.inj (Option.some.inj (hentry.symm.trans hentry'))
        obtain ⟨hleft, rfl⟩ := sem_join ho
        exact hleft
    · rw [Function.update_of_ne hut] at he hj
      have hleft := ha.joined u p he hj
      obtain ⟨fd, hentry⟩ := he.entry
      obtain ⟨hsame, -⟩ | ⟨-, rfl, -⟩ | ⟨rfl, -⟩ := life_of_sem ho p
      · rw [hsame]
        exact hleft
      · exact absurd (ha.tended.kept.lt _ (ha.tended.kept.entry u _ fd hentry))
          (Nat.lt_irrefl _)
      · -- the creator would hold the lock as well
        exact absurd (ha.tended.held.eq_of_write he.mode (Ann.MayWrite.mode hp.toMayWrite)).symm hut
  · have hmem : p ∈ m.world.table.ptrs := by
      obtain ⟨hsame, -⟩ | ⟨-, -, hnew⟩ | ⟨hcreate, -⟩ := life_of_sem ho p
      · rw [hsame] at hlife
        exact ha.live p hlife
      · rw [hnew] at hlife
        rcases hlife with hlife | hlife <;> cases hlife
      · exact htmp hcreate
    by_cases hdelete : ∃ fd, o = .fdtable_delete fd
    · obtain ⟨fd, rfl⟩ := hdelete
      obtain hstays | ⟨he, hj⟩ := ptrs_of_delete ha.tended.kept hp ho hmem
      · exact hstays
      · have hleft := ha.joined t p he hj
        rw [channel_of_sem ho rfl, hleft] at hlife
        rcases hlife with hlife | hlife <;> cases hlife
    · exact ptrs_stay (sem_change hw) (fun fd heq => hdelete ⟨fd, heq⟩) hmem

/-- **One step of an entry's thread.** -/
theorem serves (ha : Anchored m ann) {b : ThreadStep} (h : m.Serves b m') : Anchored m' ann := by
  refine ⟨ha.tended.serves h, ?_, fun t p he hj => ?_, fun p hlife => ?_⟩
  · rw [h.world]
    exact ha.seen
  · exact (h.live p).1 (ha.joined t p he hj)
  · rw [h.world]
    exact ha.live p ((h.live p).2 hlife)

/-- A thread enters or leaves a wrapper. -/
theorem update (ha : Anchored m ann) {h : Ann}
    (hheld : Held m.world.lock (Function.update (fun u => (ann u).1) t h)) (hq : h.Quiet)
    (hmode : h.mode = .none) : Anchored m (Function.update ann t (h, {})) := by
  refine ⟨?_, ha.seen.update hmode, fun u p he hj => ?_, ha.live⟩
  · rw [fst_update]
    exact ha.tended.update hheld hq
  · by_cases hut : u = t
    · rw [hut, Function.update_self] at he
      exact absurd he.mode hq.mode_ne
    · rw [Function.update_of_ne hut] at he hj
      exact ha.joined u p he hj

theorem write (ha : Anchored m ann) (x : LogEntry Tid) : Anchored (m.write x) ann :=
  ⟨ha.tended.write x, ha.seen, ha.joined, ha.live⟩

end Anchored

omit [DecidableEq Tid] in
theorem anchored_init [DecidableEq Tid] : Anchored ({} : Machine Tid) fun _ => ({}, {}) where
  tended := tended_init
  seen := ⟨fun _ => iff_of_false nofun fun h => h rfl, nofun⟩
  joined _ _ he := nomatch he.mode
  live _ hlife := by rcases hlife with hlife | hlife <;> cases hlife

/-! ## Runs -/

/-- The texts, with both annotations. -/
abbrev Annotated (x : Ann × Seen) (thread : Option (Syscall × Wrapper Word)) : Prop :=
  Threads.Outlined (fun x o r => (x.1.next o r, x.2.next o r))
    (fun _ _ o r => True ∧ Allocated o r)
    (fun c x o => (x.1.pre o ∧ x.1.call = some c) ∧ x.2.Writes o)
    (fun c x a => (x.1.post a ∧ x.1.call = some c) ∧ x.2.held = x.2.relocked) ({}, {}) x thread

/-- Every entry that is asked for is allocated. -/
def Allocates (s : State Tid) : Label Tid → Prop
  | .inl (.step t e) => ∀ o ∈ nextOp (s.thread t), o = .fdtable_add → e.calloc = true
  | _ => True

instance (e : Env) (o : Op) : Decidable (o = .fdtable_add → e.calloc = true) :=
  match o with
  | .fdtable_add => decidable_of_iff (e.calloc = true) ⟨fun h _ => h, fun h => h rfl⟩
  | .errno | .set_errno _ | .pthread_rwlock _ | .fdtable_get_by_fd_all _ | .fdtable_get_by_fd _ _
  | .fdtable_getnumber | .fdtable_delete _ | .set_NetorFile _ _ | .set_pid _ | .set_thr_fd _ _
  | .pthread_create _ | .pthread_join _ | .CPART_send_to_thread _ _ | .CPART_recv_from_thread _
  | .original _ => .isTrue nofun

instance (s : State Tid) (l : Label Tid) : Decidable (Allocates s l) :=
  match l with
  | .inl (.step t e) =>
      inferInstanceAs
        (Decidable (∀ o ∈ nextOp (s.thread t), o = Op.fdtable_add → e.calloc = true))
  | .inl (.call _ _) | .inr _ => inferInstanceAs (Decidable True)

theorem allocated_of_sem {e : Env} {o : Op} {r : o.Res} (he : o = .fdtable_add → e.calloc = true)
    (ho : m.sem t e o = some (r, m')) : Allocated o r := by
  cases o with
  | fdtable_add =>
      obtain ⟨rfl, -, -⟩ | ⟨rfl, -⟩ := sem_add ho
      · obtain ⟨hw, -⟩ := sem_plain rfl ho
        simp [Preload.sem, he rfl] at hw
      · exact Option.some_ne_none _
  | _ => trivial

theorem anchored_of_start {s₀ s : State Tid} (hidle : ∀ t, s₀.thread t = none)
    (hstart : Anchored s₀.shared fun _ => ({}, {})) (h : Run.Reachable step Allocates s₀ s) :
    ∃ ann, Anchored s.shared ann ∧ ∀ t, Annotated (ann t) (s.thread t) := by
  refine Threads.outlined_of_reachable ({}, {}) h
    (fun c => (wrapper_outline c).prod (wrapper_valid c)) hidle hstart ?_ ?_ ?_ ?_
  · intro s ann t c ha ht _ _
    have hstart := ha.tended.held.start (t := t) (by rw [ht]) c
    exact (ha.update hstart ⟨.inl rfl, rfl, rfl, rfl⟩ rfl).write _
  · intro s ann t e c a ha _ _ hpost
    have hidle := ha.tended.held.idle hpost.1.1.1
    exact (ha.update hidle ⟨.inl rfl, rfl, rfl, rfl⟩ rfl).write _
  · intro s ann t e c o k r sh ha ht hg hpre ho
    exact ⟨⟨trivial, allocated_of_sem (hg o (by rw [ht]; rfl)) ho⟩, ha.sem hpre.1.1 ho⟩
  · intro s ann b sh ha _ hb
    exact ha.serves (serves_of_syscall_thread hb)

theorem anchored_of_reachable {s : State Tid} (h : Run.Reachable step Allocates init s) :
    ∃ ann, Anchored s.shared ann ∧ ∀ t, Annotated (ann t) (s.thread t) :=
  anchored_of_start (fun _ => rfl) anchored_init h

/-- The entry an operation uses is one the call knows. -/
theorem known_of_uses {ann : Tid → Ann × Seen} (ha : Anchored m ann) {o : Op}
    (hp : (ann t).1.pre o) (hw : (ann t).2.Writes o) {tmp : Option Ptr}
    (huses : o.uses = some tmp) :
    ∃ p ∈ m.world.table.ptrs, tmp = some p := by
  have hentry : ∀ {p : Ptr} {fd : CInt}, (ann t).1.entry = some (p, fd) → some (some p) = some tmp →
      ∃ p ∈ m.world.table.ptrs, tmp = some p := by
    intro p fd hentry heq
    exact ⟨p, ha.tended.kept.entry t p fd hentry, (Option.some.inj heq).symm⟩
  have hwrites : o.target = some tmp → ∃ p ∈ m.world.table.ptrs, tmp = some p := by
    intro htarget
    obtain ⟨p, hseen, htmp⟩ := hw tmp htarget
    exact ⟨p, (ha.seen.ptrs t p hseen).1, htmp⟩
  cases o with
  | CPART_send_to_thread args p =>
      obtain ⟨c, fd, hask⟩ := hp
      exact hentry hask.entry huses
  | CPART_recv_from_thread p =>
      obtain ⟨fd, hsome, -⟩ := hp
      exact hentry hsome huses
  | pthread_join p =>
      obtain ⟨fd, hsome, -⟩ := hp
      exact hentry hsome huses
  | _ => exact hwrites huses

/-- The entries in use are in the table. -/
structure UsesLive (s : State Tid) : Prop where
  wrapper : ∀ t tmp, (nextOp (s.thread t)).bind Op.uses = some tmp →
    ∃ p ∈ s.shared.world.table.ptrs, tmp = some p
  thread : ∀ p, (s.shared.channel p).life = .created ∨ (s.shared.channel p).life = .running →
    p ∈ s.shared.world.table.ptrs

theorem usesLive_of_anchored {s : State Tid} {ann : Tid → Ann × Seen} (ha : Anchored s.shared ann)
    (hann : ∀ t, Annotated (ann t) (s.thread t)) : UsesLive s := by
  refine ⟨fun t tmp huses => ?_, ha.live⟩
  obtain ⟨o, hop, huses⟩ := Option.bind_eq_some_iff.mp huses
  have htext := hann t
  cases hthread : s.thread t with
  | none =>
      rw [hthread] at hop
      cases hop
  | some x =>
      obtain ⟨c, q⟩ := x
      rw [hthread] at hop htext
      cases q with
      | ret a => cases hop
      | op o' k =>
          cases hop
          exact known_of_uses ha htext.1.1.1 htext.1.2 huses

/-- **No entry is used after it has been freed, and none is NULL**, in every
run in which `calloc` succeeds, for any number of threads: the entry that a
wrapper is about to use is in the table, and so is the entry of every thread
that has not left its loop. -/
theorem entries_used_are_live {s : State Tid} (h : Run.Reachable step Allocates init s) :
    (∀ t tmp, (nextOp (s.thread t)).bind Op.uses = some tmp →
      ∃ p ∈ s.shared.world.table.ptrs, tmp = some p) ∧
    ∀ p, (s.shared.channel p).life = .created ∨ (s.shared.channel p).life = .running →
      p ∈ s.shared.world.table.ptrs := by
  obtain ⟨ann, ha, hann⟩ := anchored_of_reachable h
  exact ⟨(usesLive_of_anchored ha hann).wrapper, (usesLive_of_anchored ha hann).thread⟩

/-- `accept` is about to write to the entry of the listening socket, while
another thread waits to remove it. -/
theorem listening_entry_is_live :
    ∃ s : State Bool, Run.Reachable step Allocates init s ∧
      (nextOp (s.thread true)).bind Op.uses = some (some 1) ∧ WaitsForLock s false .wrlock ∧
      ∃ p ∈ s.shared.world.table.ptrs, some 1 = some p := by
  have hrun : ((Run.exec step Allocates init
      (oneSocket ++ calls true (.accept 7 0 0) 3 {}
        ++ [.inr (.recv_from_app 1), .inr (.switch 1 ⟨9, 0⟩), .inr (.send_to_app 1)]
        ++ List.replicate 4 (.inl (.step true {})) ++ calls false (.close 7) 1 {})).map fun s =>
        ((nextOp (s.thread true)).bind Op.uses, locking .wrlock (s.thread false),
          (s.shared.world.lock.step false .wrlock).isNone)) = some (some (some 1), true, true) := by
    decide
  obtain ⟨s, hs, hproj⟩ := Option.map_eq_some_iff.mp hrun
  simp only [Prod.mk.injEq] at hproj
  obtain ⟨huses, hwaits⟩ := hproj
  have hreach := Run.reachable_of_exec hs
  exact ⟨s, hreach, huses, hwaits, (entries_used_are_live hreach).1 true _ huses⟩

end Machine

end CorePartitioning.Preload
