import CorePartitioning.Preload.LockModes
import CorePartitioning.Preload.TableLookup

/-!
# ld_preload.c — how large the table becomes

`socket`, `open` and `openat` test `fdtable_getnumber() < MAXTHREAD` with
the write hold and add an entry under the same hold. `epoll_create` makes
the test with a read hold only, so two of them can pass it together, and
`accept` makes none. Without an insertion of these two into a full table it
never exceeds `MAXTHREAD`.
-/

namespace CorePartitioning.Preload

variable {Tid : Type} [DecidableEq Tid]

/-- The thread is about to insert an entry into a full table in `accept` or
`epoll_create`. -/
def overfills (tbl : FdTable) (e : Env) : Option (Syscall × Wrapper Word) → Bool
  | some (c, .op .fdtable_add _) =>
      c.insertsUnderRead && e.calloc && MAXTHREAD ≤ fdtable_getnumber tbl
  | _ => false

/-- No step of `accept` or `epoll_create` adds an entry to a full table. -/
def NoOverfill (s : Process Tid) : Event Tid → Prop
  | .call _ _ => True
  | .step t e => overfills s.shared.table e (s.thread t) = false

instance (s : Process Tid) (l : Event Tid) : Decidable (NoOverfill s l) :=
  match l with
  | .call _ _ => inferInstanceAs (Decidable True)
  | .step _ _ => inferInstanceAs (Decidable (_ = false))

/-- The counter is right and the table within its bound. -/
structure FdTable.Sized (tbl : FdTable) : Prop where
  bound : (tbl.entries.length : Int) ≤ MAXTHREAD
  num : tbl.thr_num = BitVec.ofNat 32 tbl.entries.length

namespace FdTable

variable {tbl tbl' : FdTable} {e : Env} {pid : Nat} {o : Op} {r : o.Res}

theorem Sized.getnumber (h : tbl.Sized) : fdtable_getnumber tbl = tbl.entries.length := by
  have hb : (tbl.entries.length : Int) ≤ 65535 := h.bound
  have hnat : tbl.thr_num.toNat = tbl.entries.length := by
    rw [h.num, BitVec.toNat_ofNat]
    omega
  rw [fdtable_getnumber, BitVec.toInt_eq_toNat_cond, hnat]
  omega

/-- A deletion. -/
theorem Sized.delete (h : tbl.Sized) (fd : CInt) : (fdtable_delete tbl fd).2.Sized := by
  unfold fdtable_delete
  split
  · rename_i tmp htmp
    have hmem : tmp ∈ tbl.entries := (fdtable_search_mem htmp).1
    have hlen := List.length_erase_of_mem hmem
    have hpos := List.length_pos_of_mem hmem
    have hb := h.bound
    refine ⟨?_, ?_⟩
    · show ((tbl.entries.erase tmp).length : Int) ≤ MAXTHREAD
      omega
    · show tbl.thr_num - 1 = BitVec.ofNat 32 (tbl.entries.erase tmp).length
      obtain ⟨n, hn⟩ := Nat.exists_eq_add_of_lt hpos
      rw [h.num, hlen, hn, Nat.zero_add, Nat.add_sub_cancel, BitVec.ofNat_add]
      exact BitVec.add_sub_cancel _ _
  · exact h

/-- An operation keeps the size right, if it adds to a table with room only. -/
theorem Sized.change (h : tbl.Sized) (hc : tbl.Change e pid o r tbl')
    (hadd : o = .fdtable_add → e.calloc = true → (tbl.entries.length : Int) < MAXTHREAD) :
    tbl'.Sized := by
  cases hc with
  | keep | add_fails | create_fails => exact h
  | add hcalloc =>
      have hroom := hadd rfl hcalloc
      refine ⟨?_, ?_⟩
      · show ((tbl.entries.length + 1 : Nat) : Int) ≤ MAXTHREAD
        omega
      · show tbl.thr_num + 1 = BitVec.ofNat 32 (tbl.entries.length + 1)
        rw [h.num, BitVec.ofNat_add]
        rfl
  | delete fd => exact h.delete fd
  | write hw hm =>
      obtain ⟨p, rfl, -, rfl⟩ := modify_eq_some hm
      exact ⟨by simpa using h.bound, by simpa using h.num⟩

/-- Only `fdtable_add` makes the table longer. -/
theorem Change.length_le (hc : tbl.Change e pid o r tbl') (ho : o ≠ .fdtable_add) :
    tbl'.entries.length ≤ tbl.entries.length := by
  cases hc with
  | keep | add_fails | create_fails => exact Nat.le_refl _
  | add => exact absurd rfl ho
  | delete fd => exact (fdtable_delete_entries tbl fd).length_le
  | write hw hm =>
      obtain ⟨p, rfl, -, rfl⟩ := modify_eq_some hm
      simp

end FdTable

/-- What the annotations know about the room in the table. -/
structure Roomy (w : World Tid) (ann : Tid → Ann) : Prop where
  locked : Locked w.lock ann
  sized : w.table.Sized
  room : ∀ t, (ann t).mode = .write → (ann t).room = true →
    (w.table.entries.length : Int) < MAXTHREAD

/-- The room a thread may count on after its own operation. -/
theorem room_of_next {t : Tid} {e : Env} {w w' : World Tid} {h : Ann} {o : Op} {r : o.Res}
    (hs : w.table.Sized) (ho : sem t e w o = some (r, w')) (hroom : (h.next o r).room = true) :
    (h.room = true ∧ o ≠ .fdtable_add ∧ (h.next o r).mode = h.mode) ∨
      (w.table.entries.length : Int) < MAXTHREAD ∧ o = .fdtable_getnumber := by
  cases o with
  | fdtable_getnumber =>
      cases ho
      refine .inr ⟨?_, rfl⟩
      rw [← hs.getnumber]
      exact of_decide_eq_true hroom
  | fdtable_add => cases hroom
  | pthread_rwlock x => cases x <;> cases hroom
  | fdtable_get_by_fd fd k => cases r <;> exact .inl ⟨hroom, nofun, rfl⟩
  | fdtable_get_by_fd_all fd =>
      obtain ⟨entry, talk, missed, heq⟩ := h.lookupAll_eq fd r
      have hnext : h.next (.fdtable_get_by_fd_all fd) r = _ := heq
      rw [hnext] at hroom ⊢
      exact .inl ⟨hroom, nofun, rfl⟩
  | _ => exact .inl ⟨hroom, nofun, rfl⟩

/-- An annotation in the same mode and without room. -/
theorem Roomy.update {w : World Tid} {ann : Tid → Ann} {t : Tid} {h : Ann} (hr : Roomy w ann)
    (hl : Locked w.lock (Function.update ann t h)) (hroom : h.room = false) :
    Roomy w (Function.update ann t h) where
  locked := hl
  sized := hr.sized
  room u hmode hu := by
    by_cases hut : u = t
    · subst hut
      simp [hroom] at hu
    · rw [Function.update_of_ne hut] at hmode hu
      exact hr.room u hmode hu

/-- One operation. -/
theorem Roomy.sem {s : Process Tid} {ann : Tid → Ann} {t : Tid} {e : Env} {c : Syscall} {o : Op}
    {k : o.Res → Wrapper Word} {r : o.Res} {w' : World Tid} (hr : Roomy s.shared ann)
    (ht : s.thread t = some (c, .op o k)) (hc : (ann t).call = some c)
    (hg : NoOverfill s (.step t e)) (hpre : (ann t).pre o)
    (ho : sem t e s.shared o = some (r, w')) :
    Roomy w' (Function.update ann t ((ann t).next o r)) := by
  have hchange := sem_change ho
  have hadd : o = .fdtable_add → e.calloc = true →
      (s.shared.table.entries.length : Int) < MAXTHREAD := by
    rintro rfl hcalloc
    obtain ⟨hmode, hroom⟩ | hunder := hpre.room
    · exact hr.room t hmode hroom
    · simp only [hc, Option.any_some] at hunder
      simp only [NoOverfill, ht, overfills, hunder, hcalloc, hr.sized.getnumber] at hg
      simpa using hg
  refine ⟨hr.locked.sem ho, hr.sized.change hchange hadd, fun u hmode hroom => ?_⟩
  by_cases hut : u = t
  · subst hut
    rw [Function.update_self] at hmode hroom
    obtain ⟨hroom, hne, hm⟩ | ⟨hlt, rfl⟩ := room_of_next hr.sized ho hroom
    · have hlt := hr.room u (hm ▸ hmode) hroom
      have hle := hchange.length_le hne
      omega
    · have hle := hchange.length_le nofun
      omega
  · rw [Function.update_of_ne hut] at hmode hroom
    have hne : o ≠ .fdtable_add := by
      rintro rfl
      exact hpre.mode (hr.locked.alone hmode (Ne.symm hut))
    have hlt := hr.room u hmode hroom
    have hle := hchange.length_le hne
    omega

/-- **The table never exceeds `MAXTHREAD` in a run in which neither `accept`
nor `epoll_create` adds to a full one**, for any number of threads and any
results of the original functions. -/
theorem size_le_of_no_overfill {s : Process Tid}
    (h : Run.Reachable step NoOverfill fdtable_init s) :
    (s.shared.table.entries.length : Int) ≤ MAXTHREAD := by
  have hop : ∀ {s : Process Tid} {ann : Tid → Ann} {t e c o k r w'}, Roomy s.shared ann →
      s.thread t = some (c, .op o k) → NoOverfill s (.step t e) →
      (ann t).pre o ∧ (ann t).call = some c → sem t e s.shared o = some (r, w') →
      True ∧ Roomy w' (Function.update ann t ((ann t).next o r)) :=
    fun hr ht hg hpre ho => ⟨trivial, hr.sem ht hpre.2 hg hpre.1 ho⟩
  have hinit : Roomy (fdtable_init : Process Tid).shared fun _ => {} :=
    ⟨locked_init, ⟨by show ((0 : Nat) : Int) ≤ 65535; omega, rfl⟩, nofun⟩
  obtain ⟨ann, hr, -⟩ := Threads.outlined_of_reachable_step ({} : Ann) h
    wrapper_outline (fun _ => rfl) hinit
    (fun hr ht => hr.update (hr.locked.update (by rw [ht]; rfl)) rfl)
    (fun hr hpost => hr.update (hr.locked.idle hpost.1.1.mode_ne) rfl) hop
  exact hr.sized.bound

/-- `socket` into the empty table. -/
theorem size_le_of_socket :
    ∃ s : Process Bool, Run.Reachable step NoOverfill fdtable_init s ∧
      s.shared.table.entries.length = 1 ∧ (s.shared.table.entries.length : Int) ≤ MAXTHREAD := by
  have hrun : ((Run.exec step NoOverfill (fdtable_init : Process Bool)
      (.call false (.socket 2 1 0) :: List.replicate 13 (.step false { result := 5 }))).map
      fun s => s.shared.table.entries.length) = some 1 := by
    decide
  obtain ⟨s, hs, hlength⟩ := Option.map_eq_some_iff.mp hrun
  have hreach := Run.reachable_of_exec hs
  exact ⟨s, hreach, hlength, size_le_of_no_overfill hreach⟩

/-! ## A full table and one more `accept` -/

/-- `n + 1` entries, for descriptors from 100 on; the listening one is there. -/
structure Grown (n : Nat) (w : World Tid) : Prop where
  lock : w.lock = {}
  length : w.table.entries.length = n + 1
  range : ∀ x ∈ w.table.entries, 100 ≤ x.thr_fd.toNat ∧ x.thr_fd.toNat ≤ 100 + n
  listening : ∃ x ∈ w.table.entries, x.thr_fd = 100 ∧ x.NetorFile = false
  fresh : ∀ x ∈ w.table.entries, x.ptr < w.table.nextPtr

theorem FdTable.modify_front {x : ThreadInfo} {rest : List ThreadInfo} {num : BitVec 32}
    {next : Ptr} (f : ThreadInfo → ThreadInfo) (hx : ∀ y ∈ rest, y.ptr ≠ x.ptr) :
    (FdTable.mk (x :: rest) num next).modify (some x.ptr) f =
      some ⟨f x :: rest, num, next⟩ := by
  have hmap : rest.map (fun y => if y.ptr = x.ptr then f y else y) = rest := by
    conv_rhs => rw [← List.map_id rest]
    apply List.map_congr_left
    intro y hy
    exact if_neg (hx y hy)
  simp [FdTable.modify, hmap]

theorem FdTable.modify_behind {x y : ThreadInfo} {rest : List ThreadInfo} {num : BitVec 32}
    {next : Ptr} (f : ThreadInfo → ThreadInfo) (hx : x ∈ rest) (hy : y.ptr ≠ x.ptr) :
    (FdTable.mk (y :: rest) num next).modify (some x.ptr) f =
      some ⟨y :: rest.map fun z => if z.ptr = x.ptr then f z else z, num, next⟩ := by
  have hany : rest.any (fun z => z.ptr == x.ptr) = true :=
    List.any_eq_true.mpr ⟨x, hx, beq_self_eq_true _⟩
  simp [FdTable.modify, hy, hany]

/-- `accept` on descriptor 100 gives the next descriptor. -/
def acceptNext (n : Nat) : Env where
  thread := n + 2
  recv_data := { RetvalData.zero with return_value := BitVec.ofNat 32 (101 + n) }

omit [DecidableEq Tid] in
theorem Grown.passable {n : Nat} {w : World Tid} (hw : Grown n w) (hn : n < 100000) :
    Passable w.table := by
  intro x hx
  obtain ⟨hlow, hhigh⟩ := hw.range x hx
  constructor
  · intro h
    rw [h] at hhigh
    simp at hhigh
    omega
  · intro h
    rw [h] at hlow
    simp at hlow

omit [DecidableEq Tid] in
/-- The listening entry is found, and the new descriptor has none. -/
theorem Grown.lookups {n : Nat} {w : World Tid} (hw : Grown n w) (hn : n < 100000) :
    (∃ x ∈ w.table.entries, fdtable_get_by_fd w.table 100 false = some x) ∧
      fdtable_get_by_fd_all w.table (BitVec.ofNat 32 (101 + n)) = none := by
  have hpass := hw.passable hn
  constructor
  · rw [hpass.get_by_fd]
    obtain ⟨y, hy, hfd, hk⟩ := hw.listening
    have hsome : (w.table.entries.find? fun x => x.thr_fd == 100 && x.NetorFile == false).isSome :=
      List.find?_isSome.mpr ⟨y, hy, by simp [hfd, hk]⟩
    obtain ⟨x, hx⟩ := Option.isSome_iff_exists.mp hsome
    exact ⟨x, List.mem_of_find?_eq_some hx, hx⟩
  · rw [hpass.get_by_fd_all, List.find?_eq_none]
    intro x hx heq
    obtain ⟨-, hhigh⟩ := hw.range x hx
    rw [beq_iff_eq.mp heq] at hhigh
    simp at hhigh
    omega

theorem Grown.accept {n : Nat} {w : World Tid} {t : Tid} (hw : Grown n w) (hn : n < 100000) :
    ∃ a w', (wrapper (.accept 100 0 0)).exec (sem t) (acceptNext n) w = some (a, w') ∧
      Grown (n + 1) w' := by
  obtain ⟨⟨x, hx, hfound⟩, hmiss⟩ := hw.lookups hn
  have hpos : 0 < (BitVec.ofNat 32 (101 + n)).toInt := by
    rw [BitVec.toInt_eq_toNat_cond]
    simp
    omega
  have hnat : (BitVec.ofNat 32 (101 + n)).toNat = 101 + n := by
    simp
    omega
  obtain ⟨⟨readers, writer⟩, ⟨entries, num, next⟩, errno, pid⟩ := w
  obtain ⟨hlock, hlength, hrange, hlisten, hfresh⟩ := hw
  cases hlock
  simp only at hfound hmiss hx hlength hrange hlisten hfresh
  have hnew : ∀ y ∈ entries, y.ptr ≠ next := fun y hy => Nat.ne_of_lt (hfresh y hy)
  -- the entries behind the new one
  obtain ⟨rest, hrest⟩ : ∃ rest, rest = entries.map fun z =>
      if z.ptr = x.ptr then { z with pid := pid } else z := ⟨_, rfl⟩
  have hmem : ∀ z ∈ rest, ∃ y ∈ entries,
      z.ptr = y.ptr ∧ z.thr_fd = y.thr_fd ∧ z.NetorFile = y.NetorFile := by
    rw [hrest]
    intro z hz
    obtain ⟨y, hy, rfl⟩ := List.mem_map.mp hz
    refine ⟨y, hy, ?_⟩
    split <;> exact ⟨rfl, rfl, rfl⟩
  have hlisten' : ∃ z ∈ rest, z.thr_fd = 100 ∧ z.NetorFile = false := by
    obtain ⟨y, hy, hfd, hk⟩ := hlisten
    refine ⟨_, by rw [hrest]; exact List.mem_map_of_mem hy, ?_⟩
    split <;> exact ⟨hfd, hk⟩
  have hfront : ∀ f : ThreadInfo → ThreadInfo, ∀ y : ThreadInfo, y.ptr = next →
      (FdTable.mk (y :: rest) (num + 1) (next + 1)).modify (some next) f =
        some ⟨f y :: rest, num + 1, next + 1⟩ := by
    rintro f y rfl
    refine FdTable.modify_front f fun z hz => ?_
    obtain ⟨y', hy', hptr, -⟩ := hmem z hz
    rw [hptr]
    exact hnew y' hy'
  simp only [wrapper, Preload.accept, Prog.call_bind, Prog.exec, sem, RwLock.step, hfound, hmiss,
    Option.map_some, Option.map_none, Option.bind_some, acceptNext, RetvalData.zero, hpos, if_pos,
    finish, fdtable_add]
  rw [FdTable.modify_front _ hnew]
  simp only [Option.map_some, Option.bind_some]
  rw [FdTable.modify_behind _ hx (Ne.symm (hnew x hx)), ← hrest]
  simp only [Option.map_some, Option.bind_some]
  rw [hfront _ _ rfl]
  simp only [Option.map_some, Option.bind_some]
  rw [hfront _ _ rfl]
  simp only [Option.map_some, Option.bind_some, List.mem_singleton, List.erase_cons_head,
    reduceCtorEq, if_false, if_true]
  refine ⟨_, _, rfl, rfl, ?_, ?_, ?_, ?_⟩
  · simp [hrest, hlength]
  · refine List.forall_mem_cons.mpr ⟨by simp only [hnat]; omega, fun z hz => ?_⟩
    obtain ⟨y, hy, -, hfd, -⟩ := hmem z hz
    obtain ⟨hlow, hhigh⟩ := hrange y hy
    rw [hfd]
    omega
  · obtain ⟨z, hz, hlisten⟩ := hlisten'
    exact ⟨z, List.mem_cons_of_mem _ hz, hlisten⟩
  · refine List.forall_mem_cons.mpr ⟨Nat.lt_succ_self next, fun z hz => ?_⟩
    obtain ⟨y, hy, hptr, -⟩ := hmem z hz
    rw [hptr]
    exact Nat.lt_succ_of_lt (hfresh y hy)

/-- `socket` with the result 100, then `n` times `accept`. -/
theorem grown_of_accepts (n : Nat) (hn : n ≤ 100000) :
    ∃ s : Process Bool, Run.Reachable step Run.free fdtable_init s ∧
      s.thread false = none ∧ Grown n s.shared := by
  induction n with
  | zero =>
      have hrun : ((Run.exec step Run.free (fdtable_init : Process Bool)
          (.call false (.socket 2 1 0) :: List.replicate 13 (.step false { result := 100 }))).map
          fun s => ((s.thread false).isNone, s.shared.lock.readers, s.shared.lock.writer,
            s.shared.table.entries, s.shared.table.nextPtr)) =
          some (true, [], none, [⟨1, 1, 100, 1, false⟩], 2) := by
        decide
      obtain ⟨s, hs, hproj⟩ := Option.map_eq_some_iff.mp hrun
      simp only [Prod.mk.injEq, Option.isNone_iff_eq_none] at hproj
      obtain ⟨hidle, hreaders, hwriter, hentries, hnext⟩ := hproj
      refine ⟨s, Run.reachable_of_exec hs, hidle, ?_, ?_, ?_, ?_, ?_⟩
      · obtain ⟨⟨⟨readers, writer⟩, _⟩, _⟩ := s
        cases hreaders
        cases hwriter
        rfl
      · rw [hentries]
        rfl
      · rw [hentries]
        decide
      · rw [hentries]
        decide
      · rw [hentries, hnext]
        decide
  | succ n ih =>
      obtain ⟨s, hs, hidle, hgrown⟩ := ih (Nat.le_of_succ_le hn)
      obtain ⟨a, w', hexec, hgrown'⟩ := hgrown.accept hn
      exact ⟨_, hs.trans (Threads.reachable_of_exec hidle hexec), hidle, hgrown'⟩

/-- **`accept` has no bound.** After 65535 more connections the table has
65536 entries. -/
theorem size_exceeds_maxthread :
    ¬ ∀ s : Process Bool, Run.Reachable step Run.free fdtable_init s →
      (s.shared.table.entries.length : Int) ≤ MAXTHREAD := by
  intro h
  obtain ⟨s, hs, -, hgrown⟩ := grown_of_accepts 65535 (by omega)
  have hle := h s hs
  rw [hgrown.length] at hle
  revert hle
  decide

end CorePartitioning.Preload
