import CorePartitioning.Preload.IpcRefines
import CorePartitioning.Lib.Count

/-!
# ipc.c — the tokens of the handshake

Each semaphore pair and each mutex of an entry is a token: it lies in a
semaphore, or a party is between the wait that takes it and the post that
puts it back. That the texts put back what they take is checked once, text
by text (`Balanced`); the sums over all parties follow for every run.
-/

namespace CorePartitioning.Preload.Ipc

variable {Client : Type} [DecidableEq Client]

/-! ## What a text takes and gives -/

/-- 1 for a party about to execute one of the statements `lo` to `hi`. -/
def between (lo hi pc : Nat) : Nat := if lo ≤ pc ∧ pc ≤ hi then 1 else 0

def Instr.takes (xs : List Sem) : Instr → Nat
  | .sem_wait x => if x ∈ xs then 1 else 0
  | _ => 0

def Instr.gives (xs : List Sem) : Instr → Nat
  | .sem_post x => if x ∈ xs then 1 else 0
  | _ => 0

/-- A party that executes `text` has the token of `xs` exactly before the
statements `lo` to `hi`. -/
def Balanced (xs : List Sem) (lo hi : Nat) (text : List Instr) : Prop :=
  ∀ pc, ∀ h : pc < text.length,
    between lo hi (pc + 1) + (text[pc]).gives xs = between lo hi pc + (text[pc]).takes xs

instance (xs : List Sem) (lo hi : Nat) (text : List Instr) : Decidable (Balanced xs lo hi text) :=
  inferInstanceAs (Decidable (∀ pc, ∀ _ : pc < text.length, _))

def tokens (xs : List Sem) (sem : Sem → Nat) : Nat := (xs.map sem).sum

theorem tokens_update {xs : List Sem} (hxs : xs.Nodup) (sem : Sem → Nat) (x : Sem) (n : Nat) :
    tokens xs (Function.update sem x n) + (if x ∈ xs then sem x else 0) =
      tokens xs sem + if x ∈ xs then n else 0 := by
  induction xs with
  | nil => rfl
  | cons y ys ih =>
      obtain ⟨hy, hys⟩ := List.nodup_cons.mp hxs
      have hrest := ih hys
      simp only [tokens, List.map_cons, List.sum_cons] at hrest ⊢
      by_cases hxy : x = y
      · subst hxy
        simp only [if_neg hy] at hrest
        simp only [Function.update_self, List.mem_cons_self, if_true]
        omega
      · have hmem : x ∈ y :: ys ↔ x ∈ ys := by simp [hxy]
        simp only [hmem, Function.update_of_ne (Ne.symm hxy)]
        omega

theorem tokens_down {xs : List Sem} (hxs : xs.Nodup) {sem : Sem → Nat} {x : Sem}
    (hpos : 0 < sem x) :
    tokens xs (down sem x) + (Instr.sem_wait x).takes xs = tokens xs sem := by
  have h := tokens_update hxs sem x (sem x - 1)
  simp only [down, Instr.takes]
  by_cases hx : x ∈ xs
  · simp only [if_pos hx] at h ⊢
    omega
  · simp only [if_neg hx] at h ⊢
    exact h

theorem tokens_up {xs : List Sem} (hxs : xs.Nodup) (sem : Sem → Nat) (x : Sem) :
    tokens xs (up sem x) = tokens xs sem + (Instr.sem_post x).gives xs := by
  have h := tokens_update hxs sem x (sem x + 1)
  simp only [up, Instr.gives]
  by_cases hx : x ∈ xs
  · simp only [if_pos hx] at h ⊢
    omega
  · simp only [if_neg hx] at h ⊢
    exact h

/-! ## The parties -/

/-- The client is about to execute one of the statements `lo` to `hi`. -/
def Within (lo hi : Nat) (r : Option Running) : Prop := ∃ r', r = some r' ∧ lo ≤ r'.pc ∧ r'.pc ≤ hi

instance (lo hi : Nat) : DecidablePred (Within lo hi) := fun r =>
  match r with
  | none => isFalse nofun
  | some r => decidable_of_iff (lo ≤ r.pc ∧ r.pc ≤ hi) (by simp [Within])

/-- The number of clients about to execute one of the statements `lo` to `hi`. -/
noncomputable abbrev clientsBetween (lo hi : Nat) (client : Client → Option Running) : ℕ∞ :=
  Count.having (Within lo hi) client

omit [DecidableEq Client] in
theorem within_some {lo hi : Nat} {r : Running} :
    Within lo hi (some r) ↔ lo ≤ r.pc ∧ r.pc ≤ hi := by
  simp [Within]

/-! ## One statement -/

variable {s s' : Sys Client} {xs : List Sem}

theorem clientExec_spec (hxs : xs.Nodup) {c : Client} {r : Running} {i : Instr}
    (h : clientExec s c r i = some s') :
    s'.client = Function.update s.client c r.next ∧ s'.thread = s.thread ∧
      tokens xs s'.sem + i.takes xs = tokens xs s.sem + i.gives xs := by
  cases i with
  | sem_wait x =>
      simp only [clientExec, Option.ite_none_right_eq_some, Option.some.injEq] at h
      obtain ⟨hpos, rfl⟩ := h
      exact ⟨rfl, rfl, tokens_down hxs hpos⟩
  | sem_post x =>
      cases h
      exact ⟨rfl, rfl, tokens_up hxs s.sem x⟩
  | memcpy_in | memcpy_out =>
      cases h
      exact ⟨rfl, rfl, rfl⟩
  | switch | loop => cases h

omit [DecidableEq Client] in
theorem threadExec_spec (hxs : xs.Nodup) {o : Outcome} {i : Instr}
    (h : threadExec s o i = some s') :
    s'.client = s.client ∧
      (s'.thread.pc = s.thread.pc + 1 ∨ i = .loop ∧ s'.thread = s.thread.loop) ∧
      tokens xs s'.sem + i.takes xs = tokens xs s.sem + i.gives xs := by
  cases i with
  | sem_wait x =>
      simp only [threadExec, Option.ite_none_right_eq_some, Option.some.injEq] at h
      obtain ⟨hpos, rfl⟩ := h
      exact ⟨rfl, .inl rfl, tokens_down hxs hpos⟩
  | sem_post x =>
      cases h
      exact ⟨rfl, .inl rfl, tokens_up hxs s.sem x⟩
  | memcpy_in | memcpy_out | switch =>
      cases h
      exact ⟨rfl, .inl rfl, rfl⟩
  | loop =>
      cases h
      exact ⟨rfl, .inr ⟨rfl, rfl⟩, rfl⟩

theorem Thread.loop_pc (t : Thread) : t.loop.pc = syscall_thread.length ∨ t.loop.pc = 0 := by
  unfold Thread.loop
  simp only
  split
  · exact .inl rfl
  · exact .inr rfl

/-- The loop test is the last statement. -/
theorem loop_last : ∀ pc, ∀ h : pc < syscall_thread.length, syscall_thread[pc] = .loop →
    pc + 1 = syscall_thread.length := by
  decide

/-! ## The sums -/

/-- One token for `xs`: in a semaphore, with a client before the statements
`lo` to `hi`, or with the thread before `lo'` to `hi'`. -/
def OneToken (xs : List Sem) (lo hi lo' hi' : Nat) (s : Sys Client) : Prop :=
  (tokens xs s.sem : ℕ∞) + clientsBetween lo hi s.client + between lo' hi' s.thread.pc = 1

/-- The texts put back what they take. -/
structure TokenTexts (xs : List Sem) (lo hi lo' hi' : Nat) : Prop where
  nodup : xs.Nodup
  client : Balanced xs lo hi exchange
  thread : Balanced xs lo' hi' syscall_thread
  starts : 0 < lo ∧ 0 < lo'
  ends : hi < exchange.length ∧ hi' < syscall_thread.length

variable {lo hi lo' hi' : Nat}

theorem within_next (hhi : hi < exchange.length) {r : Running} :
    Within lo hi r.next ↔ lo ≤ r.pc + 1 ∧ r.pc + 1 ≤ hi := by
  unfold Running.next
  split
  · exact within_some
  · constructor
    · rintro ⟨r', hr', -⟩
      cases hr'
    · omega

omit [DecidableEq Client] in
/-- A change of the three summands that cancels out. -/
theorem OneToken.move (h : OneToken xs lo hi lo' hi' s) (w w' v v' takes gives : Nat)
    (htok : tokens xs s'.sem + takes = tokens xs s.sem + gives)
    (hcl : clientsBetween lo hi s'.client + (w : ℕ∞) = clientsBetween lo hi s.client + (w' : ℕ∞))
    (hth : between lo' hi' s'.thread.pc + v = between lo' hi' s.thread.pc + v')
    (hbal : w' + v' + gives = w + v + takes) : OneToken xs lo hi lo' hi' s' := by
  unfold OneToken at h ⊢
  generalize clientsBetween lo hi s.client = n at h hcl
  generalize clientsBetween lo hi s'.client = n' at hcl ⊢
  cases n with
  | top => simp at h
  | coe n =>
      cases n' with
      | top => cases hcl
      | coe n' =>
          norm_cast at h hcl ⊢
          omega

theorem OneToken.step (ht : TokenTexts xs lo hi lo' hi') (h : OneToken xs lo hi lo' hi' s)
    {l : Label Client} (hs : Ipc.step s l = some s') : OneToken xs lo hi lo' hi' s' := by
  cases l with
  | call c args =>
      obtain ⟨hc, rfl⟩ := step_call_iff.mp hs
      have hcl := Count.having_update (Within lo hi) s.client c (some ⟨0, ⟨s.hist.nextId, args⟩⟩)
      have hstart : ¬ Within lo hi (some ⟨0, ⟨s.hist.nextId, args⟩⟩) := by
        rw [within_some]
        exact fun hlo => absurd hlo.1 (Nat.not_le.mpr ht.starts.1)
      rw [hc, if_neg nofun, if_neg hstart] at hcl
      exact h.move 0 0 0 0 0 0 rfl hcl rfl rfl
  | client c =>
      obtain ⟨r, hc, i, hat, hs⟩ := step_client_iff.mp hs
      obtain ⟨hpc, rfl⟩ := List.getElem?_eq_some_iff.mp hat
      obtain ⟨hclient, hthread, htok⟩ := clientExec_spec ht.nodup hs
      have hcl := Count.having_update (Within lo hi) s.client c r.next
      simp only [hc, within_some, within_next ht.ends.1, ← hclient] at hcl
      have hbal := ht.client r.pc hpc
      refine h.move (between lo hi r.pc) (between lo hi (r.pc + 1)) 0 0 _ _ htok ?_
        (by rw [hthread]) (by omega)
      unfold between
      push_cast
      exact hcl
  | thread o =>
      obtain ⟨i, hat, hs⟩ := step_thread_iff.mp hs
      obtain ⟨hpc, rfl⟩ := List.getElem?_eq_some_iff.mp hat
      obtain ⟨hclient, hnext, htok⟩ := threadExec_spec ht.nodup hs
      have hbal := ht.thread s.thread.pc hpc
      refine h.move 0 0 _ _ _ _ htok (by rw [hclient]) (Nat.add_comm _ _) ?_
      suffices hpc' : between lo' hi' s'.thread.pc = between lo' hi' (s.thread.pc + 1) by
        rw [hpc']
        omega
      obtain hpc' | ⟨hloop, heq⟩ := hnext
      · rw [hpc']
      · -- neither end of an iteration has the token
        have hend : s.thread.pc + 1 = syscall_thread.length := loop_last s.thread.pc hpc hloop
        have hends : between lo' hi' syscall_thread.length = 0 :=
          if_neg (by have := ht.ends.2; omega)
        have hstarts : between lo' hi' 0 = 0 := if_neg (by have := ht.starts.2; omega)
        rw [heq, hend, hends]
        obtain hpc' | hpc' := s.thread.loop_pc
        · rw [hpc', hends]
        · rw [hpc', hstarts]

omit [DecidableEq Client] in
theorem OneToken.newEntry (ht : TokenTexts xs lo hi lo' hi') (send_data : ArgsData)
    (recv_data : RetvalData)
    (hone : tokens xs (newEntry send_data recv_data : Sys Client).sem = 1) :
    OneToken xs lo hi lo' hi' (newEntry send_data recv_data : Sys Client) := by
  have hnobody :
      clientsBetween lo hi (Ipc.newEntry send_data recv_data : Sys Client).client = 0 := by
    exact Count.having_eq_zero_iff.mpr fun c => nofun
  unfold OneToken
  rw [hone, hnobody, between, if_neg (by have := ht.starts.2; simp [Ipc.newEntry]; omega)]
  rfl

theorem requestTexts : TokenTexts [.empty, .full] 1 4 1 4 :=
  ⟨by decide, by decide, by decide, by decide, by decide⟩

theorem responseTexts : TokenTexts [.full2, .empty2] 6 9 7 10 :=
  ⟨by decide, by decide, by decide, by decide, by decide⟩

theorem mutexTexts : TokenTexts [.mutex] 2 3 2 3 :=
  ⟨by decide, by decide, by decide, by decide, by decide⟩

theorem mutex2Texts : TokenTexts [.mutex2] 7 8 8 9 :=
  ⟨by decide, by decide, by decide, by decide, by decide⟩

/-- The four tokens of an entry. -/
structure Tokens (s : Sys Client) : Prop where
  request : OneToken [.empty, .full] 1 4 1 4 s
  response : OneToken [.full2, .empty2] 6 9 7 10 s
  mutex : OneToken [.mutex] 2 3 2 3 s
  mutex2 : OneToken [.mutex2] 7 8 8 9 s

theorem tokens_of_reachable {guard : Sys Client → Label Client → Prop} {send_data : ArgsData}
    {recv_data : RetvalData}
    (h : Run.Reachable Ipc.step guard (newEntry send_data recv_data) s) : Tokens s := by
  have hrun : ∀ {xs : List Sem} {lo hi lo' hi' : Nat}, TokenTexts xs lo hi lo' hi' →
      tokens xs (newEntry send_data recv_data : Sys Client).sem = 1 →
      OneToken xs lo hi lo' hi' s :=
    fun ht hone => h.invariant (.newEntry ht send_data recv_data hone)
      fun htok _ hs => htok.step ht hs
  exact ⟨hrun requestTexts rfl, hrun responseTexts rfl, hrun mutexTexts rfl, hrun mutex2Texts rfl⟩

end CorePartitioning.Preload.Ipc
