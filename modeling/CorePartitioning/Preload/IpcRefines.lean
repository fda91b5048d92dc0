import CorePartitioning.Preload.Exchange
import Mathlib.Tactic.IntervalCases

/-!
# ipc.c refines the exchange

Every statement of every party is a step of the exchange or leaves it as it
is: the five copies and the `switch` are the actions, the semaphore
operations in between only move the slots (`Sim.step`). The guard of a
request survives the abstraction because the statement that takes it is
known: `Matches`.
-/

namespace CorePartitioning.Preload.Ipc

open Slot (Holder Place Represents)

variable {Client : Type} [DecidableEq Client]

@[simp] theorem down_self (sem : Sem → Nat) (x : Sem) : down sem x x = sem x - 1 :=
  Function.update_self ..

@[simp] theorem up_self (sem : Sem → Nat) (x : Sem) : up sem x x = sem x + 1 :=
  Function.update_self ..

theorem down_of_ne {sem : Sem → Nat} {x y : Sem} (h : y ≠ x) : down sem x y = sem y :=
  Function.update_of_ne h ..

theorem up_of_ne {sem : Sem → Nat} {x y : Sem} (h : y ≠ x) : up sem x y = sem y :=
  Function.update_of_ne h ..

/-- An update that `f` does not see. -/
theorem comp_update_eq {α β : Type*} {f : α → β} {g : Client → α} {c : Client} {x : α}
    (h : f x = f (g c)) : f ∘ Function.update g c x = f ∘ g := by
  rw [Function.comp_update, h]
  exact Function.update_eq_self c (f ∘ g)

/-! ## The slots under one statement -/

section Slot

variable {e f : Sem} {m n : Nat} {sem sem' : Sem → Nat} {client : Client → Option Running}
  {pc pc' : Nat} {b : Bool} {c : Client} {x : Option Running}

theorem SlotIs.client_frame (h : SlotIs e f m n sem client pc b)
    (hx : clientPlace m x = clientPlace m (client c)) (he : sem' e = sem e)
    (hf : sem' f = sem f) : SlotIs e f m n sem' (Function.update client c x) pc b := by
  unfold SlotIs
  rw [he, hf, comp_update_eq hx]
  exact h

omit [DecidableEq Client] in
theorem SlotIs.thread_frame (h : SlotIs e f m n sem client pc b)
    (hp : placeFrom n pc' = placeFrom n pc) (he : sem' e = sem e) (hf : sem' f = sem f) :
    SlotIs e f m n sem' client pc' b := by
  unfold SlotIs
  rw [he, hf, hp]
  exact h

theorem SlotIs.claim (h : SlotIs e f m n sem client pc b) (hne : f ≠ e) (hpos : 0 < sem e)
    (hx : clientPlace m x = .before) :
    SlotIs e f m n (down sem e) (Function.update client c x) pc b := by
  obtain ⟨h, rep, rfl⟩ := h
  have hfree := rep.free_of_pos hpos
  refine ⟨.filling c, ?_, by rw [hfree]; rfl⟩
  rw [down_self, down_of_ne hne, Function.comp_update, hx]
  exact rep.claim c hpos

theorem SlotIs.write (h : SlotIs e f m n sem client pc b)
    (hc : clientPlace m (client c) = .before) (hx : clientPlace m x = .after) :
    b = false ∧ SlotIs e f m n sem (Function.update client c x) pc true := by
  obtain ⟨h, rep, rfl⟩ := h
  have hfill := (rep.filling_iff c).mp hc
  refine ⟨by rw [hfill]; rfl, .filled c, ?_, rfl⟩
  rw [Function.comp_update, hx]
  exact rep.write hc

theorem SlotIs.publish (h : SlotIs e f m n sem client pc b) (hne : e ≠ f)
    (hc : clientPlace m (client c) = .after) (hx : clientPlace m x = .away) :
    SlotIs e f m n (up sem f) (Function.update client c x) pc b := by
  obtain ⟨h, rep, rfl⟩ := h
  have hfill := (rep.filled_iff c).mp hc
  refine ⟨.ready, ?_, by rw [hfill]; rfl⟩
  rw [up_self, up_of_ne hne, Function.comp_update, hx]
  exact rep.publish hc

/-- The thread is the only consumer. -/
theorem update_unit (y z : Place) : Function.update (fun _ : Unit => y) () z = fun _ => z := by
  funext u
  simp

omit [DecidableEq Client] in
theorem SlotIs.take (h : SlotIs e f m n sem client pc b) (hne : e ≠ f) (hpos : 0 < sem f)
    (hp : placeFrom n pc' = .before) : SlotIs e f m n (down sem f) client pc' b := by
  obtain ⟨h, rep, rfl⟩ := h
  have hready := rep.ready_of_pos hpos
  refine ⟨.draining (), ?_, by rw [hready]; rfl⟩
  rw [down_self, down_of_ne hne, hp]
  have := rep.take () hpos
  rwa [update_unit] at this

omit [DecidableEq Client] in
theorem SlotIs.read (h : SlotIs e f m n sem client pc b) (pc' : Nat)
    (hp : placeFrom n pc = .before) (hp' : placeFrom n pc' = .after) :
    b = true ∧ SlotIs e f m n sem client pc' false := by
  obtain ⟨h, rep, rfl⟩ := h
  have hdrain := (rep.draining_iff ()).mp hp
  refine ⟨by rw [hdrain]; rfl, .drained (), ?_, rfl⟩
  rw [hp']
  have := rep.read (q := ()) hp
  rwa [update_unit] at this

omit [DecidableEq Client] in
theorem SlotIs.release (h : SlotIs e f m n sem client pc b) (hne : f ≠ e)
    (hp : placeFrom n pc = .after) (hp' : placeFrom n pc' = .away) :
    SlotIs e f m n (up sem e) client pc' b := by
  obtain ⟨h, rep, rfl⟩ := h
  have hdrain := (rep.drained_iff ()).mp hp
  refine ⟨.free, ?_, by rw [hdrain]; rfl⟩
  rw [up_self, up_of_ne hne, hp']
  have := rep.release (q := ()) hp
  rwa [update_unit] at this

end Slot

/-! ## Statements that leave the exchange as it is -/

variable {s s' : Sys Client} {a : Exchange Client}

theorem Sim.client_stutter (sim : Sim s a) {c : Client} {x : Option Running}
    {sem' : Sem → Nat} (hstage : stage x = stage (s.client c))
    (hreq : SlotIs .empty .full 0 0 sem' (Function.update s.client c x) s.thread.pc a.request)
    (hres : SlotIs .full2 .empty2 5 6 sem' (Function.update s.client c x) s.thread.pc
      (!a.response)) :
    Sim { s with client := Function.update s.client c x, sem := sem' } a where
  message := sim.message
  hist := sim.hist
  client := by rw [comp_update_eq hstage]; exact sim.client
  phase := sim.phase
  request := hreq
  response := hres

omit [DecidableEq Client] in
theorem Sim.thread_stutter (sim : Sim s a) {t : Thread} {sem' : Sem → Nat}
    (hphase : Ipc.phase t = Ipc.phase s.thread)
    (hreq : SlotIs .empty .full 0 0 sem' s.client t.pc a.request)
    (hres : SlotIs .full2 .empty2 5 6 sem' s.client t.pc (!a.response)) :
    Sim { s with thread := t, sem := sem' } a where
  message := sim.message
  hist := sim.hist
  client := sim.client
  phase := by rw [hphase]; exact sim.phase
  request := hreq
  response := hres

/-- A statement on a mutex: no slot sees it. -/
theorem Sim.client_mutex (sim : Sim s a) {c : Client} {x : Option Running} {sem' : Sem → Nat}
    (hstage : stage x = stage (s.client c))
    (hreq : clientPlace 0 x = clientPlace 0 (s.client c))
    (hres : clientPlace 5 x = clientPlace 5 (s.client c))
    (hsem : ∀ y, y ≠ .mutex → y ≠ .mutex2 → sem' y = s.sem y) :
    Sim { s with client := Function.update s.client c x, sem := sem' } a := by
  apply sim.client_stutter hstage
  · exact sim.request.client_frame hreq (hsem _ nofun nofun)
      (hsem _ nofun nofun)
  · exact sim.response.client_frame hres (hsem _ nofun nofun)
      (hsem _ nofun nofun)

omit [DecidableEq Client] in
theorem Sim.thread_mutex (sim : Sim s a) {t : Thread} {sem' : Sem → Nat}
    (hphase : Ipc.phase t = Ipc.phase s.thread)
    (hreq : placeFrom 0 t.pc = placeFrom 0 s.thread.pc)
    (hres : placeFrom 6 t.pc = placeFrom 6 s.thread.pc)
    (hsem : ∀ y, y ≠ .mutex → y ≠ .mutex2 → sem' y = s.sem y) :
    Sim { s with thread := t, sem := sem' } a := by
  apply sim.thread_stutter hphase
  · exact sim.request.thread_frame hreq (hsem _ nofun nofun)
      (hsem _ nofun nofun)
  · exact sim.response.thread_frame hres (hsem _ nofun nofun)
      (hsem _ nofun nofun)

/-! ## The simulation -/

/-- The step `l` of the code that a request of the exchange stands for. -/
def Matches (s : Sys Client) (l : Label Client) (b : Action Client) : Prop :=
  ∀ c, b = .request c → l = .client c ∧ ∃ k, s.client c = some ⟨2, k⟩

/-- Either nothing happens in the exchange, or one step of it does. -/
def Simulated (s : Sys Client) (l : Label Client) (s' : Sys Client) (a : Exchange Client) :
    Prop :=
  ∃ a', Sim s' a' ∧ (a' = a ∨ ∃ b, Matches s l b ∧ a.Step b a')

omit [DecidableEq Client] in
/-- Any action but a request matches any step. -/
theorem matches_of_ne {l : Label Client} {b : Action Client} (h : ∀ c, b ≠ .request c) :
    Matches s l b :=
  fun c hb => absurd hb (h c)

theorem Simulated.stutter {l : Label Client} (sim : Sim s' a) : Simulated s l s' a :=
  ⟨a, sim, Or.inl rfl⟩

theorem Simulated.act {l : Label Client} {b : Action Client} {a' : Exchange Client}
    (hb : a.Step b a') (hm : Matches s l b) (sim : Sim s' a') : Simulated s l s' a :=
  ⟨a', sim, Or.inr ⟨b, hm, hb⟩⟩

theorem Sim.simulate_call (sim : Sim s a) {c : Client} {args : ArgsData}
    (hs : step s (.call c args) = some s') : Simulated s (.call c args) s' a := by
  obtain ⟨hc, rfl⟩ := step_call_iff.mp hs
  have hidle : a.client c = .idle := by simp [sim.client, hc, stage]
  refine .act (.start args hidle) (matches_of_ne (by simp))
    ⟨sim.message, ?_, ?_, sim.phase, ?_, ?_⟩
  · rw [← sim.hist]
  · rw [Function.comp_update, ← sim.client, ← sim.hist]
    rfl
  · exact sim.request.client_frame (by rw [hc]; rfl) rfl rfl
  · exact sim.response.client_frame (by rw [hc]; rfl) rfl rfl

theorem Sim.simulate_client (sim : Sim s a) {c : Client}
    (hs : step s (.client c) = some s') : Simulated s (.client c) s' a := by
  obtain ⟨⟨pc, k⟩, hc, i, hi, hs⟩ := step_client_iff.mp hs
  obtain ⟨hpc, -⟩ := List.getElem?_eq_some_iff.mp hi
  change pc < 10 at hpc
  interval_cases pc
  all_goals
    cases hi
    simp only [clientExec, Option.some.injEq, Option.ite_none_right_eq_some] at hs
  · -- 0: sem_wait(empty)
    obtain ⟨hpos, rfl⟩ := hs
    exact .stutter (sim.client_stutter (by rw [hc]; rfl)
      (sim.request.claim nofun hpos rfl)
      (sim.response.client_frame (by rw [hc]; rfl) rfl rfl))
  · -- 1: sem_wait(mutex)
    obtain ⟨hpos, rfl⟩ := hs
    exact .stutter (sim.client_mutex (by rw [hc]; rfl) (by rw [hc]; rfl) (by rw [hc]; rfl)
      fun _ h _ => down_of_ne h)
  · -- 2: memcpy of the request
    subst hs
    have hcall : a.client c = .calling k := by rw [sim.client, Function.comp_apply, hc]; rfl
    obtain ⟨hr, hreq⟩ := sim.request.write (c := c) (x := Running.next ⟨2, k⟩)
      (by rw [hc]; rfl) rfl
    refine .act (.request hcall hr) ?_ ⟨rfl, ?_, ?_, sim.phase, hreq, ?_⟩
    · intro c' hc'
      cases hc'
      exact ⟨rfl, k, hc⟩
    · rw [← sim.hist]
    · rw [Function.comp_update, ← sim.client]
      rfl
    · exact sim.response.client_frame (by rw [hc]; rfl) rfl rfl
  · -- 3: sem_post(mutex)
    subst hs
    exact .stutter (sim.client_mutex (by rw [hc]; rfl) (by rw [hc]; rfl) (by rw [hc]; rfl)
      fun _ h _ => up_of_ne h)
  · -- 4: sem_post(full)
    subst hs
    exact .stutter (sim.client_stutter (by rw [hc]; rfl)
      (sim.request.publish nofun (by rw [hc]; rfl) rfl)
      (sim.response.client_frame (by rw [hc]; rfl) rfl rfl))
  · -- 5: sem_wait(full2)
    obtain ⟨hpos, rfl⟩ := hs
    exact .stutter (sim.client_stutter (by rw [hc]; rfl)
      (sim.request.client_frame (by rw [hc]; rfl) rfl rfl)
      (sim.response.claim nofun hpos rfl))
  · -- 6: sem_wait(mutex2)
    obtain ⟨hpos, rfl⟩ := hs
    exact .stutter (sim.client_mutex (by rw [hc]; rfl) (by rw [hc]; rfl) (by rw [hc]; rfl)
      fun _ _ h => down_of_ne h)
  · -- 7: memcpy of the response
    subst hs
    have hpend : a.client c = .pending k := by rw [sim.client, Function.comp_apply, hc]; rfl
    obtain ⟨hr, hres⟩ := sim.response.write (c := c) (x := Running.next ⟨7, k⟩)
      (by rw [hc]; rfl) rfl
    refine .act (.receive hpend (by simpa using hr)) (matches_of_ne (by simp))
      ⟨sim.message, ?_, ?_, sim.phase, ?_, hres⟩
    · rw [← sim.hist, ← sim.message]
    · rw [Function.comp_update, ← sim.client]
      rfl
    · exact sim.request.client_frame (by rw [hc]; rfl) rfl rfl
  · -- 8: sem_post(mutex2)
    subst hs
    exact .stutter (sim.client_mutex (by rw [hc]; rfl) (by rw [hc]; rfl) (by rw [hc]; rfl)
      fun _ _ h => up_of_ne h)
  · -- 9: sem_post(empty2), back in the application
    subst hs
    have hdone : a.client c = .done := by rw [sim.client, Function.comp_apply, hc]; rfl
    refine .act (.finish hdone) (matches_of_ne (by simp))
      ⟨sim.message, sim.hist, ?_, sim.phase, ?_, ?_⟩
    · rw [Function.comp_update, ← sim.client]
      rfl
    · exact sim.request.client_frame (by rw [hc]; rfl) rfl rfl
    · exact sim.response.publish nofun (by rw [hc]; rfl) rfl

theorem Sim.simulate_thread (sim : Sim s a) {o : Outcome}
    (hs : step s (.thread o) = some s') : Simulated s (.thread o) s' a := by
  obtain ⟨i, hi, hs⟩ := step_thread_iff.mp hs
  obtain ⟨hpc, -⟩ := List.getElem?_eq_some_iff.mp hi
  obtain ⟨pc, hpc'⟩ : ∃ pc, s.thread.pc = pc := ⟨_, rfl⟩
  rw [hpc'] at hi hpc
  change pc < 12 at hpc
  interval_cases pc
  all_goals
    cases hi
    simp only [threadExec, Option.some.injEq, Option.ite_none_right_eq_some] at hs
  · -- 0: sem_wait(full)
    obtain ⟨hpos, rfl⟩ := hs
    exact .stutter (sim.thread_stutter (by simp [Ipc.phase, hpc'])
      (sim.request.take nofun hpos (by simp [placeFrom, hpc']))
      (sim.response.thread_frame (by simp [placeFrom, hpc']) rfl rfl))
  · -- 1: sem_wait(mutex)
    obtain ⟨hpos, rfl⟩ := hs
    exact .stutter (sim.thread_mutex (by simp [Ipc.phase, hpc']) (by simp [placeFrom, hpc'])
      (by simp [placeFrom, hpc']) fun _ h _ => down_of_ne h)
  · -- 2: memcpy of the request
    subst hs
    have hwait : a.phase = .waiting := by simp [sim.phase, Ipc.phase, hpc']
    obtain ⟨hr, hreq⟩ := sim.request.read (s.thread.pc + 1) (by simp [placeFrom, hpc'])
      (by simp [placeFrom, hpc'])
    refine .act (.deliver hwait hr) (matches_of_ne (by simp))
      ⟨sim.message, ?_, sim.client, ?_, hreq, ?_⟩
    · rw [← sim.hist, ← sim.message]
    · simp [Ipc.phase, hpc']
    · exact sim.response.thread_frame (by simp [placeFrom, hpc']) rfl rfl
  · -- 3: sem_post(mutex)
    subst hs
    exact .stutter (sim.thread_mutex (by simp [Ipc.phase, hpc']) (by simp [placeFrom, hpc'])
      (by simp [placeFrom, hpc']) fun _ h _ => up_of_ne h)
  · -- 4: sem_post(empty)
    subst hs
    exact .stutter (sim.thread_stutter (by simp [Ipc.phase, hpc'])
      (sim.request.release nofun (by simp [placeFrom, hpc']) (by simp [placeFrom, hpc']))
      (sim.response.thread_frame (by simp [placeFrom, hpc']) rfl rfl))
  · -- 5: the switch
    subst hs
    have hserv : a.phase = .serving := by simp [sim.phase, Ipc.phase, hpc']
    refine .act (.produce (serve s.thread.send_data s.thread.recv_data o) hserv)
      (matches_of_ne (by simp))
      ⟨sim.message, ?_, sim.client, ?_, ?_, ?_⟩
    · rw [← sim.hist]
    · simp [Ipc.phase, Thread.switch, hpc']
    · exact sim.request.thread_frame (by simp [placeFrom, Thread.switch, hpc']) rfl rfl
    · exact sim.response.thread_frame (by simp [placeFrom, Thread.switch, hpc']) rfl rfl
  · -- 6: sem_wait(empty2)
    obtain ⟨hpos, rfl⟩ := hs
    exact .stutter (sim.thread_stutter (by simp [Ipc.phase, hpc'])
      (sim.request.thread_frame (by simp [placeFrom, hpc']) rfl rfl)
      (sim.response.take nofun hpos (by simp [placeFrom, hpc'])))
  · -- 7: sem_wait(mutex2)
    obtain ⟨hpos, rfl⟩ := hs
    exact .stutter (sim.thread_mutex (by simp [Ipc.phase, hpc']) (by simp [placeFrom, hpc'])
      (by simp [placeFrom, hpc']) fun _ _ h => down_of_ne h)
  · -- 8: memcpy of the response
    subst hs
    have hrep : a.phase = .replying s.thread.recv_data := by simp [sim.phase, Ipc.phase, hpc']
    obtain ⟨hr, hres⟩ := sim.response.read (s.thread.pc + 1) (by simp [placeFrom, hpc'])
      (by simp [placeFrom, hpc'])
    refine .act (.respond hrep (by simpa using hr)) (matches_of_ne (by simp))
      ⟨?_, ?_, sim.client, ?_, ?_, hres⟩
    · rw [← sim.message]
    · rw [← sim.hist]
    · simp [Ipc.phase, hpc']
    · exact sim.request.thread_frame (by simp [placeFrom, hpc']) rfl rfl
  · -- 9: sem_post(mutex2)
    subst hs
    exact .stutter (sim.thread_mutex (by simp [Ipc.phase, hpc']) (by simp [placeFrom, hpc'])
      (by simp [placeFrom, hpc']) fun _ _ h => up_of_ne h)
  · -- 10: sem_post(full2)
    subst hs
    exact .stutter (sim.thread_stutter (by simp [Ipc.phase, hpc'])
      (sim.request.thread_frame (by simp [placeFrom, hpc']) rfl rfl)
      (sim.response.release nofun (by simp [placeFrom, hpc']) (by simp [placeFrom, hpc'])))
  · -- 11: the next iteration, or the thread returns
    subst hs
    have hnext : s.thread.loop.pc = 12 ∨ s.thread.loop.pc = 0 := by
      unfold Thread.loop
      simp only
      split
      · exact Or.inl rfl
      · exact Or.inr rfl
    refine .stutter (sim.thread_stutter ?_ (sim.request.thread_frame ?_ rfl rfl)
      (sim.response.thread_frame ?_ rfl rfl))
    · rcases hnext with h | h <;> simp [Ipc.phase, hpc', h]
    · rcases hnext with h | h <;> simp [placeFrom, hpc', h]
    · rcases hnext with h | h <;> simp [placeFrom, hpc', h]

/-- **Each statement of ipc.c and of the loop around it is a step of the
exchange or none.** -/
theorem Sim.step (sim : Sim s a) {l : Label Client} (hs : step s l = some s') :
    Simulated s l s' a := by
  cases l with
  | call c args => exact sim.simulate_call hs
  | client c => exact sim.simulate_client hs
  | thread o => exact sim.simulate_thread hs

/-- The exchange `fdtable_add` sets up: both slots without a value. -/
def Exchange.init : Exchange Client where
  message := .zero
  client _ := .idle
  phase := .waiting
  request := false
  response := false
  hist := {}

omit [DecidableEq Client] in
theorem sim_init (send_data : ArgsData) (recv_data : RetvalData) :
    Sim (newEntry send_data recv_data : Sys Client) .init where
  message := rfl
  hist := rfl
  client := rfl
  phase := rfl
  request := ⟨.free, Slot.represents_free, rfl⟩
  response := ⟨.ready, Slot.represents_free.swap, rfl⟩

/-- **Runs.** An invariant of the exchange under the guard `G` holds along
every run of the code whose steps meet `guard`, when `guard` on the
statement that copies a request in is `G` on the request. -/
theorem reachable_exchange {guard : Sys Client → Label Client → Prop}
    {G : Exchange Client → Action Client → Prop} {J : Exchange Client → Prop}
    {send_data : ArgsData} {recv_data : RetvalData}
    (h : Run.Reachable Ipc.step guard (newEntry send_data recv_data) s)
    (hJ : J .init)
    (hG : ∀ {s a l b}, Sim s a → guard s l → Matches s l b → G a b)
    (hstep : ∀ {a b a'}, J a → G a b → a.Step b a' → J a') :
    ∃ a, Sim s a ∧ J a := by
  have hsim : ∀ {s a l s'}, Sim s a → guard s l → Ipc.step s l = some s' →
      ∃ a', Sim s' a' ∧ (a' = a ∨ ∃ b, G a b ∧ a.Step b a') := by
    intro s a l s' sim hg hs
    obtain ⟨a', sim', h | ⟨b, hm, hb⟩⟩ := sim.step hs
    · exact ⟨a', sim', Or.inl h⟩
    · exact ⟨a', sim', Or.inr ⟨b, hG sim hg hm, hb⟩⟩
  exact h.simulate (sim_init send_data recv_data) hJ hsim hstep

end CorePartitioning.Preload.Ipc
