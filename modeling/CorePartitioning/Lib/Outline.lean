import CorePartitioning.Lib.Threads

/-!
# Proof outlines for threads

`Safe` follows what a thread owns. An outline follows more: an annotation
`h` that the thread's own operations and their answers change as `next`
says, and that other threads may rely on or endanger. What the annotations
of all threads together say about the shared state is one predicate `G`.

The rule (`outlined_of_reachable`) separates the two halves of an argument
about interleavings. The texts are checked once, path by path, against
`pre` and `post`. What remains is a state machine without texts: `G` must
survive an operation that `pre` allows, at any annotation.

The system is open: `enter` and `leave` record calls and returns in the
shared state, and `bg` makes steps of its own.
-/

namespace Prog

variable {Op : Type} {Res : Op → Type} {α β H : Type}

section Outline

variable (next : H → (o : Op) → Res o → H) (ok : H → (o : Op) → Res o → Prop)
  (pre : H → Op → Prop) (post : H → α → Prop)

/-- From annotation `h`, every operation meets `pre` and every end meets
`post`, on all paths whose answers are `ok`. -/
def Outline : H → Prog Op Res α → Prop
  | h, ret a => post h a
  | h, op o k => pre h o ∧ ∀ r, ok h o r → Outline (next h o r) (k r)

end Outline

variable {next : H → (o : Op) → Res o → H} {ok : H → (o : Op) → Res o → Prop}
  {pre : H → Op → Prop} {post : H → α → Prop}

/-- A first part that ends in `mid`, and a second part that starts there. -/
theorem Outline.bind {post' : H → β → Prop} {h : H} {p : Prog Op Res α}
    {f : α → Prog Op Res β} (hp : p.Outline next ok pre post h)
    (hf : ∀ h a, post h a → (f a).Outline next ok pre post' h) :
    (p >>= f).Outline next ok pre post' h := by
  induction p generalizing h with
  | ret a => exact hf h a hp
  | op o k ih => exact ⟨hp.1, fun r hr => ih r (hp.2 r hr)⟩

/-- The end of a run that no other program interrupts. `R` ties the state to
the annotation. -/
theorem Outline.exec {S E : Type} {sem : E → S → (o : Op) → Option (Res o × S)} {e : E}
    {R : S → H → Prop}
    (hsem : ∀ {s h o r s'}, R s h → pre h o → sem e s o = some (r, s') →
      ok h o r ∧ R s' (next h o r))
    {p : Prog Op Res α} {h : H} {s s' : S} {a : α} (hp : p.Outline next ok pre post h)
    (hR : R s h) (hrun : p.exec sem e s = some (a, s')) : ∃ h', R s' h' ∧ post h' a := by
  induction p generalizing h s with
  | ret b =>
      cases hrun
      exact ⟨h, hR, hp⟩
  | op o k ih =>
      unfold Prog.exec at hrun
      obtain ⟨⟨r, s₁⟩, ho, hrest⟩ := Option.bind_eq_some_iff.mp hrun
      obtain ⟨hr, hR'⟩ := hsem hR hp.1 ho
      exact ih r (hp.2 r hr) hR' hrest

/-- An invariant of the annotation goes with the outline. -/
theorem Outline.keep {I : H → Prop} {h : H} {p : Prog Op Res α}
    (hp : p.Outline next ok pre post h) (h0 : I h) (hI : ∀ h o r, I h → I (next h o r)) :
    p.Outline next ok (fun h o => pre h o ∧ I h) (fun h a => post h a ∧ I h) h := by
  induction p generalizing h with
  | ret a => exact ⟨hp, h0⟩
  | op o k ih => exact ⟨⟨hp.1, h0⟩, fun r hr => ih r (hp.2 r hr) (hI h o r h0)⟩

/-- Two annotations side by side. -/
theorem Outline.prod {H' : Type} {next' : H' → (o : Op) → Res o → H'}
    {ok' : H' → (o : Op) → Res o → Prop} {pre' : H' → Op → Prop} {post' : H' → α → Prop} {h : H}
    {h' : H'} {p : Prog Op Res α} (hp : p.Outline next ok pre post h)
    (hp' : p.Outline next' ok' pre' post' h') :
    p.Outline (fun x o r => (next x.1 o r, next' x.2 o r))
      (fun x o r => ok x.1 o r ∧ ok' x.2 o r) (fun x o => pre x.1 o ∧ pre' x.2 o)
      (fun x a => post x.1 a ∧ post' x.2 a) (h, h') := by
  induction p generalizing h h' with
  | ret a => exact ⟨hp, hp'⟩
  | op o k ih => exact ⟨⟨hp.1, hp'.1⟩, fun r hr => ih r (hp.2 r hr.1) (hp'.2 r hr.2)⟩

end Prog

namespace Threads

variable {Tid Call Op S E B H α : Type} {Res : Op → Type} [DecidableEq Tid]

section OpenStep

variable (prog : Call → Prog Op Res α) (sem : Tid → E → S → (o : Op) → Option (Res o × S))
  (enter : Tid → Call → S → S) (leave : Tid → Call → α → S → S) (bg : B → S → Option S)

/-- One step of the open system. -/
def openStep (s : State Tid Call Op Res S α) :
    Label Tid Call E ⊕ B → Option (State Tid Call Op Res S α)
  | .inl (.call t c) =>
      match s.thread t with
      | none =>
          some {
            shared := enter t c s.shared
            thread := Function.update s.thread t (some (c, prog c)) }
      | some _ => none
  | .inl (.step t e) =>
      match s.thread t with
      | none => none
      | some (c, .ret a) =>
          some { shared := leave t c a s.shared, thread := Function.update s.thread t none }
      | some (c, .op o k) =>
          (sem t e s.shared o).map fun x =>
            { shared := x.2, thread := Function.update s.thread t (some (c, k x.1)) }
  | .inr b => (bg b s.shared).map fun sh => { s with shared := sh }

end OpenStep

variable {prog : Call → Prog Op Res α} {sem : Tid → E → S → (o : Op) → Option (Res o × S)}
  {enter : Tid → Call → S → S} {leave : Tid → Call → α → S → S} {bg : B → S → Option S}

/-- What a step of the open system can do. -/
theorem openStep_cases {s s' : State Tid Call Op Res S α} {l : Label Tid Call E ⊕ B}
    (h : openStep prog sem enter leave bg s l = some s') :
    (∃ t c, l = .inl (.call t c) ∧ s.thread t = none ∧
      s' = { shared := enter t c s.shared
             thread := Function.update s.thread t (some (c, prog c)) }) ∨
    (∃ t e c a, l = .inl (.step t e) ∧ s.thread t = some (c, .ret a) ∧
      s' = { shared := leave t c a s.shared, thread := Function.update s.thread t none }) ∨
    (∃ t e c o k r sh, l = .inl (.step t e) ∧ s.thread t = some (c, .op o k) ∧
      sem t e s.shared o = some (r, sh) ∧
      s' = { shared := sh, thread := Function.update s.thread t (some (c, k r)) }) ∨
    (∃ b sh, l = .inr b ∧ bg b s.shared = some sh ∧ s' = { s with shared := sh }) := by
  match l with
  | .inl (.call t c) =>
      unfold openStep at h
      cases ht : s.thread t with
      | some x => simp [ht] at h
      | none =>
          simp only [ht, Option.some.injEq] at h
          exact .inl ⟨t, c, rfl, ht, h.symm⟩
  | .inl (.step t e) =>
      unfold openStep at h
      cases ht : s.thread t with
      | none => simp [ht] at h
      | some x =>
          obtain ⟨c, p⟩ := x
          cases p with
          | ret a =>
              simp only [ht, Option.some.injEq] at h
              exact .inr (.inl ⟨t, e, c, a, rfl, ht, h.symm⟩)
          | op o k =>
              simp only [ht, Option.map_eq_some_iff] at h
              obtain ⟨⟨r, sh⟩, hsem, hs⟩ := h
              exact .inr (.inr (.inl ⟨t, e, c, o, k, r, sh, rfl, ht, hsem, hs.symm⟩))
  | .inr b =>
      obtain ⟨sh, hbg, hs⟩ := Option.map_eq_some_iff.mp h
      exact .inr (.inr (.inr ⟨b, sh, rfl, hbg, hs.symm⟩))

/-! ### One thread alone -/

/-- Only thread `t` makes steps, in an environment `e`, and the background
those that `allows` lets it. -/
def Only (t : Tid) (e : E) (allows : B → Prop) (_ : State Tid Call Op Res S α) :
    Label Tid Call E ⊕ B → Prop
  | .inl (.call _ _) => False
  | .inl (.step u e') => u = t ∧ e' = e
  | .inr b => allows b

/-- What the background does by itself. -/
abbrev Background (bg : B → S → Option S) (allows : B → Prop) : S → S → Prop :=
  Relation.ReflTransGen fun sh sh' => ∃ b, allows b ∧ bg b sh = some sh'

section Alone

variable {t : Tid} {e : E} {allows : B → Prop}

theorem reachable_of_background {s : State Tid Call Op Res S α} {sh : S}
    (h : Background bg allows s.shared sh) :
    Run.Reachable (openStep prog sem enter leave bg) (Only t e allows) s
      { s with shared := sh } := by
  induction h with
  | refl => exact Relation.ReflTransGen.refl
  | tail _ hb ih =>
      obtain ⟨b, hallows, hb⟩ := hb
      refine Relation.ReflTransGen.tail ih ⟨.inr b, hallows, ?_⟩
      simp [openStep, hb]

/-- **A call run alone is a run of the system**, when each operation is what
the background does followed by the thread's own step. -/
theorem reachable_of_exec_alone {X : Type} {solo : X → S → (o : Op) → Option (Res o × S)} {x : X}
    (hsolo : ∀ {sh o r sh'}, solo x sh o = some (r, sh') →
      ∃ sh₁, Background bg allows sh sh₁ ∧ sem t e sh₁ o = some (r, sh'))
    {s : State Tid Call Op Res S α} {c : Call} {p : Prog Op Res α} {a : α} {sh : S}
    (ht : s.thread t = some (c, p)) (h : p.exec solo x s.shared = some (a, sh)) :
    Run.Reachable (openStep prog sem enter leave bg) (Only t e allows) s
      { shared := leave t c a sh, thread := Function.update s.thread t none } := by
  induction p generalizing s with
  | ret b =>
      cases h
      exact Relation.ReflTransGen.single ⟨.inl (.step t e), ⟨rfl, rfl⟩, by simp [openStep, ht]⟩
  | op o k ih =>
      obtain ⟨⟨r, sh'⟩, ho, hrest⟩ := Option.bind_eq_some_iff.mp h
      obtain ⟨sh₁, hbg, hsem⟩ := hsolo ho
      have hnext := ih r (s := ⟨sh', Function.update s.thread t (some (c, k r))⟩) (by simp) hrest
      rw [Function.update_idem] at hnext
      refine (reachable_of_background hbg).trans
        (Relation.ReflTransGen.head ⟨.inl (.step t e), ⟨rfl, rfl⟩, ?_⟩ hnext)
      simp [openStep, ht, hsem]

end Alone

/-- The annotation `h` of a thread, idle or inside a call. -/
def Outlined (next : H → (o : Op) → Res o → H) (ok : Call → H → (o : Op) → Res o → Prop)
    (pre : Call → H → Op → Prop) (post : Call → H → α → Prop) (idle h : H) :
    Option (Call × Prog Op Res α) → Prop
  | none => h = idle
  | some (c, p) => p.Outline next (ok c) (pre c) (post c) h

variable {next : H → (o : Op) → Res o → H} {ok : Call → H → (o : Op) → Res o → Prop}
  {pre : Call → H → Op → Prop} {post : Call → H → α → Prop} {idle : H} {start : Call → H}
  {G : S → (Tid → H) → Prop}

/-- The other threads keep their annotations and their texts. -/
theorem outlined_update {thread : Tid → Option (Call × Prog Op Res α)} {ann : Tid → H}
    {t : Tid} {x : Option (Call × Prog Op Res α)} {h : H}
    (hann : ∀ u, Outlined next ok pre post idle (ann u) (thread u))
    (hx : Outlined next ok pre post idle h x) (u : Tid) :
    Outlined next ok pre post idle (Function.update ann t h u) (Function.update thread t x u) := by
  by_cases hut : u = t
  · subst hut
    simpa using hx
  · simpa [hut] using hann u

variable (idle) in
/-- **From outlines to interleavings.** In every guarded run there are
annotations that fit the texts of all threads and meet `G`. A thread that
enters a call can rely on them. -/
theorem outlined_of_reachable_all
    {guard : State Tid Call Op Res S α → Label Tid Call E ⊕ B → Prop}
    {s₀ s : State Tid Call Op Res S α}
    (h : Run.Reachable (openStep prog sem enter leave bg) guard s₀ s)
    (hprog : ∀ c, (prog c).Outline next (ok c) (pre c) (post c) (start c))
    (hidle : ∀ t, s₀.thread t = none) (hinit : G s₀.shared fun _ => idle)
    (hcall : ∀ {s : State Tid Call Op Res S α} {ann t c}, G s.shared ann →
      (∀ u, Outlined next ok pre post idle (ann u) (s.thread u)) →
      s.thread t = none → guard s (.inl (.call t c)) →
      G (enter t c s.shared) (Function.update ann t (start c)))
    (hret : ∀ {s : State Tid Call Op Res S α} {ann t e c a}, G s.shared ann →
      s.thread t = some (c, .ret a) → guard s (.inl (.step t e)) → post c (ann t) a →
      G (leave t c a s.shared) (Function.update ann t idle))
    (hop : ∀ {s : State Tid Call Op Res S α} {ann t e c o k r sh}, G s.shared ann →
      s.thread t = some (c, .op o k) → guard s (.inl (.step t e)) → pre c (ann t) o →
      sem t e s.shared o = some (r, sh) →
      ok c (ann t) o r ∧ G sh (Function.update ann t (next (ann t) o r)))
    (hbg : ∀ {s : State Tid Call Op Res S α} {ann b sh}, G s.shared ann →
      guard s (.inr b) → bg b s.shared = some sh → G sh ann) :
    ∃ ann, G s.shared ann ∧ ∀ t, Outlined next ok pre post idle (ann t) (s.thread t) := by
  apply h.invariant (I := fun s => ∃ ann, G s.shared ann ∧
    ∀ t, Outlined next ok pre post idle (ann t) (s.thread t))
  · refine ⟨fun _ => idle, hinit, fun t => ?_⟩
    rw [hidle]
    rfl
  rintro s l s' ⟨ann, hG, hann⟩ hg hs
  obtain ⟨t, c, rfl, ht, rfl⟩ | ⟨t, e, c, a, rfl, ht, rfl⟩ |
    ⟨t, e, c, o, k, r, sh, rfl, ht, ho, rfl⟩ | ⟨b, sh, rfl, hb, rfl⟩ := openStep_cases hs
  · exact ⟨_, hcall hG hann ht hg, outlined_update hann (hprog c)⟩
  · have hend := hann t
    rw [ht] at hend
    exact ⟨_, hret hG ht hg hend, outlined_update hann rfl⟩
  · have htext := hann t
    rw [ht] at htext
    obtain ⟨hr, hG'⟩ := hop hG ht hg htext.1 ho
    exact ⟨_, hG', outlined_update hann (htext.2 r hr)⟩
  · exact ⟨ann, hbg hG hg hb, hann⟩

variable (idle) in
/-- The same where a call relies on its own thread's annotation only. -/
theorem outlined_of_reachable
    {guard : State Tid Call Op Res S α → Label Tid Call E ⊕ B → Prop}
    {s₀ s : State Tid Call Op Res S α}
    (h : Run.Reachable (openStep prog sem enter leave bg) guard s₀ s)
    (hprog : ∀ c, (prog c).Outline next (ok c) (pre c) (post c) (start c))
    (hidle : ∀ t, s₀.thread t = none) (hinit : G s₀.shared fun _ => idle)
    (hcall : ∀ {s : State Tid Call Op Res S α} {ann t c}, G s.shared ann → ann t = idle →
      s.thread t = none → guard s (.inl (.call t c)) →
      G (enter t c s.shared) (Function.update ann t (start c)))
    (hret : ∀ {s : State Tid Call Op Res S α} {ann t e c a}, G s.shared ann →
      s.thread t = some (c, .ret a) → guard s (.inl (.step t e)) → post c (ann t) a →
      G (leave t c a s.shared) (Function.update ann t idle))
    (hop : ∀ {s : State Tid Call Op Res S α} {ann t e c o k r sh}, G s.shared ann →
      s.thread t = some (c, .op o k) → guard s (.inl (.step t e)) → pre c (ann t) o →
      sem t e s.shared o = some (r, sh) →
      ok c (ann t) o r ∧ G sh (Function.update ann t (next (ann t) o r)))
    (hbg : ∀ {s : State Tid Call Op Res S α} {ann b sh}, G s.shared ann →
      guard s (.inr b) → bg b s.shared = some sh → G sh ann) :
    ∃ ann, G s.shared ann ∧ ∀ t, Outlined next ok pre post idle (ann t) (s.thread t) := by
  refine outlined_of_reachable_all idle h hprog hidle hinit ?_ hret hop hbg
  intro s ann t c hG hann ht hg
  have hidle' := hann t
  rw [ht] at hidle'
  exact hcall hG hidle' ht hg

variable (idle) in
/-- The same for a closed system. -/
theorem outlined_of_reachable_step
    {guard : State Tid Call Op Res S α → Label Tid Call E → Prop}
    {s₀ s : State Tid Call Op Res S α} (h : Run.Reachable (step prog sem) guard s₀ s)
    (hprog : ∀ c, (prog c).Outline next (ok c) (pre c) (post c) (start c))
    (hidle : ∀ t, s₀.thread t = none) (hinit : G s₀.shared fun _ => idle)
    (hcall : ∀ {sh ann t c}, G sh ann → ann t = idle →
      G sh (Function.update ann t (start c)))
    (hret : ∀ {sh ann t c a}, G sh ann → post c (ann t) a → G sh (Function.update ann t idle))
    (hop : ∀ {s : State Tid Call Op Res S α} {ann t e c o k r sh}, G s.shared ann →
      s.thread t = some (c, .op o k) → guard s (.step t e) → pre c (ann t) o →
      sem t e s.shared o = some (r, sh) →
      ok c (ann t) o r ∧ G sh (Function.update ann t (next (ann t) o r))) :
    ∃ ann, G s.shared ann ∧ ∀ t, Outlined next ok pre post idle (ann t) (s.thread t) := by
  have hopen : Run.Reachable (openStep prog sem (fun _ _ sh => sh) (fun _ _ _ sh => sh)
      fun (_ : Empty) _ => none) (fun s l => l.elim (guard s) fun _ => True) s₀ s := by
    refine h.project (f := id) ?_
    intro s l s' hg hs
    refine .inr ⟨.inl l, hg, ?_⟩
    rw [id, id, ← hs]
    cases l <;> rfl
  refine outlined_of_reachable idle hopen hprog hidle hinit ?_ ?_ hop ?_
  · intro s ann t c hG ht _ _
    exact hcall hG ht
  · intro s ann t e c a hG _ _ hpost
    exact hret hG hpost
  · intro s ann b
    exact b.elim

end Threads
