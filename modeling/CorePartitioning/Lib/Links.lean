import Mathlib.Data.Finset.Card
import Mathlib.Data.List.Chain
import Mathlib.Data.List.Nodup

/-!
# Doubly linked lists between two sentinels

`next` and `prev` are the links of all nodes there are, `none` is NULL. The
links of the sentinels that point outwards do not matter. `Linked` reads the
links in both directions at once, so reversing it exchanges them, and the
two changes that list code makes, a node put in front and a node taken out,
are relations between the links before and after. What order the four or
two assignments were made in does not show in them.
-/

namespace Links

variable {α : Type*}

/-- `a` and `b` are neighbours, in this order. -/
def Joined (next prev : α → Option α) (a b : α) : Prop := next a = some b ∧ prev b = some a

/-- `l` is the list between `header` and `tail`. -/
structure Linked (next prev : α → Option α) (header : α) (l : List α) (tail : α) : Prop where
  joined : List.IsChain (Joined next prev) (header :: (l ++ [tail]))
  nodup : (header :: (l ++ [tail])).Nodup

variable {next prev next' prev' : α → Option α} {header tail x : α} {l l₁ l₂ : List α}

theorem Linked.nil (hnext : next header = some tail) (hprev : prev tail = some header)
    (hne : header ≠ tail) : Linked next prev header [] tail := by
  constructor
  · simpa using ⟨hnext, hprev⟩
  · simpa using hne

theorem Linked.reverse (h : Linked next prev header l tail) :
    Linked prev next tail l.reverse header := by
  have hrev : tail :: (l.reverse ++ [header]) = (header :: (l ++ [tail])).reverse := by simp
  constructor
  · rw [hrev, List.isChain_reverse]
    exact h.joined.imp fun a b hab => hab.symm
  · rw [hrev, List.nodup_reverse]
    exact h.nodup

theorem Linked.header_not_mem (h : Linked next prev header l tail) : header ∉ l := by
  intro hmem
  exact (List.nodup_cons.mp h.nodup).1 (List.mem_append_left _ hmem)

theorem Linked.tail_not_mem (h : Linked next prev header l tail) : tail ∉ l := by
  have hnot := h.reverse.header_not_mem
  rwa [List.mem_reverse] at hnot

theorem Linked.nodup_nodes (h : Linked next prev header l tail) : l.Nodup :=
  (List.nodup_append.mp (List.nodup_cons.mp h.nodup).2).1

/-- A set that holds all nodes is larger than the list. -/
theorem Linked.length_lt_card [DecidableEq α] {E : Finset α} (h : Linked next prev header l tail)
    (hE : ∀ p ∈ header :: (l ++ [tail]), p ∈ E) : l.length < E.card := by
  have hsub : (header :: (l ++ [tail])).toFinset ⊆ E := by
    intro p hp
    exact hE p (List.mem_toFinset.mp hp)
  have hcard := Finset.card_le_card hsub
  rw [List.toFinset_card_of_nodup h.nodup] at hcard
  simp only [List.length_cons, List.length_append, List.length_nil] at hcard
  omega

/-- The node behind the header. -/
theorem Linked.next_header (h : Linked next prev header l tail) :
    next header = (l ++ [tail]).head? ∧ ∀ n, next header = some n → prev n = some header := by
  have hj := h.joined
  cases l with
  | nil =>
      obtain ⟨hn, hp⟩ : Joined next prev header tail := by simpa using hj
      exact ⟨hn, fun n hn' => by cases hn.symm.trans hn'; exact hp⟩
  | cons a l =>
      obtain ⟨⟨hn, hp⟩, -⟩ := List.isChain_cons_cons.mp hj
      exact ⟨hn, fun n hn' => by cases hn.symm.trans hn'; exact hp⟩

/-! ## Frames -/

/-- A chain reads `next` of all its nodes but the last and `prev` of all but
the first. -/
theorem joined_congr (hchain : List.IsChain (Joined next prev) l)
    (hnext : ∀ a ∈ l.dropLast, next' a = next a) (hprev : ∀ b ∈ l.tail, prev' b = prev b) :
    List.IsChain (Joined next' prev') l := by
  induction l with
  | nil => exact List.isChain_nil
  | cons a l ih =>
      cases l with
      | nil => exact List.isChain_singleton a
      | cons b l =>
          obtain ⟨⟨hn, hp⟩, hrest⟩ := List.isChain_cons_cons.mp hchain
          apply List.isChain_cons_cons.mpr
          constructor
          · exact ⟨(hnext a (by simp)).trans hn, (hprev b (by simp)).trans hp⟩
          · apply ih hrest
            · intro c hc
              exact hnext c (by simp [hc])
            · intro c hc
              exact hprev c (List.mem_of_mem_tail hc)

theorem Linked.congr (h : Linked next prev header l tail)
    (hnext : ∀ a ∈ header :: l, next' a = next a)
    (hprev : ∀ b ∈ l ++ [tail], prev' b = prev b) : Linked next' prev' header l tail := by
  constructor
  · apply joined_congr h.joined
    · intro a ha
      rw [← List.cons_append, List.dropLast_concat] at ha
      exact hnext a ha
    · exact hprev
  · exact h.nodup

/-! ## Walks -/

/-- The loop `while (x != stop) x = link(x)`: the nodes it passes. -/
def walk [DecidableEq α] (link : α → Option α) (stop : α) : Nat → α → Option (List α)
  | 0, _ => none
  | fuel + 1, x =>
      if x = stop then some []
      else (link x).bind fun y => (walk link stop fuel y).map (x :: ·)

theorem walk_of_chain [DecidableEq α] {link : α → Option α} {stop : α} {fuel : Nat}
    (h : List.IsChain (fun a b => link a = some b) (x :: (l ++ [stop]))) (hstop : stop ∉ l)
    (hfuel : l.length < fuel) : (link x).bind (walk link stop fuel) = some l := by
  induction l generalizing x fuel with
  | nil =>
      obtain ⟨fuel, rfl⟩ := Nat.exists_eq_add_one_of_ne_zero (Nat.ne_of_gt hfuel)
      have hx : link x = some stop := by simpa using h
      rw [hx, Option.bind_some, walk, if_pos rfl]
  | cons a l ih =>
      obtain ⟨fuel, rfl⟩ := Nat.exists_eq_add_one_of_ne_zero (Nat.ne_zero_of_lt hfuel)
      obtain ⟨hx, hrest⟩ := List.isChain_cons_cons.mp h
      simp only [List.mem_cons, not_or] at hstop
      rw [hx, Option.bind_some, walk, if_neg (Ne.symm hstop.1)]
      calc (link a).bind (fun y => (walk link stop fuel y).map (a :: ·))
          = ((link a).bind (walk link stop fuel)).map (a :: ·) := (Option.map_bind ..).symm
        _ = some (a :: l) := by
            rw [ih hrest hstop.2 (Nat.lt_of_succ_lt_succ hfuel)]
            rfl

/-- **Following `next` from the header passes the list.** -/
theorem Linked.walk_next [DecidableEq α] (h : Linked next prev header l tail) {fuel : Nat}
    (hfuel : l.length < fuel) : (next header).bind (walk next tail fuel) = some l :=
  walk_of_chain (h.joined.imp fun _ _ hab => hab.1) h.tail_not_mem hfuel

/-- **Following `prev` from the tail passes it in reverse.** -/
theorem Linked.walk_prev [DecidableEq α] (h : Linked next prev header l tail) {fuel : Nat}
    (hfuel : l.length < fuel) : (prev tail).bind (walk prev header fuel) = some l.reverse :=
  h.reverse.walk_next (by simpa using hfuel)

/-! ## A node put in front -/

/-- `x` now stands between `header` and what was behind it. -/
structure Pushed (next prev next' prev' : α → Option α) (header x : α) : Prop where
  next_header : next' header = some x
  next_new : next' x = next header
  prev_new : prev' x = some header
  prev_old : ∀ n, next header = some n → prev' n = some x
  next_other : ∀ a, a ≠ header → a ≠ x → next' a = next a
  prev_other : ∀ b, b ≠ x → next header ≠ some b → prev' b = prev b

theorem pushed_update [DecidableEq α] (prev : α → Option α) {n : α}
    (hn : next header = some n) (hheader : header ≠ x) (hnx : n ≠ x) :
    Pushed next prev (Function.update (Function.update next x (some n)) header (some x))
      (Function.update (Function.update prev x (some header)) n (some x)) header x where
  next_header := by simp
  next_new := by simp [hheader.symm, hn]
  prev_new := by simp [hnx.symm]
  prev_old m hm := by
    obtain rfl : n = m := Option.some.inj (hn.symm.trans hm)
    simp
  next_other a ha hax := by simp [ha, hax]
  prev_other b hbx hb := by
    have hbn : b ≠ n := by
      rintro rfl
      exact hb hn
    simp [hbn, hbx]

theorem Linked.push (h : Linked next prev header l tail)
    (hp : Pushed next prev next' prev' header x) (hfresh : x ∉ header :: (l ++ [tail])) :
    Linked next' prev' header (x :: l) tail := by
  obtain ⟨hhead, -⟩ := h.next_header
  have hx : ∀ a ∈ header :: (l ++ [tail]), a ≠ x := by
    rintro a ha rfl
    exact hfresh ha
  have hnodup := List.nodup_cons.mp h.nodup
  constructor
  · rw [List.cons_append]
    apply List.isChain_cons_cons.mpr
    constructor
    · exact ⟨hp.next_header, hp.prev_new⟩
    · -- from the old first node on, only its `prev` has changed
      have hchain := h.joined
      cases hl : l ++ [tail] with
      | nil => simp at hl
      | cons n rest =>
          rw [hl] at hhead hx hchain hnodup
          have hn : next header = some n := hhead
          have hnr := List.nodup_cons.mp hnodup.2
          apply List.isChain_cons_cons.mpr
          constructor
          · exact ⟨hp.next_new.trans hn, hp.prev_old n hn⟩
          · apply joined_congr (List.isChain_cons_cons.mp hchain).2
            · intro a ha
              have hmem : a ∈ n :: rest := List.dropLast_subset _ ha
              apply hp.next_other a
              · rintro rfl
                exact hnodup.1 hmem
              · exact hx a (List.mem_cons_of_mem _ hmem)
            · intro b hb
              apply hp.prev_other b
              · exact hx b (List.mem_cons_of_mem _ (List.mem_cons_of_mem _ hb))
              · rw [hn]
                rintro ⟨⟩
                exact hnr.1 hb
  · have hperm : (header :: (x :: l ++ [tail])).Perm (x :: header :: (l ++ [tail])) := by
      simpa using List.Perm.swap x header (l ++ [tail])
    rw [hperm.nodup_iff, List.nodup_cons]
    exact ⟨hfresh, h.nodup⟩

/-! ## A node taken out -/

theorem mem_middle {a b c : α} :
    c ∈ a :: (l₁ ++ x :: l₂ ++ [b]) ↔ c = x ∨ c ∈ a :: (l₁ ++ l₂ ++ [b]) := by
  simp only [List.mem_cons, List.mem_append]
  tauto

theorem mem_front {a b c : α} :
    c ∈ a :: (x :: l ++ [b]) ↔ c = x ∨ c ∈ a :: (l ++ [b]) := by
  show c ∈ a :: ([] ++ x :: l ++ [b]) ↔ _
  exact mem_middle

/-- The nodes on both sides of `x`. -/
theorem Linked.around (h : Linked next prev header (l₁ ++ x :: l₂) tail) :
    ∃ A p n B, header :: l₁ = A ++ [p] ∧ l₂ ++ [tail] = n :: B ∧
      List.IsChain (Joined next prev) (A ++ p :: x :: n :: B) ∧ (A ++ p :: x :: n :: B).Nodup := by
  obtain ⟨A, p, hA⟩ : ∃ A p, header :: l₁ = A ++ [p] := by
    rcases List.eq_nil_or_concat (header :: l₁) with hnil | ⟨A, p, hA⟩
    · cases hnil
    · exact ⟨A, p, by simpa using hA⟩
  obtain ⟨n, B, hB⟩ : ∃ n B, l₂ ++ [tail] = n :: B := List.exists_cons_of_ne_nil (by simp)
  have hall : header :: (l₁ ++ x :: l₂ ++ [tail]) = A ++ p :: x :: n :: B := by
    calc header :: (l₁ ++ x :: l₂ ++ [tail])
        = (header :: l₁) ++ x :: (l₂ ++ [tail]) := by simp
      _ = A ++ p :: x :: n :: B := by
          rw [hA, hB]
          simp
  have hchain := h.joined
  have hnodup := h.nodup
  rw [hall] at hchain hnodup
  exact ⟨A, p, n, B, hA, hB, hchain, hnodup⟩

/-- Both neighbours are there. -/
theorem Linked.neighbours (h : Linked next prev header (l₁ ++ x :: l₂) tail) :
    ∃ p ∈ header :: l₁, ∃ n ∈ l₂ ++ [tail], prev x = some p ∧ next x = some n := by
  obtain ⟨A, p, n, B, hA, hB, hchain, -⟩ := h.around
  obtain ⟨-, hpx, hrest⟩ := List.isChain_append_cons_cons.mp hchain
  obtain ⟨hxn, -⟩ := List.isChain_cons_cons.mp hrest
  exact ⟨p, by simp [hA], n, by simp [hB], hpx.2, hxn.1⟩

theorem Linked.ne_neighbours (h : Linked next prev header (l₁ ++ x :: l₂) tail) {p n : α}
    (hp : p ∈ header :: l₁) (hn : n ∈ l₂ ++ [tail]) : p ≠ x ∧ n ≠ x := by
  have hall : header :: (l₁ ++ x :: l₂ ++ [tail]) = (header :: l₁) ++ x :: (l₂ ++ [tail]) := by
    simp
  have hnodup := h.nodup
  rw [hall] at hnodup
  obtain ⟨-, hright, hapart⟩ := List.nodup_append.mp hnodup
  constructor
  · exact hapart p hp x (by simp)
  · rintro rfl
    exact (List.nodup_cons.mp hright).1 hn

theorem Linked.not_mem_rest (h : Linked next prev header (l₁ ++ x :: l₂) tail) :
    x ∉ header :: (l₁ ++ l₂ ++ [tail]) := by
  have hperm : (header :: (l₁ ++ x :: l₂ ++ [tail])).Perm
      (x :: header :: (l₁ ++ l₂ ++ [tail])) := by
    have hmiddle : ((header :: l₁) ++ x :: (l₂ ++ [tail])).Perm
        (x :: ((header :: l₁) ++ (l₂ ++ [tail]))) := List.perm_middle
    simpa using hmiddle
  exact (List.nodup_cons.mp (hperm.nodup_iff.mp h.nodup)).1

/-- The neighbours of `x` are now each other's. -/
structure Unlinked (next prev next' prev' : α → Option α) (x : α) : Prop where
  next_before : ∀ p, prev x = some p → next' p = next x
  prev_behind : ∀ n, next x = some n → prev' n = prev x
  next_other : ∀ a, prev x ≠ some a → a ≠ x → next' a = next a
  prev_other : ∀ b, next x ≠ some b → b ≠ x → prev' b = prev b

theorem unlinked_update [DecidableEq α] {p n : α} (hp : prev x = some p) (hn : next x = some n) :
    Unlinked next prev (Function.update next p (some n)) (Function.update prev n (some p)) x where
  next_before q hq := by
    obtain rfl : p = q := Option.some.inj (hp.symm.trans hq)
    simp [hn]
  prev_behind m hm := by
    obtain rfl : n = m := Option.some.inj (hn.symm.trans hm)
    simp [hp]
  next_other a ha _ := by
    have hap : a ≠ p := by
      rintro rfl
      exact ha hp
    simp [hap]
  prev_other b hb _ := by
    have hbn : b ≠ n := by
      rintro rfl
      exact hb hn
    simp [hbn]

/-- The links of `x` itself are free. -/
theorem Unlinked.clear [DecidableEq α] (h : Unlinked next prev next' prev' x)
    (hp : prev x ≠ some x) (hn : next x ≠ some x) (u v : Option α) :
    Unlinked next prev (Function.update next' x u) (Function.update prev' x v) x where
  next_before p hpx := by
    have hne : p ≠ x := by
      rintro rfl
      exact hp hpx
    rw [Function.update_of_ne hne]
    exact h.next_before p hpx
  prev_behind n hnx := by
    have hne : n ≠ x := by
      rintro rfl
      exact hn hnx
    rw [Function.update_of_ne hne]
    exact h.prev_behind n hnx
  next_other a ha hax := by
    rw [Function.update_of_ne hax]
    exact h.next_other a ha hax
  prev_other b hb hbx := by
    rw [Function.update_of_ne hbx]
    exact h.prev_other b hb hbx

theorem Linked.unlink (h : Linked next prev header (l₁ ++ x :: l₂) tail)
    (hu : Unlinked next prev next' prev' x) : Linked next' prev' header (l₁ ++ l₂) tail := by
  obtain ⟨A, p, n, B, hA, hB, hchain, hnodup⟩ := h.around
  have hafter : header :: (l₁ ++ l₂ ++ [tail]) = A ++ p :: n :: B := by
    calc header :: (l₁ ++ l₂ ++ [tail])
        = (header :: l₁) ++ (l₂ ++ [tail]) := by simp
      _ = A ++ p :: n :: B := by
          rw [hA, hB]
          simp
  obtain ⟨hpre, hpx, hrest⟩ := List.isChain_append_cons_cons.mp hchain
  obtain ⟨hxn, hpost⟩ := List.isChain_cons_cons.mp hrest
  obtain ⟨-, hright, hapart⟩ := List.nodup_append.mp hnodup
  simp only [List.nodup_cons, List.mem_cons, not_or] at hright
  obtain ⟨⟨hpx_ne, hpn_ne, hpB⟩, ⟨hxn_ne, hxB⟩, hnB, -⟩ := hright
  constructor
  · rw [hafter]
    apply List.isChain_append_cons_cons.mpr
    refine ⟨?_, ⟨?_, ?_⟩, ?_⟩
    · apply joined_congr hpre
      · intro a ha
        rw [List.dropLast_concat] at ha
        apply hu.next_other a
        · rw [hpx.2]
          rintro ⟨⟩
          exact hapart p ha p (by simp) rfl
        · exact hapart a ha x (by simp)
      · intro b hb
        rcases List.mem_append.mp (List.mem_of_mem_tail hb) with hb | hb
        · apply hu.prev_other b
          · rw [hxn.1]
            rintro ⟨⟩
            exact hapart n hb n (by simp) rfl
          · exact hapart b hb x (by simp)
        · obtain rfl := List.mem_singleton.mp hb
          apply hu.prev_other b
          · rw [hxn.1]
            rintro ⟨⟩
            exact hpn_ne rfl
          · exact hpx_ne
    · exact (hu.next_before p hpx.2).trans hxn.1
    · exact (hu.prev_behind n hxn.1).trans hpx.2
    · apply joined_congr hpost
      · intro a ha
        have hmem : a ∈ n :: B := List.dropLast_subset _ ha
        apply hu.next_other a
        · rw [hpx.2]
          rintro ⟨⟩
          rcases List.mem_cons.mp hmem with rfl | hmem
          · exact hpn_ne rfl
          · exact hpB hmem
        · rintro rfl
          rcases List.mem_cons.mp hmem with rfl | hmem
          · exact hxn_ne rfl
          · exact hxB hmem
      · intro b hb
        apply hu.prev_other b
        · rw [hxn.1]
          rintro ⟨⟩
          exact hnB hb
        · rintro rfl
          exact hxB hb
  · rw [hafter]
    have hsub : (A ++ p :: n :: B).Sublist (A ++ p :: x :: n :: B) := by simp
    exact hnodup.sublist hsub

/-! ## Another list -/

variable {a b : α} {k : List α}

/-- A list that shares no node with the one that is pushed to stays. -/
theorem Linked.of_pushed (h : Linked next prev a k b) (hl : Linked next prev header l tail)
    (hp : Pushed next prev next' prev' header x)
    (hapart : List.Disjoint (header :: (l ++ [tail])) (a :: (k ++ [b])))
    (hx : x ∉ a :: (k ++ [b])) : Linked next' prev' a k b := by
  have hne : ∀ c ∈ a :: (k ++ [b]), c ≠ x := by
    rintro c hc rfl
    exact hx hc
  apply h.congr
  · intro c hc
    have hc' : c ∈ a :: (k ++ [b]) := by
      rw [← List.cons_append]
      exact List.mem_append_left _ hc
    apply hp.next_other c
    · rintro rfl
      exact hapart (List.mem_cons_self ..) hc'
    · exact hne c hc'
  · intro c hc
    have hc' : c ∈ a :: (k ++ [b]) := List.mem_cons_of_mem _ hc
    apply hp.prev_other c (hne c hc')
    intro hfirst
    -- `c` would be the first node of the other list
    have hmem : c ∈ l ++ [tail] := by
      apply List.mem_of_mem_head?
      rw [← hl.next_header.1, hfirst]
      rfl
    exact hapart (List.mem_cons_of_mem _ hmem) hc'

/-- A list that shares no node with the one that loses `x` stays. -/
theorem Linked.of_unlinked (h : Linked next prev a k b)
    (hl : Linked next prev header (l₁ ++ x :: l₂) tail) (hu : Unlinked next prev next' prev' x)
    (hapart : List.Disjoint (header :: (l₁ ++ x :: l₂ ++ [tail])) (a :: (k ++ [b]))) :
    Linked next' prev' a k b := by
  obtain ⟨p, hp, n, hn, hprev, hnext⟩ := hl.neighbours
  have hx : x ∈ header :: (l₁ ++ x :: l₂ ++ [tail]) := by simp
  have hp : p ∈ header :: (l₁ ++ x :: l₂ ++ [tail]) := by
    simp only [List.mem_cons, List.mem_append] at hp ⊢
    tauto
  have hn : n ∈ header :: (l₁ ++ x :: l₂ ++ [tail]) := by
    simp only [List.mem_cons, List.mem_append] at hn ⊢
    tauto
  have hne : ∀ {c d}, c ∈ header :: (l₁ ++ x :: l₂ ++ [tail]) → d ∈ a :: (k ++ [b]) → d ≠ c := by
    rintro c d hc hd rfl
    exact hapart hc hd
  apply h.congr
  · intro c hc
    have hc' : c ∈ a :: (k ++ [b]) := by
      rw [← List.cons_append]
      exact List.mem_append_left _ hc
    apply hu.next_other c
    · rw [hprev]
      rintro ⟨⟩
      exact hapart hp hc'
    · exact hne hx hc'
  · intro c hc
    have hc' : c ∈ a :: (k ++ [b]) := List.mem_cons_of_mem _ hc
    apply hu.prev_other c
    · rw [hnext]
      rintro ⟨⟩
      exact hapart hn hc'
    · exact hne hx hc'

/-- `x` is taken out where it is and put in front behind `header`. -/
def Moved (next prev next' prev' : α → Option α) (header x : α) : Prop :=
  ∃ next₁ prev₁, Unlinked next prev next₁ prev₁ x ∧ Pushed next₁ prev₁ next' prev' header x

/-- **From one list to another.** -/
theorem Linked.move {c d : α} {k : List α} (h : Linked next prev header (l₁ ++ x :: l₂) tail)
    (h' : Linked next prev c k d) (hm : Moved next prev next' prev' c x)
    (hapart : List.Disjoint (header :: (l₁ ++ x :: l₂ ++ [tail])) (c :: (k ++ [d]))) :
    Linked next' prev' header (l₁ ++ l₂) tail ∧ Linked next' prev' c (x :: k) d := by
  obtain ⟨next₁, prev₁, hu, hp⟩ := hm
  have hleft := h.unlink hu
  have hright := h'.of_unlinked h hu hapart
  have hx : x ∉ c :: (k ++ [d]) := hapart (by simp)
  have hx' : x ∉ header :: (l₁ ++ l₂ ++ [tail]) := h.not_mem_rest
  have hapart' : List.Disjoint (c :: (k ++ [d])) (header :: (l₁ ++ l₂ ++ [tail])) := by
    intro y hy hy'
    apply hapart _ hy
    exact mem_middle.mpr (Or.inr hy')
  exact ⟨hleft.of_pushed hright hp hapart' hx', hright.push hp hx⟩

end Links
