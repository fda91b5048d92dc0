import Mathlib.Data.Nat.Digits.Defs
import Mathlib.Data.Int.Basic

/-!
# Decimal numbers in lines of text

What C prints with `%d` and reads back with `fgets` and `atoi`. `atoi` is
for numbers that fit: it does not wrap around. The round trip is
`atoi_render`, and `fgets_line` says that a buffer with room for the line
takes the line and nothing else.
-/

namespace Decimal

/-! ## Printing -/

/-- `%d`. -/
def render (x : Int) : List Char :=
  if x < 0 then '-' :: Nat.toDigits 10 x.natAbs else Nat.toDigits 10 x.natAbs

/-- `%d` and a newline. -/
def line (x : Int) : List Char := render x ++ ['\n']

theorem isDigit_of_mem {n : Nat} {c : Char} (h : c ∈ Nat.toDigits 10 n) : c.isDigit = true :=
  Nat.isDigit_of_mem_toDigits (by decide) (by decide) h

theorem newline_not_mem_render (x : Int) : '\n' ∉ render x := by
  intro h
  unfold render at h
  split at h
  · rcases List.mem_cons.mp h with h | h
    · cases h
    · exact absurd (isDigit_of_mem h) (by decide)
  · exact absurd (isDigit_of_mem h) (by decide)

theorem length_render_le {x : Int} {k : Nat} (hk : 0 < k) (hnonneg : 0 ≤ x) (h : x < 10 ^ k) :
    (render x).length ≤ k := by
  have hnat : x.natAbs < 10 ^ k := by
    zify
    rwa [abs_of_nonneg hnonneg]
  rw [render, if_neg (by omega)]
  exact (Nat.length_toDigits_le_iff (by decide) hk).mpr hnat

theorem length_render_le_of_natAbs {x : Int} {k : Nat} (hk : 0 < k) (h : x.natAbs < 10 ^ k) :
    (render x).length ≤ k + 1 := by
  have hlength := (Nat.length_toDigits_le_iff (by decide) hk).mpr h
  rw [render]
  split
  · simpa using hlength
  · omega

/-! ## `atoi` -/

/-- `isspace`. -/
def isSpace (c : Char) : Bool := c.toNat = 32 || 9 ≤ c.toNat && c.toNat ≤ 13

/-- The digits up to the first character that is none. -/
def natPrefix (acc : Nat) : List Char → Nat
  | [] => acc
  | c :: cs => if c.isDigit then natPrefix (10 * acc + (c.toNat - 48)) cs else acc

def atoi (s : List Char) : Int :=
  match s.dropWhile isSpace with
  | [] => 0
  | c :: cs =>
      if c = '-' then -(natPrefix 0 cs)
      else if c = '+' then natPrefix 0 cs
      else natPrefix 0 (c :: cs)

theorem natPrefix_append {ds : List Char} (hds : ∀ d ∈ ds, d.isDigit = true) (rest : List Char)
    (acc : Nat) : natPrefix acc (ds ++ rest) = natPrefix (natPrefix acc ds) rest := by
  induction ds generalizing acc with
  | nil => rfl
  | cons d ds ih =>
      have hd := hds d (List.mem_cons_self ..)
      simp only [List.cons_append, natPrefix, if_pos hd]
      exact ih (fun d hd => hds d (List.mem_cons_of_mem _ hd)) _

theorem natPrefix_digitChar (acc : Nat) {d : Nat} (hd : d < 10) :
    natPrefix acc [Nat.digitChar d] = 10 * acc + d := by
  have hvalue : ∀ d < 10, (Nat.digitChar d).isDigit = true ∧ (Nat.digitChar d).toNat - 48 = d := by
    decide
  obtain ⟨hdigit, hval⟩ := hvalue d hd
  rw [natPrefix, if_pos hdigit, hval, natPrefix]

/-- The digits of `n` have the value `n`. -/
theorem natPrefix_toDigits (n : Nat) : natPrefix 0 (Nat.toDigits 10 n) = n := by
  induction n using Nat.strong_induction_on with
  | _ n ih =>
      rcases Nat.lt_or_ge n 10 with hlt | hge
      · rw [Nat.toDigits_of_lt_base hlt, natPrefix_digitChar 0 hlt]
        omega
      · rw [Nat.toDigits_of_base_le (by decide) hge,
          natPrefix_append fun d hd => isDigit_of_mem hd, ih (n / 10) (by omega),
          natPrefix_digitChar _ (Nat.mod_lt n (by decide))]
        omega

/-- The text does not go on with a digit. -/
def NoDigit (t : List Char) : Prop := ∀ c ∈ t.head?, c.isDigit = false

theorem natPrefix_noDigit {t : List Char} (ht : NoDigit t) (acc : Nat) : natPrefix acc t = acc := by
  cases t with
  | nil => rfl
  | cons c t => rw [natPrefix, ht c rfl, if_neg Bool.false_ne_true]

theorem natPrefix_toDigits_append (n : Nat) {t : List Char} (ht : NoDigit t) :
    natPrefix 0 (Nat.toDigits 10 n ++ t) = n := by
  rw [natPrefix_append fun d hd => isDigit_of_mem hd, natPrefix_toDigits, natPrefix_noDigit ht]

theorem toNat_of_isDigit {c : Char} (h : c.isDigit = true) : 48 ≤ c.toNat ∧ c.toNat ≤ 57 := by
  simp only [Char.isDigit, Bool.and_eq_true, decide_eq_true_eq, ge_iff_le,
    UInt32.le_iff_toNat_le] at h
  exact h

theorem isSpace_of_isDigit {c : Char} (h : c.isDigit = true) : isSpace c = false := by
  obtain ⟨hlo, hhi⟩ := toNat_of_isDigit h
  simp [isSpace]
  omega

theorem isSpace_render_eq_false {x : Int} {c : Char} (h : c ∈ render x) : isSpace c = false := by
  unfold render at h
  split at h
  · rcases List.mem_cons.mp h with rfl | h
    · decide
    · exact isSpace_of_isDigit (isDigit_of_mem h)
  · exact isSpace_of_isDigit (isDigit_of_mem h)

theorem render_ne_nil (x : Int) : render x ≠ [] := by
  unfold render
  split
  · exact List.cons_ne_nil _ _
  · exact Nat.toDigits_ne_nil

/-- The first digit. -/
theorem toDigits_cons (n : Nat) : ∃ c cs, Nat.toDigits 10 n = c :: cs ∧ c.isDigit = true := by
  obtain ⟨c, cs, hdigits⟩ := List.exists_cons_of_ne_nil (Nat.toDigits_ne_nil (n := n) (b := 10))
  have hc : c.isDigit = true := by
    apply isDigit_of_mem (n := n)
    rw [hdigits]
    exact List.mem_cons_self ..
  exact ⟨c, cs, hdigits, hc⟩

/-- **`atoi` reads back what `%d` has printed.** -/
theorem atoi_render (x : Int) {t : List Char} (ht : NoDigit t) : atoi (render x ++ t) = x := by
  unfold render
  split
  · rename_i hneg
    have hspace : isSpace '-' = false := by decide
    rw [List.cons_append, atoi, List.dropWhile_cons_of_neg (by simp [hspace])]
    dsimp only
    rw [if_pos rfl, natPrefix_toDigits_append _ ht]
    omega
  · rename_i hnonneg
    obtain ⟨c, cs, hdigits, hc⟩ := toDigits_cons x.natAbs
    have hspace := isSpace_of_isDigit hc
    have hminus : c ≠ '-' := by
      rintro rfl
      cases hc
    have hplus : c ≠ '+' := by
      rintro rfl
      cases hc
    have hvalue := natPrefix_toDigits_append x.natAbs ht
    rw [hdigits] at hvalue ⊢
    rw [List.cons_append, atoi, List.dropWhile_cons_of_neg (by simp [hspace])]
    dsimp only
    rw [if_neg hminus, if_neg hplus, ← List.cons_append, hvalue]
    omega

theorem atoi_line (x : Int) : atoi (line x) = x := by
  apply atoi_render x
  intro c hc
  cases hc
  rfl

/-! ## `fgets` -/

/-- At most `n` characters, up to a newline. -/
def takeLine : Nat → List Char → List Char × List Char
  | 0, text => ([], text)
  | _ + 1, [] => ([], [])
  | n + 1, c :: text =>
      if c = '\n' then ([c], text)
      else
        let (buf, rest) := takeLine n text
        (c :: buf, rest)

/-- What `fgets` puts in a buffer of `n` characters, and the rest of the
text; `none` at its end. -/
def fgets (n : Nat) (text : List Char) : Option (List Char × List Char) :=
  if text = [] then none else some (takeLine (n - 1) text)

/-- What stands before the newline is taken first. -/
theorem takeLine_append {l : List Char} (h : '\n' ∉ l) (rest : List Char) {n : Nat}
    (hn : l.length ≤ n) :
    takeLine n (l ++ rest) =
      (l ++ (takeLine (n - l.length) rest).1, (takeLine (n - l.length) rest).2) := by
  induction l generalizing n with
  | nil => rfl
  | cons c l ih =>
      cases n with
      | zero => cases hn
      | succ n =>
          simp only [List.mem_cons, not_or] at h
          rw [List.cons_append, takeLine, if_neg (Ne.symm h.1), ih h.2 (Nat.le_of_succ_le_succ hn),
            List.length_cons, Nat.add_sub_add_right]
          rfl

theorem takeLine_newline {l : List Char} (h : '\n' ∉ l) (rest : List Char) {n : Nat}
    (hn : l.length < n) : takeLine n (l ++ '\n' :: rest) = (l ++ ['\n'], rest) := by
  obtain ⟨m, hm⟩ : ∃ m, n - l.length = m + 1 := ⟨n - l.length - 1, by omega⟩
  rw [takeLine_append h _ hn.le, hm, takeLine, if_pos rfl]

/-- The first character taken is the first of the text. -/
theorem takeLine_head (n : Nat) (text : List Char) :
    ∀ c ∈ (takeLine n text).1.head?, c ∈ text.head? := by
  intro c hc
  cases n with
  | zero => cases hc
  | succ n =>
      cases text with
      | nil => cases hc
      | cons d text =>
          rw [takeLine] at hc
          split at hc <;> exact hc

theorem length_takeLine (n : Nat) (text : List Char) :
    (takeLine n text).1.length + (takeLine n text).2.length = text.length := by
  induction n generalizing text with
  | zero => simp [takeLine]
  | succ n ih =>
      cases text with
      | nil => rfl
      | cons c text =>
          rw [takeLine]
          split
          · simp [Nat.add_comm]
          · have hsum := ih text
            simp only [List.length_cons]
            omega

/-- With room for a character, one is taken. -/
theorem length_fgets {n : Nat} {text line rest : List Char} (hn : 2 ≤ n)
    (h : fgets n text = some (line, rest)) : rest.length < text.length := by
  have hsum := length_takeLine (n - 1) text
  unfold fgets at h
  split at h
  · cases h
  · rename_i hne
    rw [Option.some.inj h] at hsum
    obtain ⟨m, hm⟩ : ∃ m, n - 1 = m + 1 := ⟨n - 2, by omega⟩
    obtain ⟨c, text, rfl⟩ := List.exists_cons_of_ne_nil hne
    have hpos : 0 < line.length := by
      rw [hm, takeLine] at h
      split at h <;> cases Option.some.inj h <;> simp
    dsimp only at hsum
    omega

/-- **A buffer with room for the line gets the line.** -/
theorem fgets_line {x : Int} {n : Nat} (h : (render x).length + 1 < n) (rest : List Char) :
    fgets n (line x ++ rest) = some (line x, rest) := by
  have hne : line x ++ rest ≠ [] := by simp [line]
  rw [fgets, if_neg hne, line, List.append_assoc, List.singleton_append,
    takeLine_newline (newline_not_mem_render x) rest (by omega)]

end Decimal
