import CorePartitioning.Lib.Decimal
import Mathlib.Data.List.DropRight

/-!
# Reading fields of a line

`strtok` and `sscanf`, as far as words and integers go. `sscanf` takes its
format as the list of directives that `directives` makes of the text; what
it returns is the values it stores, and a directive that does not match
ends it. Two facts carry the proofs about it: integers printed with `%d`
are read by any of the integer conversions, whatever their sizes
(`sscanf_spaced_render`), and a character that no integer has in it is not
passed over, so that too short a text before it does not feed many
conversions (`sscanf_spaced_short`).
-/

namespace Scan

open Decimal

/-! ## `strtok` -/

/-- The next token, and the text behind the delimiter that ends it. -/
def strtok (delim : Char → Bool) (s : List Char) : Option (List Char × List Char) :=
  let s := s.dropWhile delim
  if s = [] then none else some (s.takeWhile (!delim ·), (s.dropWhile (!delim ·)).tail)

/-- `w` is what `strtok` makes a token of. -/
structure Token (delim : Char → Bool) (w : List Char) : Prop where
  ne_nil : w ≠ []
  delim : ∀ c ∈ w, delim c = false

section strtok

variable {delim : Char → Bool} {w s t : List Char} {c : Char}

theorem strtok_delim (hc : delim c = true) : strtok delim (c :: s) = strtok delim s := by
  unfold strtok
  rw [List.dropWhile_cons_of_pos hc]

/-- What the token is where the text goes on after the word `w`. -/
theorem strtok_word (hw : Token delim w) :
    strtok delim (w ++ t) = some (w ++ t.takeWhile (!delim ·), (t.dropWhile (!delim ·)).tail) := by
  have hall : ∀ c ∈ w, (!delim c) = true := by simpa using hw.delim
  have hdrop : (w ++ t).dropWhile delim = w ++ t := by
    obtain ⟨c, cs, rfl⟩ := List.exists_cons_of_ne_nil hw.ne_nil
    rw [List.cons_append, List.dropWhile_cons_of_neg]
    simp [hw.delim c (List.mem_cons_self ..)]
  have hne : w ++ t ≠ [] := by simp [hw.ne_nil]
  unfold strtok
  rw [hdrop]
  dsimp only
  rw [if_neg hne, List.takeWhile_append_of_pos hall, List.dropWhile_append_of_pos hall]

/-- Words, each behind a delimiter. -/
def separated (c : Char) (ws : List (List Char)) : List Char := ws.flatMap (c :: ·)

theorem separated_append (c : Char) (ws vs : List (List Char)) :
    separated c (ws ++ vs) = separated c ws ++ separated c vs := by
  simp [separated]

theorem not_mem_separated {a : Char} {ws : List (List Char)} (hac : a ≠ c)
    (h : ∀ w ∈ ws, a ∉ w) : a ∉ separated c ws := by
  intro hmem
  obtain ⟨w, hw, hmem⟩ := List.mem_flatMap.mp hmem
  rcases List.mem_cons.mp hmem with hmem | hmem
  · exact hac hmem
  · exact h w hw hmem

/-- The word between two delimiters is a token. -/
theorem strtok_separated (hc : delim c = true) (hw : Token delim w) :
    strtok delim (w ++ c :: s) = some (w, s) := by
  rw [strtok_word hw, List.takeWhile_cons_of_neg (by simp [hc]),
    List.dropWhile_cons_of_neg (by simp [hc]), List.append_nil]
  rfl

end strtok

/-! ## Integers -/

def isHex (c : Char) : Bool :=
  c.isDigit || 97 ≤ c.toNat && c.toNat ≤ 102 || 65 ≤ c.toNat && c.toNat ≤ 70

def isOct (c : Char) : Bool := 48 ≤ c.toNat && c.toNat ≤ 55

def digitVal (c : Char) : Nat :=
  if c.isDigit then c.toNat - 48 else if c.isLower then c.toNat - 87 else c.toNat - 55

def valueOf (base : Nat) (ds : List Char) : Nat := ds.foldl (fun n c => base * n + digitVal c) 0

/-- A number whose digits satisfy `p`, and the text behind it. -/
def digits (p : Char → Bool) (base : Nat) (s : List Char) : Option (Int × List Char) :=
  if s.takeWhile p = [] then none else some (valueOf base (s.takeWhile p), s.dropWhile p)

/-- A number in base 10, or in the base its first characters give. -/
def number (anyBase : Bool) (s : List Char) : Option (Int × List Char) :=
  if anyBase = true ∧ (s.take 2 = ['0', 'x'] ∨ s.take 2 = ['0', 'X']) then
    digits isHex 16 (s.drop 2)
  else if anyBase = true ∧ s.head? = some '0' then digits isOct 8 s
  else digits Char.isDigit 10 s

/-- White space, a sign and a number. -/
def signed (anyBase : Bool) (s : List Char) : Option (Int × List Char) :=
  let s := s.dropWhile isSpace
  if s.head? = some '-' then (number anyBase s.tail).map fun (x, t) => (-x, t)
  else if s.head? = some '+' then number anyBase s.tail
  else number anyBase s

/-! ## `sscanf` -/

/-- The conversions, without the sizes of what they store. -/
inductive Conv
  | d | u | i | s | c
  deriving DecidableEq, Repr

inductive Value
  | int (x : Int)
  | text (cs : List Char)
  deriving DecidableEq, Repr

inductive Directive
  | space
  | lit (a : Char)
  | conv (star : Bool) (k : Conv)
  deriving DecidableEq, Repr

/-- Where in a format the next character stands: in the text, or in a
conversion whose value is stored or, after the star, is not. -/
inductive Mode
  | text
  | conv (star : Bool)

def Conv.ofChar (a : Char) : Option Conv :=
  if a = 'd' then some .d
  else if a = 'u' then some .u
  else if a = 'i' then some .i
  else if a = 's' then some .s
  else if a = 'c' then some .c
  else none

/-- The directives of a format. A conversion that is none of `Conv` ends
it; there are no field widths. -/
def directives : Mode → List Char → List Directive
  | _, [] => []
  | .text, a :: cs =>
      if a = '%' then directives (.conv false) cs
      else if isSpace a then .space :: directives .text cs
      else .lit a :: directives .text cs
  | .conv star, a :: cs =>
      if a = '*' then directives (.conv true) cs
      else if a = 'l' then directives (.conv star) cs
      else
        match Conv.ofChar a with
        | none => []
        | some k => .conv star k :: directives .text cs

def Conv.IsInt (k : Conv) : Prop := k ≠ .s ∧ k ≠ .c

instance (k : Conv) : Decidable k.IsInt := inferInstanceAs (Decidable (_ ∧ _))

/-- What a conversion reads and what is left. -/
def Conv.read (k : Conv) (s : List Char) : Option (Value × List Char) :=
  match k with
  | .s =>
      let s := s.dropWhile isSpace
      if s = [] then none
      else some (.text (s.takeWhile (!isSpace ·)), s.dropWhile (!isSpace ·))
  | .c => s.head?.map fun a => (.text [a], s.tail)
  | k => (signed (k = .i) s).map fun (x, t) => (.int x, t)

/-- The values stored. -/
def sscanf : List Directive → List Char → List Value
  | [], _ => []
  | .space :: ds, s => sscanf ds (s.dropWhile isSpace)
  | .lit a :: ds, s => if s.head? = some a then sscanf ds s.tail else []
  | .conv star k :: ds, s =>
      match k.read s with
      | none => []
      | some (v, t) => if star then sscanf ds t else v :: sscanf ds t

/-- What a format with one integer to store has stored; `none` where it has
ended before. -/
def stored : List Value → Option Int
  | .int x :: _ => some x
  | _ => none

/-! ## Printed integers are read back -/

/-- The text goes on with white space, or ends. -/
def Blank (t : List Char) : Prop := ∀ c ∈ t.head?, isSpace c = true

section render

variable {t : List Char}

theorem Blank.noDigit (ht : Blank t) : NoDigit t := by
  intro c hc
  by_contra hdigit
  have hspace := isSpace_of_isDigit (by simpa using hdigit)
  rw [ht c hc] at hspace
  cases hspace

theorem isSpace_le {c : Char} (h : isSpace c = true) : c.toNat ≤ 32 := by
  simp only [isSpace, Bool.or_eq_true, Bool.and_eq_true, decide_eq_true_eq] at h
  omega

theorem foldl_valueOf {ds : List Char} (hds : ∀ c ∈ ds, c.isDigit = true) (n : Nat) :
    ds.foldl (fun n c => 10 * n + digitVal c) n = natPrefix n ds := by
  induction ds generalizing n with
  | nil => rfl
  | cons c ds ih =>
      have hc := hds c (List.mem_cons_self ..)
      rw [List.foldl_cons, natPrefix, if_pos hc, digitVal, if_pos hc]
      exact ih (fun d hd => hds d (List.mem_cons_of_mem _ hd)) _

theorem digits_append {p : Char → Bool} {base : Nat} {ds : List Char} (hne : ds ≠ [])
    (hds : ∀ c ∈ ds, p c = true) (ht : ∀ c ∈ t.head?, p c = false) :
    digits p base (ds ++ t) = some ((valueOf base ds : Int), t) := by
  have htake : t.takeWhile p = [] := by
    cases t with
    | nil => rfl
    | cons c t => exact List.takeWhile_cons_of_neg (by simp [ht c rfl])
  have hdrop : t.dropWhile p = t := by
    cases t with
    | nil => rfl
    | cons c t => exact List.dropWhile_cons_of_neg (by simp [ht c rfl])
  rw [digits, List.takeWhile_append_of_pos hds, List.dropWhile_append_of_pos hds, htake, hdrop,
    List.append_nil, if_neg hne]

theorem digits_toDigits (n : Nat) (ht : NoDigit t) :
    digits Char.isDigit 10 (Nat.toDigits 10 n ++ t) = some ((n : Int), t) := by
  have hall : ∀ c ∈ Nat.toDigits 10 n, c.isDigit = true := fun c hc => isDigit_of_mem hc
  rw [digits_append Nat.toDigits_ne_nil hall ht, valueOf, foldl_valueOf hall, natPrefix_toDigits]

/-- Only zero is printed with a zero in front. -/
theorem toDigits_head {n : Nat} (hn : 0 < n) : (Nat.toDigits 10 n).head? ≠ some '0' := by
  induction n using Nat.strong_induction_on with
  | _ n ih =>
      rcases Nat.lt_or_ge n 10 with hlt | hge
      · have hdigit : ∀ d < 10, 0 < d → Nat.digitChar d ≠ '0' := by decide
        rw [Nat.toDigits_of_lt_base hlt]
        simpa using hdigit n hlt hn
      · rw [Nat.toDigits_of_base_le (by decide) hge,
          List.head?_append_of_ne_nil _ Nat.toDigits_ne_nil]
        exact ih (n / 10) (by omega) (by omega)

theorem number_toDigits (b : Bool) (n : Nat) (ht : Blank t) :
    number b (Nat.toDigits 10 n ++ t) = some ((n : Int), t) := by
  have hbase10 := digits_toDigits n ht.noDigit
  rcases Nat.eq_zero_or_pos n with rfl | hpos
  · -- the zero alone, in whatever base
    have hzero : Nat.toDigits 10 0 = ['0'] := rfl
    rw [hzero] at hbase10 ⊢
    cases b with
    | false => exact hbase10
    | true =>
        have hoct : ∀ c ∈ t.head?, isOct c = false := by
          intro c hc
          have hspace := isSpace_le (ht c hc)
          simp [isOct]
          omega
        have hx : ∀ c ∈ t.head?, c ≠ 'x' ∧ c ≠ 'X' := by
          intro c hc
          have hspace := isSpace_le (ht c hc)
          constructor <;> rintro rfl <;> exact absurd hspace (by decide)
        have hprefix : ¬ ((['0'] ++ t).take 2 = ['0', 'x'] ∨ (['0'] ++ t).take 2 = ['0', 'X']) := by
          cases t with
          | nil => simp
          | cons c t => simpa using not_or.mpr (hx c rfl)
        have hread : digits isOct 8 (['0'] ++ t) = some (0, t) :=
          digits_append (by simp) (by simp [isOct]) hoct
        rw [number, if_neg (fun h => hprefix h.2), if_pos ⟨rfl, rfl⟩, hread]
        rfl
  · obtain ⟨c, cs, hdigits, hc⟩ := toDigits_cons n
    have hhead := toDigits_head hpos
    rw [hdigits] at hhead hbase10 ⊢
    have hc0 : c ≠ '0' := by simpa using hhead
    rw [number, if_neg (by simp [hc0]), if_neg (by simp [hc0]), hbase10]

/-- **An integer that `%d` has printed is read by every conversion.** -/
theorem signed_render (b : Bool) (x : Int) (ht : Blank t) :
    signed b (render x ++ t) = some (x, t) := by
  unfold render
  split
  · rename_i hneg
    have hminus : isSpace '-' = false := by decide
    have hnumber := number_toDigits b x.natAbs ht
    rw [signed, List.cons_append, List.dropWhile_cons_of_neg (by simp [hminus])]
    dsimp only
    rw [List.head?_cons, if_pos rfl, List.tail_cons, hnumber, Option.map_some]
    congr 2
    omega
  · obtain ⟨c, cs, hdigits, hc⟩ := toDigits_cons x.natAbs
    have hnumber := number_toDigits b x.natAbs ht
    have hspace := isSpace_of_isDigit hc
    have hminus : c ≠ '-' := by
      rintro rfl
      cases hc
    have hplus : c ≠ '+' := by
      rintro rfl
      cases hc
    rw [hdigits] at hnumber ⊢
    rw [signed, List.cons_append, List.dropWhile_cons_of_neg (by simp [hspace])]
    dsimp only
    rw [if_neg (by simpa using hminus), if_neg (by simpa using hplus), ← List.cons_append, hnumber]
    congr 2
    omega

end render

/-! ## What ends an integer -/

/-- No integer has `c` in it, and no white space is it. -/
structure Foreign (c : Char) : Prop where
  isSpace : isSpace c = false
  isHex : isHex c = false
  sign : c ≠ '-' ∧ c ≠ '+'
  x : c ≠ 'x' ∧ c ≠ 'X'

section foreign

variable {c : Char} {w r s : List Char} {x : Int} {b : Bool} {p : Char → Bool}

theorem takeWhile_stop (hc : p c = false) : (w ++ c :: r).takeWhile p = w.takeWhile p := by
  induction w with
  | nil => exact List.takeWhile_cons_of_neg (by simp [hc])
  | cons a w ih =>
      rw [List.cons_append, List.takeWhile_cons, List.takeWhile_cons, ih]

theorem dropWhile_stop (hc : p c = false) :
    (w ++ c :: r).dropWhile p = w.dropWhile p ++ c :: r := by
  induction w with
  | nil => exact List.dropWhile_cons_of_neg (by simp [hc])
  | cons a w ih =>
      rw [List.cons_append, List.dropWhile_cons, List.dropWhile_cons, ih]
      split <;> rfl

/-- What is left, with the text from `c` on behind it. -/
def before (c : Char) (r : List Char) (q : Int × List Char) : Int × List Char :=
  (q.1, q.2 ++ c :: r)

theorem digits_stop {base : Nat} (hc : p c = false) :
    digits p base (w ++ c :: r) = (digits p base w).map (before c r) := by
  unfold digits
  rw [takeWhile_stop hc, dropWhile_stop hc]
  split <;> rfl

theorem Foreign.isDigit (hc : Foreign c) : c.isDigit = false := by
  have hhex := hc.isHex
  simp only [Scan.isHex, Bool.or_eq_false_iff] at hhex
  exact hhex.1.1

theorem Foreign.isOct (hc : Foreign c) : isOct c = false := by
  have hdigit := hc.isDigit
  simp only [Char.isDigit, UInt32.le_iff_toNat_le, ge_iff_le, Bool.and_eq_false_iff,
    decide_eq_false_iff_not, not_le] at hdigit
  simp only [Scan.isOct, Bool.and_eq_false_iff, decide_eq_false_iff_not, not_le]
  rcases hdigit with hlo | hhi
  · exact Or.inl hlo
  · exact Or.inr (lt_trans (by decide) hhi)

theorem number_stop (hc : Foreign c) :
    number b (w ++ c :: r) = (number b w).map (before c r) := by
  have hzero : c ≠ '0' := by
    rintro rfl
    exact absurd hc.isDigit (by decide)
  have htake : (w ++ c :: r).take 2 = ['0', 'x'] ∨ (w ++ c :: r).take 2 = ['0', 'X'] ↔
      w.take 2 = ['0', 'x'] ∨ w.take 2 = ['0', 'X'] := by
    match w with
    | [] => simp [hzero]
    | [a] => simp [hc.x]
    | a :: a' :: w => simp
  have hhead : (w ++ c :: r).head? = some '0' ↔ w.head? = some '0' := by
    cases w with
    | nil => simp [hzero]
    | cons a w => simp
  unfold number
  simp only [htake, hhead]
  split
  · rename_i hx
    have hlength : 2 ≤ w.length := by
      rcases hx.2 with hx | hx <;> simpa [hx] using List.length_take_le' 2 w
    rw [List.drop_append_of_le_length hlength]
    exact digits_stop hc.isHex
  · split
    · exact digits_stop hc.isOct
    · exact digits_stop hc.isDigit

theorem signed_stop (hc : Foreign c) :
    signed b (w ++ c :: r) = (signed b w).map (before c r) := by
  unfold signed
  rw [dropWhile_stop hc.isSpace]
  cases w.dropWhile isSpace with
  | nil =>
      have hnumber := number_stop (b := b) (w := []) (r := r) hc
      simpa [hc.sign] using hnumber
  | cons a v =>
      have hnumber := number_stop (b := b) (w := a :: v) (r := r) hc
      by_cases hminus : a = '-'
      · simp [hminus, number_stop hc, before, Function.comp_def]
      · by_cases hplus : a = '+'
        · simp [hplus, number_stop hc]
        · simpa [hminus, hplus] using hnumber

/-! ## What an integer takes -/

theorem digits_length {base : Nat} (h : digits p base w = some (x, s)) : s.length < w.length := by
  unfold digits at h
  split at h
  · cases h
  · rename_i hne
    cases h
    have hpos := List.length_pos_iff.mpr hne
    have hsum := congrArg List.length (List.takeWhile_append_dropWhile (p := p) (l := w))
    rw [List.length_append] at hsum
    omega

theorem digits_noDigit {base : Nat} (h : digits Char.isDigit base w = some (x, s)) :
    NoDigit s := by
  unfold digits at h
  split at h
  · cases h
  · cases h
    intro c hc
    have hhead := List.head?_dropWhile_not Char.isDigit w
    rw [hc] at hhead
    exact hhead

theorem number_length (h : number b w = some (x, s)) : s.length < w.length := by
  unfold number at h
  split at h
  · have hlt := digits_length h
    rw [List.length_drop] at hlt
    omega
  · split at h <;> exact digits_length h

theorem number_noDigit (h : number false w = some (x, s)) : NoDigit s := by
  simp only [number, Bool.false_eq_true, false_and, if_false] at h
  exact digits_noDigit h

theorem number_eq_none (hw : NoDigit w) : number b w = none := by
  have hzero : w.head? ≠ some '0' := fun h => absurd (hw '0' h) (by decide)
  have hx : ¬ (w.take 2 = ['0', 'x'] ∨ w.take 2 = ['0', 'X']) := by
    rintro (h | h) <;> exact hzero (by simpa [List.head?_take] using congrArg List.head? h)
  have htake : w.takeWhile Char.isDigit = [] := by
    cases w with
    | nil => rfl
    | cons a w => exact List.takeWhile_cons_of_neg (by simp [hw a rfl])
  rw [number, if_neg (fun h => hx h.2), if_neg (fun h => hzero h.2), digits, if_pos htake]

/-- The number stands behind the white space, or further on. -/
theorem number_of_signed (h : signed b w = some (x, s)) :
    ∃ y t, number b t = some (y, s) ∧
      (t = w.dropWhile isSpace ∨ t.length < (w.dropWhile isSpace).length) := by
  have htail : ∀ a, (w.dropWhile isSpace).head? = some a →
      (w.dropWhile isSpace).tail.length < (w.dropWhile isSpace).length := by
    intro a ha
    cases hv : w.dropWhile isSpace with
    | nil => simp [hv] at ha
    | cons a v => simp
  unfold signed at h
  dsimp only at h
  by_cases hminus : (w.dropWhile isSpace).head? = some '-'
  · rw [if_pos hminus] at h
    obtain ⟨⟨y, t⟩, hy, hq⟩ := Option.map_eq_some_iff.mp h
    cases hq
    exact ⟨y, _, hy, Or.inr (htail _ hminus)⟩
  · rw [if_neg hminus] at h
    by_cases hplus : (w.dropWhile isSpace).head? = some '+'
    · rw [if_pos hplus] at h
      exact ⟨x, _, h, Or.inr (htail _ hplus)⟩
    · rw [if_neg hplus] at h
      exact ⟨x, _, h, Or.inl rfl⟩

theorem signed_length (h : signed b w = some (x, s)) : s.length < w.length := by
  obtain ⟨y, t, hy, ht⟩ := number_of_signed h
  have hlt := number_length hy
  have hle := (List.dropWhile_suffix (l := w) isSpace).length_le
  rcases ht with rfl | ht <;> omega

theorem signed_noDigit (h : signed false w = some (x, s)) : NoDigit s := by
  obtain ⟨y, t, hy, -⟩ := number_of_signed h
  exact number_noDigit hy

/-- Where no digit is next, white space or a sign is taken with the
digits. -/
theorem signed_length_of_noDigit (hw : NoDigit w) (h : signed b w = some (x, s)) :
    s.length + 2 ≤ w.length := by
  obtain ⟨y, t, hy, ht⟩ := number_of_signed h
  have hlt := number_length hy
  have hle := (List.dropWhile_suffix (l := w) isSpace).length_le
  rcases ht with rfl | ht
  · cases w with
    | nil => cases hlt
    | cons a w =>
        by_cases hspace : isSpace a = true
        · rw [List.dropWhile_cons_of_pos hspace] at hlt
          have hle := (List.dropWhile_suffix (l := w) isSpace).length_le
          rw [List.length_cons]
          omega
        · -- the number would begin with `a`
          rw [List.dropWhile_cons_of_neg hspace, number_eq_none hw] at hy
          cases hy
  · omega

end foreign

/-! ## Runs of conversions -/

/-- Conversions of a format that only pass over what they read. -/
def spaced (ks : List Conv) : List Directive := ks.flatMap fun k => [.space, .conv true k]

section runs

variable {ks : List Conv} {es : List Directive} {s t w r : List Char} {c : Char}

theorem read_int {k : Conv} (hk : k.IsInt) (s : List Char) :
    k.read s = (signed (k = .i) s).map fun (x, t) => (.int x, t) := by
  obtain ⟨hs, hc⟩ := hk
  cases k with
  | d | u | i => rfl
  | s => cases hs rfl
  | c => cases hc rfl

/-- White space in the format does not matter before an integer. -/
theorem signed_dropWhile (b : Bool) (s : List Char) :
    signed b (s.dropWhile isSpace) = signed b s := by
  unfold signed
  rw [List.dropWhile_idempotent]

theorem sscanf_space_conv {k : Conv} (hk : k.IsInt) (star : Bool) :
    sscanf (.space :: .conv star k :: es) s =
      match signed (k = .i) s with
      | none => []
      | some (x, t) => if star then sscanf es t else .int x :: sscanf es t := by
  rw [sscanf, sscanf, read_int hk, signed_dropWhile]
  cases signed (k = .i) s <;> rfl

theorem Blank.separated (ht : Blank t) (ws : List (List Char)) :
    Blank (separated ' ' ws ++ t) := by
  cases ws with
  | nil => exact ht
  | cons w ws =>
      intro c hc
      cases hc
      rfl

theorem signed_space {a : Char} (ha : isSpace a = true) (b : Bool) (s : List Char) :
    signed b (a :: s) = signed b s := by
  unfold signed
  rw [List.dropWhile_cons_of_pos ha]

/-- **A run of integers is passed over**, one conversion each. -/
theorem sscanf_spaced_render (hks : ∀ k ∈ ks, k.IsInt) {xs : List Int}
    (hlength : xs.length = ks.length) (ht : Blank t) :
    sscanf (spaced ks ++ es) (separated ' ' (xs.map render) ++ t) = sscanf es t := by
  induction ks generalizing xs with
  | nil =>
      cases List.length_eq_zero_iff.mp hlength
      rfl
  | cons k ks ih =>
      obtain ⟨x, xs, rfl⟩ := List.exists_cons_of_length_eq_add_one hlength
      have hread := signed_render (k = .i) x (ht.separated (xs.map render))
      show sscanf (.space :: .conv true k :: (spaced ks ++ es))
        (' ' :: (render x ++ separated ' ' (xs.map render)) ++ t) = _
      rw [sscanf_space_conv (hks k (List.mem_cons_self ..)), List.cons_append,
        signed_space (by decide), List.append_assoc, hread]
      exact ih (fun k hk => hks k (List.mem_cons_of_mem _ hk)) (by simpa using hlength)

/-- The last one is stored. -/
theorem sscanf_stored {k : Conv} (hk : k.IsInt) {a : Char} (ha : isSpace a = true) (x : Int)
    (ht : Blank t) : sscanf [.space, .conv false k] (a :: (render x ++ t)) = [.int x] := by
  rw [sscanf_space_conv hk, signed_space ha, signed_render _ x ht]
  rfl

/-- The least number of characters that a run takes, where a digit may be
next or not. Only behind `%i` can a digit be next, after octal digits. -/
def cost : Bool → List Conv → Nat
  | _, [] => 0
  | digit, k :: ks => (if digit then 1 else 2) + cost (k = .i) ks

/-- **A run of conversions does not get past `c`**: it ends there, or has
taken at least its cost before. -/
theorem sscanf_spaced_short (hc : Foreign c) (hks : ∀ k ∈ ks, k.IsInt) {digit : Bool}
    (hw : digit = false → NoDigit w) :
    sscanf (spaced ks ++ es) (w ++ c :: r) = [] ∨ cost digit ks ≤ w.length := by
  induction ks generalizing w digit with
  | nil => exact Or.inr (Nat.zero_le _)
  | cons k ks ih =>
      show sscanf (.space :: .conv true k :: (spaced ks ++ es)) (w ++ c :: r) = [] ∨ _
      rw [sscanf_space_conv (hks k (List.mem_cons_self ..)), signed_stop hc]
      cases hread : signed (k = .i) w with
      | none => exact Or.inl rfl
      | some q =>
          obtain ⟨x, s⟩ := q
          have hs : decide (k = .i) = false → NoDigit s := by
            intro hk
            rw [hk] at hread
            exact signed_noDigit hread
          rcases ih (fun k hk => hks k (List.mem_cons_of_mem _ hk)) hs with hend | hcost
          · exact Or.inl hend
          · right
            rw [cost]
            cases digit with
            | true =>
                have hlt := signed_length hread
                rw [if_pos rfl]
                omega
            | false =>
                have hlt := signed_length_of_noDigit (hw rfl) hread
                rw [if_neg Bool.false_ne_true]
                omega

/-! ## Words and characters -/

theorem exists_first_space {s : List Char} (h : ∃ c ∈ s, isSpace c = true) :
    ∃ a c b, s = a ++ c :: b ∧ (∀ x ∈ a, isSpace x = false) ∧ isSpace c = true := by
  induction s with
  | nil => simp at h
  | cons y s ih =>
      by_cases hy : isSpace y = true
      · exact ⟨[], y, s, rfl, by simp, hy⟩
      · obtain ⟨a, c, b, rfl, ha, hc⟩ := ih (by simpa [hy] using h)
        refine ⟨y :: a, c, b, rfl, ?_, hc⟩
        intro x hx
        rcases List.mem_cons.mp hx with rfl | hx
        · simpa using hy
        · exact ha x hx

theorem sscanf_space_word (ds : List Directive) {w t : List Char} (hw : Token isSpace w)
    (ht : Blank t) :
    sscanf (.space :: .conv true .s :: ds) (' ' :: (w ++ t)) = sscanf ds t := by
  have hall : ∀ c ∈ w, (!isSpace c) = true := by simpa using hw.delim
  have hdrop : (' ' :: (w ++ t)).dropWhile isSpace = w ++ t := by
    obtain ⟨c, cs, rfl⟩ := List.exists_cons_of_ne_nil hw.ne_nil
    rw [List.dropWhile_cons_of_pos (by decide), List.cons_append, List.dropWhile_cons_of_neg]
    simp [hw.delim c (List.mem_cons_self ..)]
  have hrest : t.dropWhile (!isSpace ·) = t := by
    cases t with
    | nil => rfl
    | cons c t => exact List.dropWhile_cons_of_neg (by simp [ht c rfl])
  have hne : w ++ t ≠ [] := by simp [hw.ne_nil]
  rw [sscanf, sscanf, Conv.read, List.dropWhile_idempotent, hdrop]
  rw [if_neg hne, List.dropWhile_append_of_pos hall, hrest]
  rfl

theorem sscanf_space_char (ds : List Directive) {a : Char} {s t : List Char}
    (hs : s.dropWhile isSpace = a :: t) :
    sscanf (.space :: .conv true .c :: ds) s = sscanf ds t := by
  rw [sscanf, hs]
  rfl

theorem signed_eq_none {a : Char} (b : Bool) (s : List Char) (hspace : isSpace a = false)
    (hdigit : a.isDigit = false) (hsign : a ≠ '-' ∧ a ≠ '+') : signed b (a :: s) = none := by
  have hno : NoDigit (a :: s) := by
    intro c hc
    cases hc
    exact hdigit
  rw [signed, List.dropWhile_cons_of_neg (by simp [hspace])]
  dsimp only
  rw [if_neg (by simpa using hsign.1), if_neg (by simpa using hsign.2), number_eq_none hno]

end runs

end Scan
