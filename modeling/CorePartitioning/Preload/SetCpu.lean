import CorePartitioning.Lib.Decimal
import CorePartitioning.Lib.IntRange

/-!
# affinity.c — set_cpu

What `set_cpu` reads from `/proc/KU/dynamic` and the mask it installs, in
SINGLE, CROSS and PER mode. The macros are those of `ld_preload.h`, which
has its own. The misspelt names and the stray token that keep the CROSS and
PER parts from compiling are read as intended.
-/

namespace CorePartitioning.Preload.SetCpu

open Decimal

abbrev MAX_CPUS : Int := 20
abbrev NUMBER_OF_SOCKETS : Nat := 2
abbrev CORES_PER_SOCKET : Int := 10

/-- Index `k` of an array with a cell for each socket. -/
def socket? (k : Int) : Option (Fin NUMBER_OF_SOCKETS) :=
  if h : 0 ≤ k ∧ k < NUMBER_OF_SOCKETS then some ⟨k.toNat, by omega⟩ else none

/-! ## Masks -/

abbrev CPU_SETSIZE : Int := 1024

/-- `CPU_SET`: a number that does not fit the set is left out. -/
def CPU_SET (n : Int) (mask : Finset Int) : Finset Int :=
  if 0 ≤ n ∧ n < CPU_SETSIZE then insert n mask else mask

/-- `for (n = lo; n < hi; n++) CPU_SET(n, &mask);` -/
def setRange (lo hi : Int) (mask : Finset Int) : Finset Int :=
  (Int.range lo hi).foldl (fun mask n => CPU_SET n mask) mask

theorem mem_foldl_CPU_SET {l : List Int} (hl : ∀ n ∈ l, 0 ≤ n ∧ n < CPU_SETSIZE)
    (mask : Finset Int) (core : Int) :
    core ∈ l.foldl (fun mask n => CPU_SET n mask) mask ↔ core ∈ mask ∨ core ∈ l := by
  induction l generalizing mask with
  | nil => simp
  | cons n l ih =>
      have hn := hl n (List.mem_cons_self ..)
      rw [List.foldl_cons, ih (fun n hn => hl n (List.mem_cons_of_mem _ hn)), CPU_SET, if_pos hn,
        Finset.mem_insert, List.mem_cons]
      tauto

theorem mem_setRange (lo hi : Int) (hlo : 0 ≤ lo) (hhi : hi ≤ CPU_SETSIZE) (mask : Finset Int)
    (core : Int) : core ∈ setRange lo hi mask ↔ core ∈ mask ∨ lo ≤ core ∧ core < hi := by
  have hfits : ∀ n ∈ Int.range lo hi, 0 ≤ n ∧ n < CPU_SETSIZE := by
    intro n hn
    obtain ⟨hge, hlt⟩ := Int.mem_range_iff.mp hn
    exact ⟨hlo.trans hge, hlt.trans_le hhi⟩
  rw [setRange, mem_foldl_CPU_SET hfits, Int.mem_range_iff]

/-! ## SINGLE -/

/-- `net_end` and `file_start`. -/
def readSingle (dynamic : List Char) : Option (Int × Int) := do
  let (net, dynamic) ← fgets 9 dynamic
  let (blk, _) ← fgets 9 dynamic
  return (atoi net, atoi blk)

def set_cpuSingle (dynamic : List Char) (NetorFile : Int) : Option (Finset Int) := do
  let (net_end, file_start) ← readSingle dynamic
  if NetorFile = 0 then
    return setRange (net_end + 1) file_start ∅
  else
    return setRange file_start MAX_CPUS ∅

/-! ## CROSS and PER -/

/-- The cells of one socket. -/
structure PerSocket where
  net_start_per : Int
  net_end_per : Int
  blk_start_per : Int
  blk_end_per : Int
  deriving DecidableEq

def readSocket (dynamic : List Char) : Option (PerSocket × List Char) := do
  let (net_start_per_c, dynamic) ← fgets 9 dynamic
  let (net_end_per_c, dynamic) ← fgets 9 dynamic
  let (blk_start_per_c, dynamic) ← fgets 9 dynamic
  let (blk_end_per_c, dynamic) ← fgets 9 dynamic
  return ({
    net_start_per := atoi net_start_per_c
    net_end_per := atoi net_end_per_c
    blk_start_per := atoi blk_start_per_c
    blk_end_per := atoi blk_end_per_c }, dynamic)

/-- Both sockets, in the order of the arrays. -/
def readSockets (dynamic : List Char) : Option (Fin NUMBER_OF_SOCKETS → PerSocket) := do
  let (zero, dynamic) ← readSocket dynamic
  let (one, _) ← readSocket dynamic
  return fun
    | 0 => zero
    | 1 => one

/-- `soc_num` and the sockets. -/
def readCross (dynamic : List Char) : Option (Int × (Fin NUMBER_OF_SOCKETS → PerSocket)) := do
  let (socket_number, dynamic) ← fgets 9 dynamic
  let per ← readSockets dynamic
  return (atoi socket_number, per)

/-- `for (i = 1; i <= soc_num; i++)` with `k = NUMBER_OF_SOCKETS - i`. -/
def overSockets (soc_num : Int) (body : Fin NUMBER_OF_SOCKETS → Finset Int → Finset Int) :
    Option (Finset Int) :=
  (Int.range 1 (soc_num + 1)).foldlM (fun mask i => do
    let k ← socket? (NUMBER_OF_SOCKETS - i)
    return body k mask) ∅

def set_cpuCross (dynamic : List Char) (NetorFile : Int) : Option (Finset Int) := do
  let (soc_num, per) ← readCross dynamic
  if NetorFile = 0 then
    overSockets soc_num fun k => setRange ((per k).net_end_per + 1) (per k).blk_start_per
  else
    overSockets soc_num fun k => setRange (per k).blk_start_per ((per k).blk_end_per + 1)

def set_cpuPer (dynamic : List Char) (current_core NetorFile : Int) : Option (Finset Int) := do
  let per ← readSockets dynamic
  let current_node ← socket? (current_core.tdiv CORES_PER_SOCKET)
  if NetorFile = 0 then
    return setRange ((per current_node).net_end_per + 1) (per current_node).blk_start_per ∅
  else
    -- the loop runs up to `blk_end_per` and leaves it out
    return setRange (per current_node).blk_start_per (per current_node).blk_end_per ∅

theorem mem_overSockets {soc_num : Int} (hnum : soc_num = 1 ∨ soc_num = 2)
    (lo hi : Fin NUMBER_OF_SOCKETS → Int) (hlo : ∀ k, 0 ≤ lo k) (hhi : ∀ k, hi k ≤ CPU_SETSIZE) :
    ∃ m, overSockets soc_num (fun k => setRange (lo k) (hi k)) = some m ∧
      ∀ core, core ∈ m ↔ ∃ k : Fin NUMBER_OF_SOCKETS,
        NUMBER_OF_SOCKETS - soc_num ≤ k ∧ lo k ≤ core ∧ core < hi k := by
  rcases hnum with rfl | rfl
  · refine ⟨setRange (lo 1) (hi 1) ∅, rfl, fun core => ?_⟩
    rw [mem_setRange _ _ (hlo 1) (hhi 1), Fin.exists_fin_two]
    simp
  · refine ⟨setRange (lo 0) (hi 0) (setRange (lo 1) (hi 1) ∅), rfl, fun core => ?_⟩
    rw [mem_setRange _ _ (hlo 0) (hhi 0), mem_setRange _ _ (hlo 1) (hhi 1), Fin.exists_fin_two]
    simp
    tauto

/-! ## Reading what was printed -/

/-- The number fits a buffer, with its newline. -/
def Fits (x : Int) : Prop := 0 ≤ x ∧ x < 10 ^ 7

theorem Fits.fgets {x : Int} (h : Fits x) (rest : List Char) :
    fgets 9 (line x ++ rest) = some (line x, rest) := by
  have hlen := length_render_le (k := 7) (by decide) h.1 h.2
  exact fgets_line (by omega) rest

/-- The lines of one socket. -/
def PerSocket.lines (c : PerSocket) : List Char :=
  line c.net_start_per ++ (line c.net_end_per ++ (line c.blk_start_per ++ line c.blk_end_per))

structure PerSocket.Fits (c : PerSocket) : Prop where
  net_start : SetCpu.Fits c.net_start_per
  net_end : SetCpu.Fits c.net_end_per
  blk_start : SetCpu.Fits c.blk_start_per
  blk_end : SetCpu.Fits c.blk_end_per

theorem readSingle_lines {net_end blk_start : Int} (hnet : Fits net_end) (hblk : Fits blk_start) :
    readSingle (line net_end ++ line blk_start) = some (net_end, blk_start) := by
  have hlast := hblk.fgets []
  rw [List.append_nil] at hlast
  simp only [readSingle, hnet.fgets, hlast, Option.bind_eq_bind, Option.bind_some, atoi_line]
  rfl

theorem readSocket_lines {c : PerSocket} (h : c.Fits) (rest : List Char) :
    readSocket (c.lines ++ rest) = some (c, rest) := by
  simp only [readSocket, PerSocket.lines, List.append_assoc, h.net_start.fgets, h.net_end.fgets,
    h.blk_start.fgets, h.blk_end.fgets, Option.bind_eq_bind, Option.bind_some, atoi_line]
  rfl

theorem readSockets_lines (per : Fin NUMBER_OF_SOCKETS → PerSocket) (h : ∀ s, (per s).Fits) :
    readSockets ((per 0).lines ++ (per 1).lines) = some per := by
  have hlast := readSocket_lines (h 1) []
  rw [List.append_nil] at hlast
  simp only [readSockets, readSocket_lines (h 0), hlast, Option.bind_eq_bind, Option.bind_some,
    Option.pure_def, Option.some.injEq]
  funext s
  fin_cases s <;> rfl

theorem readCross_lines {soc_num : Int} (per : Fin NUMBER_OF_SOCKETS → PerSocket)
    (hnum : Fits soc_num) (h : ∀ s, (per s).Fits) :
    readCross (line soc_num ++ ((per 0).lines ++ (per 1).lines)) = some (soc_num, per) := by
  simp only [readCross, hnum.fgets, readSockets_lines per h, Option.bind_eq_bind, Option.bind_some,
    atoi_line]
  rfl

end CorePartitioning.Preload.SetCpu
