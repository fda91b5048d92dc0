import CorePartitioning.Preload.SetCpu

/-!
# affinity.c — set_cpu and set_cpu_app in APP mode

Six numbers a socket in `/proc/KU/dynamic`. `set_cpu` takes its masks from
them; `set_cpu_app` looks for the least loaded application core and puts it
in the mask of the calling thread, or means to: the index in its `CPU_SET`
is `i`, which the loop over the sockets has left at `NUMBER_OF_SOCKETS`.

The loads are a function on all indices: `total_buf_int` is a local array,
and outside it a read gives what is on the stack.
-/

namespace CorePartitioning.Preload.SetCpu

open Decimal

abbrev PROC_MAX_LEN : Nat := 1024

/-! ## Reading -/

/-- The cells of one socket. -/
structure AppSocket where
  net_start_per : Int
  net_end_per : Int
  app_start_per : Int
  app_end_per : Int
  blk_start_per : Int
  blk_end_per : Int
  deriving DecidableEq

def readAppSocket (dynamic : List Char) : Option (AppSocket × List Char) := do
  let (net_start_per_c, dynamic) ← fgets 9 dynamic
  let (net_end_per_c, dynamic) ← fgets 9 dynamic
  let (app_start_per_c, dynamic) ← fgets 9 dynamic
  let (app_end_per_c, dynamic) ← fgets 9 dynamic
  let (blk_start_per_c, dynamic) ← fgets 9 dynamic
  let (blk_end_per_c, dynamic) ← fgets 9 dynamic
  return ({
    net_start_per := atoi net_start_per_c
    net_end_per := atoi net_end_per_c
    app_start_per := atoi app_start_per_c
    app_end_per := atoi app_end_per_c
    blk_start_per := atoi blk_start_per_c
    blk_end_per := atoi blk_end_per_c }, dynamic)

/-- Both sockets, in the order of the arrays. -/
def readAppSockets (dynamic : List Char) : Option (Fin NUMBER_OF_SOCKETS → AppSocket) := do
  let (zero, dynamic) ← readAppSocket dynamic
  let (one, _) ← readAppSocket dynamic
  return fun s => if s.val = 1 then one else zero

/-- `total_buf_int` from the lines of `/proc/KU/total`, the `n` cells from
`counter` on. -/
def readTotal (total_buf_int : Int → Int) (counter : Int) : Nat → List Char → Option (Int → Int)
  | 0, _ => some total_buf_int
  | n + 1, total => do
      let (total_buf, total) ← fgets (PROC_MAX_LEN - 1) total
      readTotal (Function.update total_buf_int counter (atoi total_buf)) (counter + 1) n total

/-- The loop with the end of the file in it: `fgets` leaves the buffer as it
is, and the cell gets the number in what was there. `total_buf` is what the
buffers hold before. -/
def readTotals (total_buf : Int → List Char) (total_buf_int : Int → Int) (counter : Int) :
    Nat → List Char → (Int → Int)
  | 0, _ => total_buf_int
  | n + 1, total =>
      let (buf, total) := (fgets (PROC_MAX_LEN - 1) total).getD (total_buf counter, total)
      readTotals total_buf (Function.update total_buf_int counter (atoi buf)) (counter + 1) n total

/-! ## set_cpu -/

/-- The masks of `set_cpu`. The application boundaries are read and not
used. -/
def set_cpuApp (dynamic : List Char) (current_core NetorFile : Int) : Option (Finset Int) := do
  let per ← readAppSockets dynamic
  let current_node ← socket? (current_core.tdiv CORES_PER_SOCKET)
  if NetorFile = 0 then
    return setRange ((per current_node).net_end_per + 1) (per current_node).blk_start_per ∅
  else
    return setRange (per current_node).blk_start_per (per current_node).blk_end_per ∅

/-! ## set_cpu_app -/

/-- `for (app_cpu = lo; app_cpu < hi; app_cpu++)` with the comparison that
carries `minimum` on. -/
def scanMinimum (total_buf_int : Int → Int) (minimum lo hi : Int) : Int :=
  (Int.range lo hi).foldl
    (fun minimum app_cpu =>
      if total_buf_int minimum > total_buf_int app_cpu then app_cpu else minimum) minimum

/-- Socket 1's part of the selection: the core it comes to, and the loads
with the migration overhead. -/
def scanSocketOne (total_buf_int : Int → Int) (per : Fin NUMBER_OF_SOCKETS → AppSocket) :
    Int × (Int → Int) :=
  let one := per ⟨1, Nat.one_lt_two⟩
  let minimum := scanMinimum total_buf_int one.app_start_per (one.app_start_per + 1)
    one.blk_start_per
  -- NUMA node migration overhead
  (minimum, Function.update total_buf_int minimum (total_buf_int minimum - 30))

/-- The selection. Socket 0's first core is left out: `minimum` is not set
to it. -/
def selectMinimum (total_buf_int : Int → Int) (per : Fin NUMBER_OF_SOCKETS → AppSocket) : Int :=
  let (minimum, total_buf_int) := scanSocketOne total_buf_int per
  let zero := per ⟨0, Nat.two_pos⟩
  scanMinimum total_buf_int minimum (zero.app_start_per + 1) zero.blk_start_per

/-- `total_buf_int` without the caller's own load. -/
def withoutCaller (total_buf_int : Int → Int) (app_core : Int) : Int → Int :=
  Function.update total_buf_int app_core (total_buf_int app_core - 90)

/-- What `set_cpu_app` leaves in its variable `minimum`, and the mask it
installs. -/
structure Choice where
  minimum : Int
  mask : Finset Int

/-- `set_cpu_app` on core `app_core`; `stack` is what `total_buf_int` holds
before. -/
def set_cpu_app (total dynamic : List Char) (stack : Int → Int) (app_core : Int) :
    Option Choice := do
  let total_buf_int ← readTotal stack 0 MAX_CPUS.toNat total
  let total_buf_int := withoutCaller total_buf_int app_core
  let per ← readAppSockets dynamic
  let i : Int := NUMBER_OF_SOCKETS
  -- the mask gets `i`, not `minimum`
  return { minimum := selectMinimum total_buf_int per, mask := CPU_SET i ∅ }

/-! ## Reading what was printed -/

/-- The lines of one socket. -/
def AppSocket.lines (c : AppSocket) : List Char :=
  line c.net_start_per ++ (line c.net_end_per ++ (line c.app_start_per ++
    (line c.app_end_per ++ (line c.blk_start_per ++ line c.blk_end_per))))

structure AppSocket.Fits (c : AppSocket) : Prop where
  net_start : SetCpu.Fits c.net_start_per
  net_end : SetCpu.Fits c.net_end_per
  app_start : SetCpu.Fits c.app_start_per
  app_end : SetCpu.Fits c.app_end_per
  blk_start : SetCpu.Fits c.blk_start_per
  blk_end : SetCpu.Fits c.blk_end_per

theorem readAppSocket_lines {c : AppSocket} (h : c.Fits) (rest : List Char) :
    readAppSocket (c.lines ++ rest) = some (c, rest) := by
  simp only [readAppSocket, AppSocket.lines, List.append_assoc, h.net_start.fgets,
    h.net_end.fgets, h.app_start.fgets, h.app_end.fgets, h.blk_start.fgets, h.blk_end.fgets,
    Option.bind_eq_bind, Option.bind_some, atoi_line]
  rfl

theorem readAppSockets_lines (per : Fin NUMBER_OF_SOCKETS → AppSocket) (h : ∀ s, (per s).Fits) :
    readAppSockets ((per 0).lines ++ (per 1).lines) = some per := by
  have hlast := readAppSocket_lines (h 1) []
  rw [List.append_nil] at hlast
  simp only [readAppSockets, readAppSocket_lines (h 0), hlast, Option.bind_eq_bind,
    Option.bind_some, Option.pure_def, Option.some.injEq]
  funext s
  fin_cases s <;> rfl

/-- The number fits `total_buf`, with its newline. -/
def FitsTotal (x : Int) : Prop := (render x).length + 1 < PROC_MAX_LEN - 1

theorem Fits.total {x : Int} (h : Fits x) : FitsTotal x := by
  have hlen := length_render_le (k := 7) (by decide) h.1 h.2
  unfold FitsTotal
  simp only [PROC_MAX_LEN]
  omega

/-- The lines of a load vector are read back, and no other cell changes. -/
theorem readTotal_fitting {loads : List Int} (h : ∀ x ∈ loads, FitsTotal x) (rest : List Char)
    (stack : Int → Int) (counter : Int) :
    ∃ load, readTotal stack counter loads.length (loads.flatMap line ++ rest) = some load ∧
      (∀ i : Nat, ∀ x, loads[i]? = some x → load (counter + i) = x) ∧
      ∀ c, c < counter ∨ counter + loads.length ≤ c → load c = stack c := by
  induction loads generalizing stack counter with
  | nil => exact ⟨stack, rfl, by simp, fun _ _ => rfl⟩
  | cons x loads ih =>
      obtain ⟨hx, hloads⟩ := List.forall_mem_cons.mp h
      obtain ⟨load, hread, hcells, hothers⟩ := ih hloads
        (Function.update stack counter x) (counter + 1)
      have hline : fgets (PROC_MAX_LEN - 1) (line x ++ (loads.flatMap line ++ rest))
          = some (line x, loads.flatMap line ++ rest) := fgets_line hx _
      refine ⟨load, ?_, fun i y hy => ?_, fun c hc => ?_⟩
      · simp only [List.length_cons, List.flatMap_cons, List.append_assoc, readTotal, hline,
          Option.bind_eq_bind, Option.bind_some, atoi_line]
        exact hread
      · cases i with
        | zero =>
            obtain rfl : x = y := by simpa using hy
            rw [hothers _ (by omega)]
            simp
        | succ i =>
            have hcell := hcells i y (by simpa using hy)
            rw [← hcell]
            congr 1
            omega
      · rw [List.length_cons] at hc
        rw [hothers c (by omega), Function.update_of_ne (by omega)]

/-- The file ends before all the cells are set. -/
theorem readTotal_eof {loads : List Int} (h : ∀ x ∈ loads, FitsTotal x) (stack : Int → Int)
    (counter : Int) {n : Nat} (hn : loads.length < n) :
    readTotal stack counter n (loads.flatMap line) = none := by
  induction loads generalizing stack counter n with
  | nil =>
      obtain ⟨m, rfl⟩ : ∃ m, n = m + 1 := ⟨n - 1, by simp at hn; omega⟩
      rfl
  | cons x loads ih =>
      obtain ⟨hx, hloads⟩ := List.forall_mem_cons.mp h
      rw [List.length_cons] at hn
      obtain ⟨m, rfl⟩ : ∃ m, n = m + 1 := ⟨n - 1, by omega⟩
      simp only [List.flatMap_cons, readTotal, fgets_line hx, Option.bind_eq_bind,
        Option.bind_some]
      exact ih hloads _ _ (by omega)

/-- While there are lines both loops do the same. -/
theorem readTotals_of_readTotal (total_buf : Int → List Char) {stack load : Int → Int}
    {counter : Int} {n : Nat} {total : List Char}
    (h : readTotal stack counter n total = some load) :
    readTotals total_buf stack counter n total = load := by
  induction n generalizing stack counter total with
  | zero => exact Option.some.inj h
  | succ n ih =>
      simp only [readTotal, Option.bind_eq_bind, Option.bind_eq_some_iff] at h
      obtain ⟨⟨buf, rest⟩, hline, hread⟩ := h
      simp only [readTotals, hline, Option.getD_some]
      exact ih hread

/-- After the end of the file every cell gets what its buffer held. -/
theorem readTotals_nil (total_buf : Int → List Char) (n : Nat) (stack : Int → Int) (counter : Int) :
    (∀ c, counter ≤ c → c < counter + n →
      readTotals total_buf stack counter n [] c = atoi (total_buf c)) ∧
    ∀ c, c < counter ∨ counter + n ≤ c → readTotals total_buf stack counter n [] c = stack c := by
  induction n generalizing stack counter with
  | zero => exact ⟨fun c _ _ => by omega, fun _ _ => rfl⟩
  | succ n ih =>
      obtain ⟨hcells, hothers⟩ :=
        ih (Function.update stack counter (atoi (total_buf counter))) (counter + 1)
      have hstep : readTotals total_buf stack counter (n + 1) [] =
          readTotals total_buf (Function.update stack counter (atoi (total_buf counter)))
            (counter + 1) n [] := rfl
      rw [hstep]
      refine ⟨fun c hlo hhi => ?_, fun c hc => ?_⟩
      · by_cases heq : c = counter
        · rw [hothers c (by omega), heq, Function.update_self]
        · exact hcells c (by omega) (by omega)
      · rw [hothers c (by omega), Function.update_of_ne (by omega)]

/-- **The loop on a list of loads**: their lines go to the first cells, the
other cells get what their buffers held. -/
theorem readTotals_fitting {loads : List Int} (h : ∀ x ∈ loads, FitsTotal x)
    (total_buf : Int → List Char) {n : Nat} (hn : loads.length ≤ n) (stack : Int → Int)
    (counter : Int) :
    (∀ i : Nat, ∀ x, loads[i]? = some x →
      readTotals total_buf stack counter n (loads.flatMap line) (counter + i) = x) ∧
    (∀ c, counter + loads.length ≤ c → c < counter + n →
      readTotals total_buf stack counter n (loads.flatMap line) c = atoi (total_buf c)) ∧
    ∀ c, c < counter ∨ counter + n ≤ c →
      readTotals total_buf stack counter n (loads.flatMap line) c = stack c := by
  induction loads generalizing stack counter n with
  | nil =>
      obtain ⟨hcells, hothers⟩ := readTotals_nil total_buf n stack counter
      exact ⟨by simp, fun c hlo => hcells c (by simpa using hlo), hothers⟩
  | cons x loads ih =>
      obtain ⟨hx, hloads⟩ := List.forall_mem_cons.mp h
      rw [List.length_cons] at hn
      obtain ⟨m, rfl⟩ : ∃ m, n = m + 1 := ⟨n - 1, by omega⟩
      obtain ⟨hlines, hcells, hothers⟩ :=
        ih hloads (by omega) (n := m) (Function.update stack counter x) (counter + 1)
      have hstep : readTotals total_buf stack counter (m + 1) ((x :: loads).flatMap line) =
          readTotals total_buf (Function.update stack counter x) (counter + 1) m
            (loads.flatMap line) := by
        simp only [List.flatMap_cons, readTotals, fgets_line hx, Option.getD_some, atoi_line]
      rw [hstep]
      refine ⟨fun i y hy => ?_, fun c hlo hhi => ?_, fun c hc => ?_⟩
      · cases i with
        | zero =>
            obtain rfl : x = y := by simpa using hy
            rw [hothers _ (by omega)]
            simp
        | succ i =>
            have hcell := hlines i y (by simpa using hy)
            rw [← hcell]
            congr 1
            omega
      · rw [List.length_cons] at hlo
        exact hcells c (by omega) (by omega)
      · rw [hothers c (by omega), Function.update_of_ne (by omega)]

theorem readTotal_lines {loads : List Int} (h : ∀ x ∈ loads, SetCpu.Fits x) (rest : List Char)
    (stack : Int → Int) (counter : Int) :
    ∃ load, readTotal stack counter loads.length (loads.flatMap line ++ rest) = some load ∧
      (∀ i : Nat, ∀ x, loads[i]? = some x → load (counter + i) = x) ∧
      ∀ c, c < counter → load c = stack c := by
  obtain ⟨load, hread, hcells, hothers⟩ :=
    readTotal_fitting (fun x hx => (h x hx).total) rest stack counter
  exact ⟨load, hread, hcells, fun c hc => hothers c (.inl hc)⟩

/-! ## What the scan comes to -/

theorem foldl_minimum_spec (load : Int → Int) (cores : List Int) : ∀ minimum : Int,
    let least := cores.foldl (fun m c => if load m > load c then c else m) minimum
    (least = minimum ∨ least ∈ cores) ∧ load least ≤ load minimum ∧
      ∀ c ∈ cores, load least ≤ load c := by
  induction cores with
  | nil => intro minimum; simp
  | cons c cores ih =>
      intro minimum
      dsimp only [List.foldl_cons]
      by_cases hc : load minimum > load c
      · rw [if_pos hc]
        obtain ⟨hmem, hle, hall⟩ := ih c
        refine ⟨.inr ?_, by omega, fun d hd => ?_⟩
        · rcases hmem with heq | hmem
          · rw [heq]
            exact List.mem_cons_self
          · exact List.mem_cons_of_mem _ hmem
        · rcases List.mem_cons.mp hd with rfl | hd
          · exact hle
          · exact hall d hd
      · rw [if_neg hc]
        obtain ⟨hmem, hle, hall⟩ := ih minimum
        refine ⟨?_, hle, fun d hd => ?_⟩
        · rcases hmem with heq | hmem
          · exact .inl heq
          · exact .inr (List.mem_cons_of_mem _ hmem)
        · rcases List.mem_cons.mp hd with rfl | hd
          · omega
          · exact hall d hd

/-- The cores from `app_start_per` to the last before `blk_start_per`. -/
def AppSocket.appCores (c : AppSocket) (core : Int) : Prop :=
  c.app_start_per ≤ core ∧ core < c.blk_start_per

/-- A least loaded one of `cores`. -/
def LeastOf (load : Int → Int) (cores : Int → Prop) (core : Int) : Prop :=
  cores core ∧ ∀ c, cores c → load core ≤ load c

/-- A scan that starts at the first core comes to a least loaded one. -/
theorem scanMinimum_least (load : Int → Int) {lo hi : Int} (h : lo < hi) :
    LeastOf load (fun core => lo ≤ core ∧ core < hi) (scanMinimum load lo (lo + 1) hi) := by
  obtain ⟨hmem, hle, hall⟩ := foldl_minimum_spec load (Int.range (lo + 1) hi) lo
  rw [scanMinimum]
  constructor
  · rcases hmem with heq | hmem
    · rw [heq]
      omega
    · have hrange := Int.mem_range_iff.mp hmem
      omega
  · rintro c ⟨hlo, hhi⟩
    by_cases hc : c = lo
    · rw [hc]
      exact hle
    · exact hall c (Int.mem_range_iff.mpr ⟨by omega, hhi⟩)

/-! ## The least loaded application core -/

/-- An application core of either socket. -/
def isAppCore (per : Fin NUMBER_OF_SOCKETS → AppSocket) (core : Int) : Prop :=
  ∃ s, (per s).appCores core

/-- The loads with socket 1's core `best` favoured. -/
def favour (load : Int → Int) (best : Int) : Int → Int :=
  Function.update load best (load best - 30)

/-- The mask holds one core, and this is a least loaded application core. -/
def PicksLeast (load : Int → Int) (per : Fin NUMBER_OF_SOCKETS → AppSocket) (mask : Finset Int) :
    Prop :=
  ∃ core, mask = {core} ∧ LeastOf load (isAppCore per) core

/-- Once both files are read, the mask is core 2. -/
theorem set_cpu_app_eq {total dynamic : List Char} {stack load : Int → Int}
    {per : Fin NUMBER_OF_SOCKETS → AppSocket} (app_core : Int)
    (hload : readTotal stack 0 MAX_CPUS.toNat total = some load)
    (hper : readAppSockets dynamic = some per) :
    set_cpu_app total dynamic stack app_core = some {
      minimum := selectMinimum (withoutCaller load app_core) per
      mask := {2} } := by
  simp only [set_cpu_app, hload, hper, Option.bind_eq_bind, Option.bind_some]
  rfl

/-- **`set_cpu_app` picks the least loaded application core exactly when
this is core 2**, the number of sockets, whatever core is the least loaded
and wherever the boundaries are. -/
theorem set_cpu_app_picks_least_iff {total dynamic : List Char} {stack load : Int → Int}
    {per : Fin NUMBER_OF_SOCKETS → AppSocket} (app_core : Int)
    (hload : readTotal stack 0 MAX_CPUS.toNat total = some load)
    (hper : readAppSockets dynamic = some per)
    (hcores : ∀ s, (per s).app_start_per < (per s).blk_start_per) :
    ∃ best r, LeastOf (withoutCaller load app_core) (per 1).appCores best ∧
      set_cpu_app total dynamic stack app_core = some r ∧
      (PicksLeast (favour (withoutCaller load app_core) best) per r.mask ↔
        LeastOf (favour (withoutCaller load app_core) best) (isAppCore per) 2) := by
  refine ⟨_, _, scanMinimum_least _ (hcores 1), set_cpu_app_eq app_core hload hper, ?_⟩
  constructor
  · rintro ⟨core, hmask, hleast⟩
    obtain rfl : 2 = core := Finset.singleton_injective hmask
    exact hleast
  · intro hleast
    exact ⟨2, rfl, hleast⟩

/-- Both sockets with the application cores from `lo` to `hi` of the ten. -/
def appRanges (lo hi : Int) : Fin NUMBER_OF_SOCKETS → AppSocket :=
  fun s => ⟨10 * s, 10 * s + 1, 10 * s + lo, 10 * s + 8, 10 * s + hi, 10 * s + 9⟩

/-- Every core at 50 percent. -/
theorem read_even_load (stack : Int → Int) :
    ∃ load, readTotal stack 0 MAX_CPUS.toNat ((List.replicate 20 50).flatMap line) = some load ∧
      ∀ c, 0 ≤ c → c < 20 → load c = 50 := by
  have hfits : ∀ x ∈ List.replicate 20 (50 : Int), SetCpu.Fits x := by
    intro x hx
    rw [List.eq_of_mem_replicate hx]
    exact ⟨by decide, by decide⟩
  obtain ⟨load, hread, hcells, -⟩ := readTotal_lines hfits [] stack 0
  rw [List.append_nil] at hread
  refine ⟨load, hread, fun c hlo hhi => ?_⟩
  have hcell := hcells c.toNat 50 (by rw [List.getElem?_replicate, if_pos (by omega)])
  rwa [zero_add, Int.toNat_of_nonneg hlo] at hcell

theorem read_appRanges {lo hi : Int} (hlo : 0 ≤ lo) (hhi : 0 ≤ hi) (hlt : lo < hi)
    (hle : hi ≤ 9) :
    readAppSockets ((appRanges lo hi 0).lines ++ (appRanges lo hi 1).lines)
      = some (appRanges lo hi) := by
  refine readAppSockets_lines _ fun s => ?_
  have hs : (s : Nat) < 2 := s.isLt
  constructor <;> (dsimp only [appRanges]; constructor <;> omega)

/-- A caller on core 2, at 50 percent like all the others, stays there. -/
theorem set_cpu_app_picks_core_two :
    ∃ load best r, set_cpu_app ((List.replicate 20 50).flatMap line)
        ((appRanges 2 7 0).lines ++ (appRanges 2 7 1).lines) (fun _ => 0) 2 = some r ∧
      PicksLeast (favour (withoutCaller load 2) best) (appRanges 2 7) r.mask := by
  obtain ⟨load, hload, hfifty⟩ := read_even_load fun _ => 0
  have hper : readAppSockets ((appRanges 2 7 0).lines ++ (appRanges 2 7 1).lines)
      = some (appRanges 2 7) :=
    read_appRanges (by decide) (by decide) (by decide) (by decide)
  obtain ⟨best, r, ⟨hbest, -⟩, hr, hiff⟩ := set_cpu_app_picks_least_iff 2 hload hper
    (fun s => by dsimp only [appRanges]; omega)
  refine ⟨load, best, r, hr, hiff.mpr ⟨⟨0, by constructor <;> decide⟩, fun c hc => ?_⟩⟩
  obtain ⟨s, hlo, hhi⟩ := hc
  have hs : (s : Nat) < 2 := s.isLt
  have htwo : (12 : Int) ≤ best := hbest.1
  have hc20 := hfifty c (by dsimp only [appRanges] at hlo; omega)
    (by dsimp only [appRanges] at hhi; omega)
  have hbest20 := hfifty best (by omega)
    (by have hlt : best < 17 := hbest.2; omega)
  have htwo20 := hfifty 2 (by decide) (by decide)
  unfold favour withoutCaller
  simp only [Function.update_apply]
  split_ifs <;> omega

/-- The boundaries of `init_simpleproc` up to the last application core: core
2 is no application core. -/
theorem set_cpu_app_picks_no_app_core :
    ¬ ∀ (total dynamic : List Char) (stack load : Int → Int)
        (per : Fin NUMBER_OF_SOCKETS → AppSocket) (app_core : Int),
      readTotal stack 0 MAX_CPUS.toNat total = some load → readAppSockets dynamic = some per →
      (∀ s, 0 ≤ (per s).app_start_per ∧ (per s).app_start_per < (per s).blk_start_per ∧
        (per s).blk_start_per ≤ MAX_CPUS) →
      0 ≤ app_core → app_core < MAX_CPUS →
      ∃ best r, LeastOf (withoutCaller load app_core) (per 1).appCores best ∧
        set_cpu_app total dynamic stack app_core = some r ∧
        PicksLeast (favour (withoutCaller load app_core) best) per r.mask := by
  intro h
  obtain ⟨load, hload, -⟩ := read_even_load fun _ => 0
  have hper : readAppSockets ((appRanges 4 7 0).lines ++ (appRanges 4 7 1).lines)
      = some (appRanges 4 7) :=
    read_appRanges (by decide) (by decide) (by decide) (by decide)
  obtain ⟨best, r, -, hr, core, hmask, ⟨s, hlo, -⟩, -⟩ := h _ _ _ _ _ 0 hload hper
    (fun s => by
      have hs : (s : Nat) < 2 := s.isLt
      dsimp only [appRanges, MAX_CPUS]
      omega) (by decide) (by decide)
  rw [set_cpu_app_eq 0 hload hper] at hr
  cases hr
  obtain rfl : 2 = core := Finset.singleton_injective hmask
  dsimp only [appRanges] at hlo
  omega

end CorePartitioning.Preload.SetCpu
