import CorePartitioning.KTimer.Config
import CorePartitioning.Lib.BubbleSort

/-!
# simple_proc — the APP tick

`kerneltimer_timeover` under `#define APP`, from the averages to the IRQ
redistribution, and `init_simpleproc`'s boundaries. The utilisations
`p_dynamic` are the input of a tick; what the tick does to the kernel is
its new boundaries and the list of hints it gives, in call order.

The four groups of a socket are numbered as in the source: 0 net queue,
1 net sys, 2 application, 3 block. They stay numbers here, because the
flag tests at the end of the socket loop compare them with literals.
-/

namespace CorePartitioning.KTimer.App

open BubbleSort

/-! ## Averages -/

/-- One socket's averages and core counters, with the indices at which
`p_dynamic` was read. -/
structure SocketLoad where
  net_queue_util_avg : Int
  net_sys_util_avg : Int
  app_util_avg : Int
  blk_queue_util_avg : Int
  net_core_counter : Int
  netsys_core_counter : Int
  app_core_counter : Int
  blk_core_counter : Int
  reads : List Int

/-- `util_arr[s]`. -/
def SocketLoad.util_arr (l : SocketLoad) : Nat → Int
  | 0 => l.net_queue_util_avg
  | 1 => l.net_sys_util_avg
  | 2 => l.app_util_avg
  | _ => l.blk_queue_util_avg

/-- `core_counter[s]`. -/
def SocketLoad.core_counter (l : SocketLoad) : Nat → Int
  | 0 => l.net_core_counter
  | 1 => l.netsys_core_counter
  | 2 => l.app_core_counter
  | _ => l.blk_core_counter

/-- The averaging loop body for one socket. -/
def averages (p_dynamic : Int → Int) (b : Bounds) : Option SocketLoad := do
  let blk := accumulate p_dynamic b.blk_start (b.blk_end + 1)
  let blk_queue_util_avg ← cdiv blk.util blk.core_counter
  let net := accumulate p_dynamic b.net_start (b.net_end + 1)
  let net_queue_util_avg ← cdiv net.util net.core_counter
  let netsys := accumulate p_dynamic (b.net_end + 1) b.app_start
  let net_sys_util_avg ← cdiv netsys.util netsys.core_counter
  let app := accumulate p_dynamic b.app_start (b.app_end + 1)
  let app_util_avg ← cdiv app.util app.core_counter
  return {
    net_queue_util_avg, net_sys_util_avg, app_util_avg, blk_queue_util_avg
    net_core_counter := net.core_counter
    netsys_core_counter := netsys.core_counter
    app_core_counter := app.core_counter
    blk_core_counter := blk.core_counter
    reads := blk.reads ++ net.reads ++ netsys.reads ++ app.reads }

/-! ## Sorting and selection -/

/-- `sort_index_arr[s]` after the bubble sort: the group numbers in
ascending order of average utilisation. -/
def sort_index_arr (l : SocketLoad) : List Nat :=
  bubbleSort l.util_arr 3 [0, 1, 2, 3]

/-- The group that should receive a core. -/
def selectMax (l : SocketLoad) : Nat := (sort_index_arr l).getD 3 0

/-- The group that should give one: the least loaded, or, when that one has
a single core, the first of the sorted positions 1 and 2 with two or more. -/
def selectMin (l : SocketLoad) : Nat :=
  let min := (sort_index_arr l).getD 0 0
  if l.core_counter min < 2 then
    -- for (index_iter0 = 1; index_iter0 < 3; ..) if (..) { min = ..; break; }
    match [1, 2].find? (fun k => 2 ≤ l.core_counter ((sort_index_arr l).getD k 0)) with
    | some k => (sort_index_arr l).getD k 0
    | none => min
  else min

/-! ## Boundary moves -/

/-- The twelve (receiver, donor) branches. -/
def moveBounds (l : SocketLoad) (max min : Nat) (b : Bounds) : Bounds :=
  if l.core_counter min < 2 then
    b  -- can't change
  else if max = NET_QUEUE_INDEX then
    let t_tmp := l.net_queue_util_avg - T_CHANGE
    if min = NET_SYS_INDEX then
      if t_tmp > l.net_sys_util_avg then
        { b with net_end := b.net_end + 1 }
      else b
    else if min = APP_INDEX then
      if t_tmp > l.app_util_avg then
        { b with app_start := b.app_start + 1, net_end := b.net_end + 1 }
      else b
    else if min = BLK_INDEX then
      if t_tmp > l.blk_queue_util_avg then
        { b with net_end := b.net_end + 1, app_start := b.app_start + 1,
                 app_end := b.app_end + 1, blk_start := b.blk_start + 1 }
      else b
    else b
  else if max = NET_SYS_INDEX then
    let t_tmp := l.net_sys_util_avg - T_CHANGE
    if min = NET_QUEUE_INDEX then
      if t_tmp > l.net_queue_util_avg then
        { b with net_end := b.net_end - 1 }
      else b
    else if min = APP_INDEX then
      if t_tmp > l.app_util_avg then
        { b with app_start := b.app_start + 1 }
      else b
    else if min = BLK_INDEX then
      if t_tmp > l.blk_queue_util_avg then
        { b with blk_start := b.blk_start + 1, app_end := b.app_end + 1,
                 app_start := b.app_start + 1 }
      else b
    else b
  else if max = APP_INDEX then
    let t_tmp := l.app_util_avg - T_CHANGE
    if min = NET_QUEUE_INDEX then
      if t_tmp > l.net_queue_util_avg then
        { b with net_end := b.net_end - 1, app_start := b.app_start - 1 }
      else b
    else if min = NET_SYS_INDEX then
      if t_tmp > l.net_sys_util_avg then
        { b with app_start := b.app_start - 1 }
      else b
    else if min = BLK_INDEX then
      if t_tmp > l.blk_queue_util_avg then
        { b with app_end := b.app_end + 1, blk_start := b.blk_start + 1 }
      else b
    else b
  else if max = BLK_INDEX then
    let t_tmp := l.blk_queue_util_avg - T_CHANGE
    if min = NET_QUEUE_INDEX then
      if t_tmp > l.net_queue_util_avg then
        { b with net_end := b.net_end - 1, app_start := b.app_start - 1,
                 app_end := b.app_end - 1, blk_start := b.blk_start - 1 }
      else b
    else if min = NET_SYS_INDEX then
      if t_tmp > l.net_sys_util_avg then
        { b with app_start := b.app_start - 1, app_end := b.app_end - 1,
                 blk_start := b.blk_start - 1 }
      else b
    else if min = APP_INDEX then
      if t_tmp > l.app_util_avg then
        { b with app_end := b.app_end - 1, blk_start := b.blk_start - 1 }
      else b
    else b
  else b

/-! ## The socket loop -/

/-- The variables the adjusting loop carries from socket to socket. -/
structure Adjust where
  per : Socket → Bounds
  net_flag : Bool
  blk_flag : Bool

/-- The adjusting loop body for socket `s`. -/
def adjustSocket (l : SocketLoad) (s : Socket) (a : Adjust) : Adjust :=
  let max := selectMax l
  let min := selectMin l
  { per := Function.update a.per s (moveBounds l max min (a.per s))
    net_flag := if max = 0 ∨ min = 0 then true else a.net_flag
    -- the source writes 4 here, not `BLK_INDEX`
    blk_flag := if min = 4 ∨ max = 4 then true else a.blk_flag }

/-- The averaging loop over all sockets. -/
def averagesAll (p_dynamic : Int → Int) (per : Socket → Bounds) :
    Option (Socket → SocketLoad) :=
  socketLoop.foldlM
    (fun (ls : Socket → SocketLoad) s => do
      let l ← averages p_dynamic (per s)
      return Function.update ls s l)
    (fun _ => ⟨0, 0, 0, 0, 0, 0, 0, 0, []⟩)

/-! ## Redistribution -/

/-- The block redistribution of APP mode. Its wrap test adds `i` to the END
of the range (`blk_end_per[..] + i == blk_start_per[..]`). -/
def redistributeBlk (par : Params) (per : Socket → Bounds) (socket_number : Nat) :
    List Hint :=
  (List.finRange BLK_QUEUES).zipWith (fun j core => ⟨.blk j, par.irq_blk j, core⟩)
    (RoundRobin.walk socket_number (fun k => (per (socketAt k)).blk_start)
      (fun k i => (per (socketAt k)).blk_end + i == (per (socketAt k)).blk_start)
      BLK_QUEUES (0, 0))

/-- The net redistribution of APP mode. -/
def redistributeNet (par : Params) (per : Socket → Bounds) (socket_number : Nat) :
    List Hint :=
  (List.finRange NET_QUEUES).zipWith (fun j core => ⟨.net j, par.irq_net j, core⟩)
    (RoundRobin.walk socket_number (fun k => (per (socketAt k)).net_start)
      (fun k i => (per (socketAt k)).net_start + i == (per (socketAt k)).net_end)
      NET_QUEUES (0, 0))

/-! ## The tick -/

/-- What one tick does: the new boundaries, the hints it gives, and (for
each socket) the indices at which it read `p_dynamic`. -/
structure Tick where
  per : Socket → Bounds
  hints : List Hint
  reads : Socket → List Int

/-- `kerneltimer_timeover` in APP mode; `none` is a division by zero. -/
def kerneltimer_timeover (par : Params) (p_dynamic : Int → Int) (per : Socket → Bounds) :
    Option Tick := do
  let socket_number := NUMBER_OF_SOCKETS
  let ls ← averagesAll p_dynamic per
  let a := socketLoop.foldl (fun a s => adjustSocket (ls s) s a)
    { per, net_flag := false, blk_flag := false }
  let blkHints := if a.blk_flag then redistributeBlk par a.per socket_number else []
  let netHints := if a.net_flag then redistributeNet par a.per socket_number else []
  return { per := a.per, hints := blkHints ++ netHints, reads := fun s => (ls s).reads }

/-- The boundaries `init_simpleproc` sets. -/
def init_simpleproc : Socket → Bounds
  | 0 => { net_start := 0, net_end := 1, app_start := 4, app_end := 8,
           blk_start := 7, blk_end := 9 }
  | 1 => { net_start := 10, net_end := 11, app_start := 14, app_end := 18,
           blk_start := 17, blk_end := 19 }

/-- A run of ticks: the boundaries reached and every hint given, oldest
first. -/
def run (par : Params) : List (Int → Int) → Option ((Socket → Bounds) × List Hint)
  | [] => some (init_simpleproc, [])
  | p_dynamic :: ps => do
      -- the list is newest first: the tail has already happened
      let (per, log) ← run par ps
      let t ← kerneltimer_timeover par p_dynamic per
      return (t.per, log ++ t.hints)

end CorePartitioning.KTimer.App
