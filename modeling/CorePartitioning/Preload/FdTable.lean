import CorePartitioning.Preload.Syscall

/-!
# fdtable.c — the descriptor table

The doubly linked list between `header` and `tail` as the list of its
entries, front first, with the counter `thr_num`. An entry is named by its
address `ptr`. The semaphores and the message of an entry are the subject
of ipc.c.
-/

namespace CorePartitioning.Preload

abbrev Ptr := Nat

/-- `MAXTHREAD` of ld_preload.h. -/
abbrev MAXTHREAD : Int := 65535

/-- `thread_info`. `NetorFile` is false for network and true for file I/O. -/
structure ThreadInfo where
  ptr : Ptr
  p_thread : Nat
  thr_fd : CInt
  pid : Nat
  NetorFile : Bool
  deriving DecidableEq, Repr

structure FdTable where
  entries : List ThreadInfo := []
  thr_num : BitVec 32 := 0
  nextPtr : Ptr := 1

/-- The search loop. It stops at `tail`, whose `thr_fd` is -11, at the end of
the list; an entry whose `thr_fd` is -11 or 0 stops it as well. -/
def fdtable_search (found : ThreadInfo → Bool) : List ThreadInfo → Option ThreadInfo
  | [] => none
  | tmp :: rest =>
      if tmp.thr_fd = -11 ∨ tmp.thr_fd = 0 then none
      else if found tmp then some tmp
      else fdtable_search found rest

def fdtable_get_by_fd_all (tbl : FdTable) (fd : CInt) : Option ThreadInfo :=
  fdtable_search (fun tmp => tmp.thr_fd == fd) tbl.entries

def fdtable_get_by_fd (tbl : FdTable) (fd : CInt) (NetorFile : Bool) : Option ThreadInfo :=
  fdtable_search (fun tmp => tmp.thr_fd == fd && tmp.NetorFile == NetorFile) tbl.entries

def fdtable_get_by_tid (tbl : FdTable) (pthread : Nat) : Option ThreadInfo :=
  fdtable_search (fun tmp => tmp.p_thread == pthread) tbl.entries

/-- The unsigned counter, returned as an `int`. -/
def fdtable_getnumber (tbl : FdTable) : Int := tbl.thr_num.toInt

/-- `fdtable_add` once its `calloc` has succeeded: the new entry, in front. -/
def fdtable_add (tbl : FdTable) (pid : Nat) : Ptr × FdTable :=
  (tbl.nextPtr,
    { entries := ⟨tbl.nextPtr, 0, -12, pid, false⟩ :: tbl.entries
      thr_num := tbl.thr_num + 1
      nextPtr := tbl.nextPtr + 1 })

/-- `fdtable_delete` with its return code. Every entry of the list has two
neighbours, so the code 1 does not occur. -/
def fdtable_delete (tbl : FdTable) (fd : CInt) : CInt × FdTable :=
  match fdtable_get_by_fd_all tbl fd with
  | some tmp => (0, { tbl with entries := tbl.entries.erase tmp, thr_num := tbl.thr_num - 1 })
  | none => (2, tbl)

/-- A write through `tmp`. Through NULL or to an entry that is not there it
has no defined effect. -/
def FdTable.modify (tbl : FdTable) (tmp : Option Ptr) (f : ThreadInfo → ThreadInfo) :
    Option FdTable :=
  match tmp with
  | none => none
  | some p =>
      if tbl.entries.any (fun x => x.ptr == p) then
        some { tbl with entries := tbl.entries.map fun x => if x.ptr = p then f x else x }
      else none

end CorePartitioning.Preload
