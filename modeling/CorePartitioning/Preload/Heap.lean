import Mathlib.Data.Finset.Card
import CorePartitioning.Lib.Links
import CorePartitioning.Preload.FdTable

/-!
# fdtable.c — the descriptor table in memory

The functions of fdtable.c, assignment by assignment, on the blocks that
`calloc` and `malloc` have given out: entries (`thread_info`) and messages
(`args_data`). The addresses the allocator answers are arguments; it never
answers one that is in use. A result `none` means that the behaviour is
undefined: NULL or a freed block was dereferenced or freed, or a loop does
not end. The semaphores are the subject of ipc.c.
-/

namespace CorePartitioning.Preload.Heap

/-! ## Memory -/

/-- The members of `thread_info` that are not links. NULL is `none`. -/
structure Data where
  p_thread : Nat
  thr_fd : CInt
  message : Option Ptr
  pid : Nat
  NetorFile : Bool
  deriving DecidableEq

/-- `thread_info`. -/
structure Node extends Data where
  next : Option Ptr
  prev : Option Ptr
  deriving DecidableEq

/-- What `calloc` gives. -/
def Node.zero : Node where
  p_thread := 0
  thr_fd := 0
  message := none
  pid := 0
  NetorFile := false
  next := none
  prev := none

structure Memory where
  entries : Finset Ptr
  messages : Finset Ptr
  node : Ptr → Node

def Memory.empty : Memory where
  entries := ∅
  messages := ∅
  node _ := .zero

namespace Memory

def next (m : Memory) (p : Ptr) : Option Ptr := (m.node p).next
def prev (m : Memory) (p : Ptr) : Option Ptr := (m.node p).prev
def data (m : Memory) (p : Ptr) : Data := (m.node p).toData

/-- `*tmp`. -/
def load (m : Memory) (tmp : Option Ptr) : Option Node := do
  let p ← tmp
  if p ∈ m.entries then return m.node p else none

def set (m : Memory) (p : Ptr) (f : Node → Node) : Memory :=
  { m with node := Function.update m.node p (f (m.node p)) }

/-- An assignment to a member of `*tmp`. -/
def store (m : Memory) (tmp : Option Ptr) (f : Node → Node) : Option Memory := do
  let p ← tmp
  if p ∈ m.entries then return m.set p f else none

def addEntry (m : Memory) (p : Ptr) : Memory :=
  { m with entries := insert p m.entries, node := Function.update m.node p .zero }

def addMessage (m : Memory) (p : Ptr) : Memory :=
  { m with messages := insert p m.messages }

def removeEntry (m : Memory) (p : Ptr) : Memory :=
  { m with entries := m.entries.erase p }

def removeMessage (m : Memory) (p : Ptr) : Memory :=
  { m with messages := m.messages.erase p }

/-- The address `p` is not in use. -/
def Unused (m : Memory) (p : Ptr) : Prop := p ∉ m.entries ∧ p ∉ m.messages

instance (m : Memory) (p : Ptr) : Decidable (m.Unused p) :=
  inferInstanceAs (Decidable (_ ∧ _))

/-- `calloc(1, sizeof(thread_info))`, which answers `new`. -/
def calloc (m : Memory) (new : Option Ptr) : Option Memory :=
  match new with
  | none => some m
  | some p => if m.Unused p then some (m.addEntry p) else none

/-- `malloc(sizeof(args_data))`, which answers `message`. -/
def malloc (m : Memory) (message : Option Ptr) : Option Memory :=
  match message with
  | none => some m
  | some p => if m.Unused p then some (m.addMessage p) else none

/-- `memset(message, 0, sizeof(args_data))`: the contents are not modelled. -/
def memset (m : Memory) (message : Option Ptr) : Option Unit := do
  let p ← message
  if p ∈ m.messages then return () else none

/-- `free` of an entry. -/
def free (m : Memory) (p : Ptr) : Option Memory :=
  if p ∈ m.entries then some (m.removeEntry p) else none

/-- `free` of a message; of NULL it does nothing. -/
def freeMessage (m : Memory) (message : Option Ptr) : Option Memory :=
  match message with
  | none => some m
  | some p => if p ∈ m.messages then some (m.removeMessage p) else none

section

variable {m : Memory} {p : Ptr} {f : Node → Node}

theorem load_some (h : p ∈ m.entries) : m.load (some p) = some (m.node p) := by
  simp [load, h]

theorem store_some (h : p ∈ m.entries) : m.store (some p) f = some (m.set p f) := by
  simp [store, h]

@[simp] theorem entries_set : (m.set p f).entries = m.entries := rfl
@[simp] theorem messages_set : (m.set p f).messages = m.messages := rfl
@[simp] theorem entries_addEntry : (m.addEntry p).entries = insert p m.entries := rfl
@[simp] theorem messages_addEntry : (m.addEntry p).messages = m.messages := rfl
@[simp] theorem entries_addMessage : (m.addMessage p).entries = m.entries := rfl
@[simp] theorem messages_addMessage : (m.addMessage p).messages = insert p m.messages := rfl
@[simp] theorem next_addMessage : (m.addMessage p).next = m.next := rfl
@[simp] theorem prev_addMessage : (m.addMessage p).prev = m.prev := rfl
@[simp] theorem data_addMessage : (m.addMessage p).data = m.data := rfl
@[simp] theorem entries_removeEntry : (m.removeEntry p).entries = m.entries.erase p := rfl
@[simp] theorem messages_removeEntry : (m.removeEntry p).messages = m.messages := rfl
@[simp] theorem entries_removeMessage : (m.removeMessage p).entries = m.entries := rfl
@[simp] theorem messages_removeMessage : (m.removeMessage p).messages = m.messages.erase p := rfl
@[simp] theorem next_removeEntry : (m.removeEntry p).next = m.next := rfl
@[simp] theorem prev_removeEntry : (m.removeEntry p).prev = m.prev := rfl
@[simp] theorem data_removeEntry : (m.removeEntry p).data = m.data := rfl
@[simp] theorem next_removeMessage : (m.removeMessage p).next = m.next := rfl
@[simp] theorem prev_removeMessage : (m.removeMessage p).prev = m.prev := rfl
@[simp] theorem data_removeMessage : (m.removeMessage p).data = m.data := rfl

@[simp] theorem unused_set {q : Ptr} : (m.set p f).Unused q ↔ m.Unused q := Iff.rfl

@[simp] theorem unused_addEntry {q : Ptr} :
    (m.addEntry p).Unused q ↔ q ≠ p ∧ m.Unused q := by
  simp [Unused, and_assoc]

theorem next_addEntry : (m.addEntry p).next = Function.update m.next p none := by
  funext q
  by_cases hq : q = p
  · subst hq
    simp [next, addEntry, Node.zero]
  · simp [next, addEntry, hq]

theorem prev_addEntry : (m.addEntry p).prev = Function.update m.prev p none := by
  funext q
  by_cases hq : q = p
  · subst hq
    simp [prev, addEntry, Node.zero]
  · simp [prev, addEntry, hq]

theorem data_addEntry : (m.addEntry p).data = Function.update m.data p Node.zero.toData := by
  funext q
  by_cases hq : q = p
  · subst hq
    simp [data, addEntry]
  · simp [data, addEntry, hq]

theorem next_set : (m.set p f).next = Function.update m.next p (f (m.node p)).next := by
  funext q
  by_cases hq : q = p
  · subst hq
    simp [next, set]
  · simp [next, set, hq]

theorem prev_set : (m.set p f).prev = Function.update m.prev p (f (m.node p)).prev := by
  funext q
  by_cases hq : q = p
  · subst hq
    simp [prev, set]
  · simp [prev, set, hq]

theorem data_set : (m.set p f).data = Function.update m.data p (f (m.node p)).toData := by
  funext q
  by_cases hq : q = p
  · subst hq
    simp [data, set]
  · simp [data, set, hq]

/-- An assignment leaves the other members alone. -/
@[simp] theorem next_set_of_keep (h : ∀ c, (f c).next = c.next) : (m.set p f).next = m.next := by
  rw [next_set, h]
  exact Function.update_eq_self p m.next

@[simp] theorem prev_set_of_keep (h : ∀ c, (f c).prev = c.prev) : (m.set p f).prev = m.prev := by
  rw [prev_set, h]
  exact Function.update_eq_self p m.prev

@[simp] theorem data_set_of_keep (h : ∀ c, (f c).toData = c.toData) :
    (m.set p f).data = m.data := by
  rw [data_set, h]
  exact Function.update_eq_self p m.data

@[simp] theorem next_node : (m.node p).next = m.next p := rfl
@[simp] theorem prev_node : (m.node p).prev = m.prev p := rfl
@[simp] theorem toData_node : (m.node p).toData = m.data p := rfl

end

end Memory

/-! ## The table -/

structure Table where
  memory : Memory
  header : Ptr
  tail : Ptr
  thr_num : BitVec 32

/-- `fdtable_init`, at the start of the process, with both allocations successful. -/
def fdtable_init (header tail : Ptr) : Option Table := do
  let m ← Memory.empty.calloc header
  let m ← m.calloc tail
  let m ← m.store header fun c => { c with next := tail }
  let m ← m.store header fun c => { c with prev := tail }
  let m ← m.store tail fun c => { c with next := none }
  let m ← m.store tail fun c => { c with prev := header }
  let m ← m.store header fun c => { c with thr_fd := -10 }
  let m ← m.store tail fun c => { c with thr_fd := -11 }
  return { memory := m, header, tail, thr_num := 0 }

def fdtable_add (s : Table) (new message : Option Ptr) (pid : Nat) :
    Option (Option Ptr × Table) := do
  let m ← s.memory.calloc new
  let head ← m.load s.header
  let next_node := head.next
  match new with
  | none => return (none, s)
  | some new =>
      let m ← m.store new fun c => { c with thr_fd := -12 }
      let m ← m.store new fun c => { c with pid := pid }
      let m ← m.malloc message
      let m ← m.store new fun c => { c with message := message }
      m.memset message
      let m ← m.store new fun c => { c with prev := s.header }
      let m ← m.store new fun c => { c with next := next_node }
      let m ← m.store s.header fun c => { c with next := new }
      let m ← m.store next_node fun c => { c with prev := new }
      return (some new, { s with memory := m, thr_num := s.thr_num + 1 })

/-- The search loop from `tmp` on. It only reads, so that a walk past more
nodes than there are entries never ends. -/
def search (m : Memory) (fd : CInt) : Nat → Option Ptr → Option (Option Ptr)
  | 0, _ => none
  | fuel + 1, tmp => do
      let node ← m.load tmp
      if node.thr_fd ≠ -11 ∧ node.thr_fd ≠ 0 then
        if node.thr_fd = fd then return tmp else search m fd fuel node.next
      else return none

def fdtable_get_by_fd_all (s : Table) (fd : CInt) : Option (Option Ptr) := do
  let head ← s.memory.load s.header
  search s.memory fd s.memory.entries.card head.next

/-- The assignments that both deletions make to the links. -/
def unlink (m : Memory) (tmp next_node prev_node : Option Ptr) : Option Memory := do
  let m ← m.store prev_node fun c => { c with next := next_node }
  let m ← m.store next_node fun c => { c with prev := prev_node }
  let m ← m.store tmp fun c => { c with next := none }
  m.store tmp fun c => { c with prev := none }

def fdtable_delete (s : Table) (fd : CInt) : Option (CInt × Table) := do
  let tmp ← fdtable_get_by_fd_all s fd
  if tmp ≠ none then
    let node ← s.memory.load tmp
    let next_node := node.next
    let prev_node := node.prev
    if next_node ≠ none ∧ prev_node ≠ none then
      let m ← unlink s.memory tmp next_node prev_node
      let node ← m.load tmp
      let m ← m.freeMessage node.message
      let m ← tmp.bind m.free
      return (0, { s with memory := m, thr_num := s.thr_num - 1 })
    else return (1, s)
  else return (2, s)

def fdtable_entry_delete (s : Table) (fd : CInt) : Option (CInt × Table) := do
  let tmp ← fdtable_get_by_fd_all s fd
  if tmp ≠ none then
    let node ← s.memory.load tmp
    let next_node := node.next
    let prev_node := node.prev
    if next_node ≠ none ∧ prev_node ≠ none then
      let m ← unlink s.memory tmp next_node prev_node
      return (0, { s with memory := m, thr_num := s.thr_num - 1 })
    else return (2, s)
  else return (0, s)

/-- The nodes that `fdtable_traversal` passes. -/
def fdtable_traversal (s : Table) : Option (List Ptr) := do
  let link (p : Ptr) := (s.memory.load p).bind (·.next)
  let tmp ← link s.header
  Links.walk link s.tail s.memory.entries.card tmp

def fdtable_traversal_reverse (s : Table) : Option (List Ptr) := do
  let link (p : Ptr) := (s.memory.load p).bind (·.prev)
  let tmp ← link s.tail
  Links.walk link s.header s.memory.entries.card tmp

def fdtable_getnumber (s : Table) : Int := s.thr_num.toInt

def fdtable_isEmpty (s : Table) : CInt := if 0 < s.thr_num then 0 else 1

end CorePartitioning.Preload.Heap
