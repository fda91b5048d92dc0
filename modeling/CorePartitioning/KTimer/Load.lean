import CorePartitioning.Lib.Rollback
import CorePartitioning.Lib.Run
import Mathlib.Data.List.Nodup
import Mathlib.Logic.Function.Basic

/-!
# simple_proc — loading the module

`init_simpleproc` makes `/proc/KU` and five files in it, then allocates the
manager of the timer. Each failing call takes back the entries made before
it, with a list of its own. The kernel's calls are the parameter `fs`; what
the code relies on is `ProcFs.Documented`.

Two failures do not lead back to the tree before. `proc_mkdir` fails where
`KU` is there already, and that entry is then removed; and where `kmalloc`
fails nothing is taken back.
-/

namespace CorePartitioning.KTimer.Load

open Rollback

/-! ## The proc tree -/

/-- The names from an entry up to the root: `/proc/KU/user` is
`["user", "KU"]`, and NULL as a parent is the root, `[]`. -/
abbrev Path := List String

/-- The `file_operations` a file is registered with, by their address. -/
inductive Fops
  | user_fops | system_fops | irq_fops | total_fops | dynamic_fops
  | other (address : Nat)
  deriving DecidableEq, Repr

inductive Entry
  | dir
  | file (mode : Nat) (fops : Fops)
  deriving DecidableEq, Repr

/-- What is registered, by path. -/
@[ext] structure ProcTree where
  entry : Path → Option Entry
  root : entry [] = some .dir
  parent_dir : ∀ name dir, entry (name :: dir) ≠ none → entry dir = some .dir

/-- Below what is no directory there is nothing. -/
theorem ProcTree.no_child (t : ProcTree) {path : Path} (h : t.entry path ≠ some .dir)
    (name : String) : t.entry (name :: path) = none := by
  by_contra hentry
  exact h (t.parent_dir name path hentry)

/-! ## What the kernel provides -/

/-- The calls. The flag is a failure that the tree does not explain, such
as one for want of memory; the pointer returned is the path, or NULL. -/
structure ProcFs where
  proc_mkdir : Bool → String → Path → ProcTree → Option Path × ProcTree
  proc_create : Bool → String → Nat → Path → Fops → ProcTree → Option Path × ProcTree
  remove_proc_entry : String → Path → ProcTree → ProcTree

/-- A call that registers the entry `e`. It returns NULL where it fails and
where the name is taken, and then nothing has changed. -/
structure Registers (call : Bool → ProcTree → Option Path × ProcTree) (name : String)
    (dir : Path) (e : Entry) : Prop where
  null : ∀ fails t, (call fails t).1 = none → (call fails t).2 = t
  fails : ∀ t, (call true t).1 = none
  taken : ∀ fails t, t.entry (name :: dir) ≠ none → (call fails t).1 = none
  made : ∀ t, t.entry dir = some .dir → t.entry (name :: dir) = none →
    (call false t).1 = some (name :: dir) ∧
      (call false t).2.entry = Function.update t.entry (name :: dir) (some e)

/-- What is documented of the calls. -/
structure ProcFs.Documented (fs : ProcFs) : Prop where
  proc_mkdir : ∀ name dir,
    Registers (fun fails => fs.proc_mkdir fails name dir) name dir .dir
  proc_create : ∀ name mode dir fops,
    Registers (fun fails => fs.proc_create fails name mode dir fops) name dir (.file mode fops)
  /-- Removing what is not there is only warned about. -/
  remove_missing : ∀ name dir t, t.entry (name :: dir) = none →
    fs.remove_proc_entry name dir t = t
  remove_gone : ∀ name dir t, (fs.remove_proc_entry name dir t).entry (name :: dir) = none
  /-- Nothing else is removed with an entry that has nothing in it. -/
  remove_leaf : ∀ name dir t, (∀ child, t.entry (child :: name :: dir) = none) →
    (fs.remove_proc_entry name dir t).entry = Function.update t.entry (name :: dir) none

/-! ### Calls that do what is documented -/

def ProcTree.empty : ProcTree where
  entry path := if path = [] then some .dir else none
  root := rfl
  parent_dir := by simp

def ProcTree.add (t : ProcTree) (name : String) (dir : Path) (e : Entry)
    (hdir : t.entry dir = some .dir) (hfree : t.entry (name :: dir) = none) : ProcTree where
  entry := Function.update t.entry (name :: dir) (some e)
  root := by rw [Function.update_of_ne (by simp), t.root]
  parent_dir := by
    intro child path hchild
    by_cases hnew : child :: path = name :: dir
    · cases hnew
      rw [Function.update_of_ne (by simp), hdir]
    · rw [Function.update_of_ne hnew] at hchild
      have hpath := t.parent_dir child path hchild
      rw [Function.update_of_ne, hpath]
      rintro rfl
      rw [hfree] at hpath
      cases hpath

/-- The entry goes, and with it what is reached through it. -/
def ProcTree.drop (t : ProcTree) (name : String) (dir : Path) : ProcTree where
  entry path := if name :: dir <:+ path then none else t.entry path
  root := by simp [t.root]
  parent_dir := by
    intro child path hchild
    split at hchild
    · cases hchild rfl
    · rename_i hnot
      rw [if_neg fun hsuffix => hnot (hsuffix.trans (List.suffix_cons ..))]
      exact t.parent_dir child path hchild

def ProcTree.register (fails : Bool) (name : String) (dir : Path) (e : Entry) (t : ProcTree) :
    Option Path × ProcTree :=
  if h : fails = false ∧ t.entry dir = some .dir ∧ t.entry (name :: dir) = none then
    (some (name :: dir), t.add name dir e h.2.1 h.2.2)
  else (none, t)

/-- A tree with a `/proc/KU` of someone else. -/
def withKU : ProcTree := ProcTree.empty.add "KU" [] .dir rfl rfl

def procfs : ProcFs where
  proc_mkdir fails name dir := ProcTree.register fails name dir .dir
  proc_create fails name mode dir fops := ProcTree.register fails name dir (.file mode fops)
  remove_proc_entry name dir t := t.drop name dir

theorem registers_register (name : String) (dir : Path) (e : Entry) :
    Registers (fun fails => ProcTree.register fails name dir e) name dir e where
  null fails t hnull := by
    unfold ProcTree.register at hnull ⊢
    split at hnull
    · cases hnull
    · rename_i hnot
      rw [dif_neg hnot]
  fails t := by simp [ProcTree.register]
  taken fails t htaken := by simp [ProcTree.register, htaken]
  made t hdir hfree := by simp [ProcTree.register, hdir, hfree, ProcTree.add]

theorem ProcTree.drop_missing {t : ProcTree} {name : String} {dir : Path}
    (h : t.entry (name :: dir) = none) : t.drop name dir = t := by
  have hbelow : ∀ path, t.entry (path ++ name :: dir) = none := by
    intro path
    induction path with
    | nil => exact h
    | cons child path ih => exact t.no_child (by simp [ih]) child
  ext1
  funext path
  show (if _ then none else t.entry path) = t.entry path
  split
  · rename_i hsuffix
    obtain ⟨above, rfl⟩ := hsuffix
    exact (hbelow above).symm
  · rfl

theorem ProcTree.drop_leaf {t : ProcTree} {name : String} {dir : Path}
    (h : ∀ child, t.entry (child :: name :: dir) = none) :
    (t.drop name dir).entry = Function.update t.entry (name :: dir) none := by
  have hbelow : ∀ child path, t.entry (child :: (path ++ name :: dir)) = none := by
    intro child path
    induction path generalizing child with
    | nil => exact h child
    | cons name path ih => exact t.no_child (by simp [ih]) child
  funext path
  show (if _ then none else t.entry path) = _
  split
  · rename_i hsuffix
    obtain ⟨above, rfl⟩ := hsuffix
    cases above with
    | nil => rw [List.nil_append, Function.update_self]
    | cons child above =>
        rw [Function.update_of_ne, List.cons_append, hbelow]
        intro heq
        have hlength := congrArg List.length heq
        simp only [List.length_append, List.length_cons] at hlength
        omega
  · rename_i hnot
    rw [Function.update_of_ne]
    rintro rfl
    exact hnot (List.suffix_refl _)

theorem procfs_documented : procfs.Documented where
  proc_mkdir name dir := registers_register name dir .dir
  proc_create name mode dir fops := registers_register name dir (.file mode fops)
  remove_missing _ _ _ h := ProcTree.drop_missing h
  remove_gone _ _ _ := if_pos (List.suffix_refl _)
  remove_leaf _ _ _ h := ProcTree.drop_leaf h

/-! ## The module -/

/-- What `ptrmng` points to. -/
structure KERNEL_TIMER_MANAGER where
  data : Nat
  /-- The timer is pending. -/
  timer : Bool
  deriving DecidableEq, Repr

structure State where
  tree : ProcTree
  parent : Path
  ptrmng : Option KERNEL_TIMER_MANAGER

/-- The calls of one load that fail. -/
structure Failures where
  mkdir : Bool
  user : Bool
  system : Bool
  intr : Bool
  total : Bool
  dynamic : Bool
  kmalloc : Bool
  deriving DecidableEq, Repr

def noFailure : Failures := ⟨false, false, false, false, false, false, false⟩

def dirname : String := "KU"

def ENOMEM : Int := 12

def kerneltimer_registertimer (pdata : KERNEL_TIMER_MANAGER) : KERNEL_TIMER_MANAGER :=
  { pdata with timer := true }

/-- A run of `remove_proc_entry(name, parent)`. -/
def remove_entries (fs : ProcFs) (parent : Path) : List String → ProcTree → ProcTree
  | [], t => t
  | name :: names, t => remove_entries fs parent names (fs.remove_proc_entry name parent t)

/-- An error branch: the files, then the directory. -/
def undo (fs : ProcFs) (parent : Path) (names : List String) (t : ProcTree) : ProcTree :=
  fs.remove_proc_entry dirname [] (remove_entries fs parent names t)

/-- `kmalloc` and what comes after it. -/
def init_ptrmng (fails : Failures) (s : State) : Int × State :=
  if fails.kmalloc then (-ENOMEM, { s with ptrmng := none })
  else (0, { s with ptrmng := some (kerneltimer_registertimer ⟨0, false⟩) })

def init_simpleproc (fs : ProcFs) (fails : Failures) (s : State) : Int × State :=
  match fs.proc_mkdir fails.mkdir dirname [] s.tree with
  | (none, t) =>
      (-1, { s with tree := fs.remove_proc_entry dirname [] t, parent := [] })
  | (some parent, t) =>
      let s := { s with parent := parent }
      let user := fs.proc_create fails.user "user" 0o666 parent .user_fops t
      if user.1 = none then
        (-1, { s with tree := undo fs parent ["user"] user.2 })
      else
      let system := fs.proc_create fails.system "system" 0o666 parent .system_fops user.2
      if system.1 = none then
        (-1, { s with tree := undo fs parent ["system", "user"] system.2 })
      else
      let intr := fs.proc_create fails.intr "intr" 0o666 parent .irq_fops system.2
      if intr.1 = none then
        (-1, { s with tree := undo fs parent ["intr", "system", "user"] intr.2 })
      else
      let total := fs.proc_create fails.total "total" 0o666 parent .total_fops intr.2
      if total.1 = none then
        (-1, { s with tree := undo fs parent ["total", "intr", "system", "user"] total.2 })
      else
      let dynamic := fs.proc_create fails.dynamic "dynamic" 0o666 parent .dynamic_fops total.2
      if dynamic.1 = none then
        (-1, { s with
          tree := undo fs parent ["dynamic", "total", "intr", "system", "user"] dynamic.2 })
      else init_ptrmng fails { s with tree := dynamic.2 }

def exit_simpleproc (fs : ProcFs) (s : State) : State :=
  { s with
    tree := fs.remove_proc_entry dirname []
      (remove_entries fs s.parent ["user", "system", "intr", "total", "dynamic"] s.tree)
    -- `del_timer` and `kfree`
    ptrmng := none }

/-! ## The load as an attempt -/

/-- A file of the directory, and whether its `proc_create` fails. -/
structure File where
  name : String
  fops : Fops
  fails : Bool

def files (fails : Failures) : List File :=
  [⟨"user", .user_fops, fails.user⟩, ⟨"system", .system_fops, fails.system⟩,
    ⟨"intr", .irq_fops, fails.intr⟩, ⟨"total", .total_fops, fails.total⟩,
    ⟨"dynamic", .dynamic_fops, fails.dynamic⟩]

def mkdir (fs : ProcFs) (fails : Bool) : Change ProcTree where
  make t := ((fs.proc_mkdir fails dirname [] t).1.isSome, (fs.proc_mkdir fails dirname [] t).2)
  undo := fs.remove_proc_entry dirname []

def File.create (fs : ProcFs) (dir : Path) (f : File) : Change ProcTree where
  make t := ((fs.proc_create f.fails f.name 0o666 dir f.fops t).1.isSome,
    (fs.proc_create f.fails f.name 0o666 dir f.fops t).2)
  undo := fs.remove_proc_entry f.name dir

def changes (fs : ProcFs) (fails : Failures) : List (Change ProcTree) :=
  mkdir fs fails.mkdir :: (files fails).map (File.create fs [dirname])

variable {fs : ProcFs} {fails : Failures} {s : State}

theorem parent_of_mkdir (h : fs.Documented) {b : Bool} {t t' : ProcTree} {parent : Path}
    (hm : fs.proc_mkdir b dirname [] t = (some parent, t')) : parent = [dirname] := by
  have hcall := h.proc_mkdir dirname []
  cases b with
  | true => simpa [hm] using hcall.fails t
  | false =>
      by_cases hfree : t.entry [dirname] = none
      · have hmade := (hcall.made t t.root hfree).1
        rw [hm] at hmade
        exact Option.some.inj hmade
      · simpa [hm] using hcall.taken false t hfree

/-- **The branches of `init_simpleproc` are those of an attempt**: the lists
of the error branches are the changes made so far. -/
theorem init_eq_attempt (h : fs.Documented) :
    (init_simpleproc fs fails s).1 =
        (if (attempt [] (changes fs fails) s.tree).1 then (if fails.kmalloc then -ENOMEM else 0)
          else -1) ∧
      (init_simpleproc fs fails s).2.tree = (attempt [] (changes fs fails) s.tree).2 := by
  rcases hm : fs.proc_mkdir fails.mkdir dirname [] s.tree with ⟨_ | parent, t⟩
  · simp [init_simpleproc, changes, attempt, takeBack, mkdir, hm]
  · cases parent_of_mkdir h hm
    simp only [init_simpleproc, changes, files, List.map_cons, List.map_nil, attempt, takeBack,
      mkdir, File.create, hm, undo, remove_entries, Option.isSome_some, if_true,
      ← Option.not_isSome_iff_eq_none, ite_not]
    split_ifs <;> simp_all [init_ptrmng]

/-! ## Taking back -/

section calls

variable {call : Bool → ProcTree → Option Path × ProcTree} {name : String} {dir : Path}
  {e : Entry} {t : ProcTree}

theorem Registers.some_of_isSome (h : Registers call name dir e) (hdir : t.entry dir = some .dir)
    {b : Bool} (hok : (call b t).1.isSome = true) :
    b = false ∧ t.entry (name :: dir) = none ∧
      (call b t).2.entry = Function.update t.entry (name :: dir) (some e) := by
  have hfree : t.entry (name :: dir) = none := by
    by_contra htaken
    simp [h.taken b t htaken] at hok
  cases b with
  | true => simp [h.fails t] at hok
  | false => exact ⟨rfl, hfree, (h.made t hdir hfree).2⟩

theorem Registers.isSome_of_free (h : Registers call name dir e) (hdir : t.entry dir = some .dir)
    (hfree : t.entry (name :: dir) = none) (b : Bool) : (call b t).1.isSome = !b := by
  cases b with
  | true => rw [h.fails t]; rfl
  | false => rw [(h.made t hdir hfree).1]; rfl

/-- **Where the name is free, removing it takes the call back**, failed or
not. -/
theorem Registers.undone (hfs : fs.Documented) (h : Registers call name dir e)
    (hdir : t.entry dir = some .dir) (hfree : t.entry (name :: dir) = none) (b : Bool) :
    fs.remove_proc_entry name dir (call b t).2 = t := by
  cases hcall : (call b t).1 with
  | none => rw [h.null b t hcall, hfs.remove_missing name dir t hfree]
  | some p =>
      obtain ⟨-, -, hentry⟩ := h.some_of_isSome hdir (b := b) (by simp [hcall])
      have hleaf : ∀ child, (call b t).2.entry (child :: name :: dir) = none := by
        intro child
        rw [hentry, Function.update_of_ne (by simp)]
        exact t.no_child (by simp [hfree]) child
      ext1
      rw [hfs.remove_leaf name dir _ hleaf, hentry, Function.update_idem, ← hfree,
        Function.update_eq_self]

end calls

/-- The directory is there, and none of the names is taken in it. -/
structure Free (dir : Path) (names : List String) (t : ProcTree) : Prop where
  isDir : t.entry dir = some .dir
  free : ∀ name ∈ names, t.entry (name :: dir) = none

theorem Free.create (h : fs.Documented) {dir : Path} {f : File} {names : List String}
    {t : ProcTree} (hfree : Free dir (f.name :: names) t) (hname : f.name ∉ names)
    (hok : ((f.create fs dir).make t).1 = true) :
    Free dir names ((f.create fs dir).make t).2 := by
  obtain ⟨-, -, hentry⟩ :=
    (h.proc_create f.name 0o666 dir f.fops).some_of_isSome hfree.isDir hok
  constructor
  · show (fs.proc_create _ _ _ _ _ t).2.entry dir = _
    rw [hentry, Function.update_of_ne (by simp), hfree.isDir]
  · intro name hmem
    show (fs.proc_create _ _ _ _ _ t).2.entry (name :: dir) = _
    have hne : name ≠ f.name := by
      rintro rfl
      exact hname hmem
    rw [hentry, Function.update_of_ne (by simp [hne]),
      hfree.free name (List.mem_cons_of_mem _ hmem)]

theorem revertible_files (h : fs.Documented) {dir : Path} {fl : List File} {t : ProcTree}
    (hnames : (fl.map File.name).Nodup) (hfree : Free dir (fl.map File.name) t) :
    Revertible (fl.map (File.create fs dir)) t := by
  induction fl generalizing t with
  | nil => trivial
  | cons f fl ih =>
      obtain ⟨hname, hnames⟩ := List.nodup_cons.mp hnames
      constructor
      · exact (h.proc_create f.name 0o666 dir f.fops).undone h hfree.isDir
          (hfree.free f.name (List.mem_cons_self ..)) f.fails
      · intro hok
        exact ih hnames (hfree.create h hname hok)

/-- The files are made when no call fails. -/
theorem attempt_files_iff (h : fs.Documented) {dir : Path} {fl : List File} {t : ProcTree}
    {done : List (Change ProcTree)} (hnames : (fl.map File.name).Nodup)
    (hfree : Free dir (fl.map File.name) t) :
    (attempt done (fl.map (File.create fs dir)) t).1 = true ↔ ∀ f ∈ fl, f.fails = false := by
  induction fl generalizing t done with
  | nil => simp [attempt]
  | cons f fl ih =>
      obtain ⟨hname, hnames⟩ := List.nodup_cons.mp hnames
      have hmade : ((f.create fs dir).make t).1 = !f.fails :=
        (h.proc_create f.name 0o666 dir f.fops).isSome_of_free hfree.isDir
          (hfree.free f.name (List.mem_cons_self ..)) f.fails
      rw [List.map_cons, attempt, List.forall_mem_cons]
      by_cases hok : ((f.create fs dir).make t).1 = true
      · rw [if_pos hok, ih hnames (hfree.create h hname hok)]
        have hfails : f.fails = false := by simpa [hmade] using hok
        simp [hfails]
      · rw [if_neg hok]
        have hfails : f.fails = true := by simpa [hmade] using hok
        simp [hfails]

/-- Entries other than the files are as they were. -/
theorem attempt_files_elsewhere (h : fs.Documented) {dir : Path} {fl : List File}
    {t : ProcTree} {done : List (Change ProcTree)} (hdir : t.entry dir = some .dir)
    (hok : (attempt done (fl.map (File.create fs dir)) t).1 = true) {p : Path}
    (hp : ∀ f ∈ fl, p ≠ f.name :: dir) :
    (attempt done (fl.map (File.create fs dir)) t).2.entry p = t.entry p := by
  have hkeeps := attempt_keeps
    (I := fun t' => t'.entry dir = some .dir ∧ t'.entry p = t.entry p) ?_ ⟨hdir, rfl⟩ hok
  · exact hkeeps.2
  · rintro _ hc t' ⟨hdir', hp'⟩ hmade
    obtain ⟨f, hf, rfl⟩ := List.mem_map.mp hc
    obtain ⟨-, -, hentry⟩ :=
      (h.proc_create f.name 0o666 dir f.fops).some_of_isSome hdir' hmade
    show (fs.proc_create _ _ _ _ _ t').2.entry dir = _ ∧
      (fs.proc_create _ _ _ _ _ t').2.entry p = _
    rw [hentry, Function.update_of_ne (by simp), Function.update_of_ne (hp f hf)]
    exact ⟨hdir', hp'⟩

/-! ## The whole load -/

/-- None of the calls that make an entry fails. -/
def Failures.NoneOfTree (fails : Failures) : Prop :=
  fails.mkdir = false ∧ ∀ f ∈ files fails, f.fails = false

instance (fails : Failures) : Decidable fails.NoneOfTree := inferInstanceAs (Decidable (_ ∧ _))

theorem nodup_files : ((files fails).map File.name).Nodup := by
  simp [files]

section free

variable (h : fs.Documented) (hfree : s.tree.entry [dirname] = none)
include h hfree

/-- The directory has just been made. -/
theorem free_of_mkdir (hok : ((mkdir fs fails.mkdir).make s.tree).1 = true) :
    Free [dirname] ((files fails).map File.name) ((mkdir fs fails.mkdir).make s.tree).2 := by
  obtain ⟨-, -, hentry⟩ := (h.proc_mkdir dirname []).some_of_isSome s.tree.root hok
  constructor
  · show (fs.proc_mkdir _ _ _ s.tree).2.entry [dirname] = _
    rw [hentry, Function.update_self]
  · intro name _
    show (fs.proc_mkdir _ _ _ s.tree).2.entry [name, dirname] = _
    rw [hentry, Function.update_of_ne (by simp)]
    exact s.tree.no_child (by simp [hfree]) name

theorem revertible_changes : Revertible (changes fs fails) s.tree := by
  constructor
  · exact (h.proc_mkdir dirname []).undone h s.tree.root hfree fails.mkdir
  · intro hok
    exact revertible_files h nodup_files (free_of_mkdir h hfree hok)

theorem attempt_changes_iff :
    (attempt [] (changes fs fails) s.tree).1 = true ↔ fails.NoneOfTree := by
  have hmade : ((mkdir fs fails.mkdir).make s.tree).1 = !fails.mkdir :=
    (h.proc_mkdir dirname []).isSome_of_free s.tree.root hfree fails.mkdir
  rw [changes, attempt, Failures.NoneOfTree]
  by_cases hok : ((mkdir fs fails.mkdir).make s.tree).1 = true
  · rw [if_pos hok, attempt_files_iff h nodup_files (free_of_mkdir h hfree hok)]
    have hfails : fails.mkdir = false := by simpa [hmade] using hok
    simp [hfails]
  · rw [if_neg hok]
    have hfails : fails.mkdir = true := by simpa [hmade] using hok
    simp [hfails]

/-- Where the calls of the tree succeed, the directory and nothing but its
files are new. -/
theorem entries_of_load (hok : fails.NoneOfTree) :
    (init_simpleproc fs fails s).2.tree.entry [dirname] = some .dir ∧
      ∀ p, p ≠ [dirname] → (∀ f ∈ files fails, p ≠ [f.name, dirname]) →
        (init_simpleproc fs fails s).2.tree.entry p = s.tree.entry p := by
  have hattempt := (attempt_changes_iff h hfree).mpr hok
  rw [(init_eq_attempt h).2]
  rw [changes, attempt] at hattempt ⊢
  split at hattempt
  · rename_i hmade
    rw [if_pos hmade]
    have hdir := (free_of_mkdir h hfree hmade).isDir
    constructor
    · rw [attempt_files_elsewhere h hdir hattempt fun f _ => by simp, hdir]
    · intro p hp hfiles
      rw [attempt_files_elsewhere h hdir hattempt hfiles]
      obtain ⟨-, -, hentry⟩ := (h.proc_mkdir dirname []).some_of_isSome s.tree.root hmade
      show (fs.proc_mkdir _ _ _ s.tree).2.entry p = _
      rw [hentry, Function.update_of_ne hp]
  · cases hattempt

theorem ret_of_load :
    (init_simpleproc fs fails s).1 = 0 ↔ fails.NoneOfTree ∧ fails.kmalloc = false := by
  rw [(init_eq_attempt h).1, ← attempt_changes_iff h hfree]
  split_ifs with hok hkmalloc <;> simp_all [ENOMEM]

end free

/-- `KU` is removed although it was there before. -/
theorem taken_removed (h : fs.Documented) (htaken : s.tree.entry [dirname] ≠ none) :
    (init_simpleproc fs fails s).1 = -1 ∧
      (init_simpleproc fs fails s).2.tree.entry [dirname] = none := by
  have hnull := (h.proc_mkdir dirname []).taken fails.mkdir s.tree htaken
  rcases hm : fs.proc_mkdir fails.mkdir dirname [] s.tree with ⟨_ | parent, t⟩
  · simp only [init_simpleproc, hm, true_and]
    exact h.remove_gone dirname [] t
  · simp [hm] at hnull

/-- **The error branches take everything back**, where `KU` was not there
and `kmalloc` is not the only call that fails. -/
theorem tree_of_failed (h : fs.Documented) (hfree : s.tree.entry [dirname] = none)
    (hkmalloc : ¬ (fails.NoneOfTree ∧ fails.kmalloc = true))
    (hret : (init_simpleproc fs fails s).1 ≠ 0) :
    (init_simpleproc fs fails s).2.tree = s.tree := by
  have hfails : (attempt [] (changes fs fails) s.tree).1 = false := by
    rw [← Bool.not_eq_true, attempt_changes_iff h hfree]
    intro hok
    have hfalse : fails.kmalloc = false := by simpa using not_and.mp hkmalloc hok
    exact hret ((ret_of_load h hfree).mpr ⟨hok, hfalse⟩)
  rw [(init_eq_attempt h).2]
  exact attempt_fails (revertible_changes h hfree) rfl hfails

/-- **When a failed load leaves the tree as it was.** -/
theorem failed_load_leaves_tree_iff (fs : ProcFs) (h : fs.Documented) (fails : Failures)
    (s : State) :
    ((init_simpleproc fs fails s).1 ≠ 0 → (init_simpleproc fs fails s).2.tree = s.tree) ↔
      s.tree.entry [dirname] = none ∧ ¬ (fails.NoneOfTree ∧ fails.kmalloc = true) := by
  constructor
  · intro hleaves
    have hfree : s.tree.entry [dirname] = none := by
      by_contra htaken
      obtain ⟨hret, hgone⟩ := taken_removed h htaken
      rw [hleaves (by rw [hret]; decide)] at hgone
      exact htaken hgone
    refine ⟨hfree, ?_⟩
    rintro ⟨hok, hkmalloc⟩
    -- the entries are made, and stay
    have hret : (init_simpleproc fs fails s).1 ≠ 0 := by
      simp [ret_of_load h hfree, hkmalloc]
    have hdir := (entries_of_load h hfree hok).1
    rw [hleaves hret, hfree] at hdir
    cases hdir
  · rintro ⟨hfree, hkmalloc⟩ hret
    exact tree_of_failed h hfree hkmalloc hret

/-- Only the last `proc_create` fails, and the five entries made before it
are taken back. -/
theorem failed_load_at_dynamic :
    (init_simpleproc procfs { noFailure with dynamic := true } ⟨.empty, [], none⟩).2.tree =
      .empty :=
  (failed_load_leaves_tree_iff procfs procfs_documented { noFailure with dynamic := true }
    ⟨.empty, [], none⟩).mpr ⟨rfl, by decide⟩ (by decide)

/-- Without memory for the manager the six entries stay; a `KU` that was
there before is lost. -/
theorem failed_load_changes_tree :
    ((init_simpleproc procfs { noFailure with kmalloc := true } ⟨.empty, [], none⟩).1 = -12 ∧
      (init_simpleproc procfs { noFailure with kmalloc := true }
        ⟨.empty, [], none⟩).2.tree.entry ["user", "KU"] = some (.file 0o666 .user_fops) ∧
      ProcTree.empty.entry ["user", "KU"] = none) ∧
    (init_simpleproc procfs noFailure ⟨withKU, [], none⟩).1 = -1 ∧
      (init_simpleproc procfs noFailure ⟨withKU, [], none⟩).2.tree.entry ["KU"] = none ∧
      withKU.entry ["KU"] = some .dir := by
  decide

/-! ## Loading and unloading -/

/-- What `remove_entries` removes, in any order. -/
theorem remove_entries_entry (h : fs.Documented) {dir : Path} {names : List String}
    {t : ProcTree} (hleaf : ∀ name ∈ names, ∀ child, t.entry (child :: name :: dir) = none)
    (p : Path) :
    (remove_entries fs dir names t).entry p =
      if ∃ name ∈ names, p = name :: dir then none else t.entry p := by
  induction names generalizing t with
  | nil => simp [remove_entries]
  | cons name names ih =>
      have hentry := h.remove_leaf name dir t (hleaf name (List.mem_cons_self ..))
      rw [remove_entries, ih]
      · by_cases hp : p = name :: dir
        · subst hp
          simp [hentry]
        · simp [hentry, hp]
      · intro other hmem child
        rw [hentry]
        by_cases heq : child :: other :: dir = name :: dir
        · rw [heq, Function.update_self]
        · rw [Function.update_of_ne heq]
          exact hleaf other (List.mem_cons_of_mem _ hmem) child

theorem parent_of_load (h : fs.Documented) (hret : (init_simpleproc fs fails s).1 = 0) :
    (init_simpleproc fs fails s).2.parent = [dirname] := by
  rcases hm : fs.proc_mkdir fails.mkdir dirname [] s.tree with ⟨_ | parent, t⟩
  · simp [init_simpleproc, hm] at hret
  · cases parent_of_mkdir h hm
    simp only [init_simpleproc, hm, init_ptrmng] at hret ⊢
    split_ifs at hret ⊢ <;> simp_all

/-- **Unloading takes a load back.** -/
theorem exit_of_load (h : fs.Documented) (hfree : s.tree.entry [dirname] = none)
    (hret : (init_simpleproc fs fails s).1 = 0) :
    (exit_simpleproc fs (init_simpleproc fs fails s).2).tree = s.tree := by
  have hok := ((ret_of_load h hfree).mp hret).1
  obtain ⟨-, helse⟩ := entries_of_load h hfree hok
  -- nothing is below the files, nor below the directory
  have hbelow : ∀ name, s.tree.entry [name, dirname] = none := by
    intro name
    exact s.tree.no_child (by simp [hfree]) name
  have hleaf : ∀ name ∈ ["user", "system", "intr", "total", "dynamic"], ∀ child,
      (init_simpleproc fs fails s).2.tree.entry [child, name, dirname] = none := by
    intro name _ child
    rw [helse _ (by simp) fun f _ => by simp]
    exact s.tree.no_child (by simp [hbelow]) child
  have hfiles : ∀ p, (∃ f ∈ files fails, p = [f.name, dirname]) ↔
      ∃ name ∈ ["user", "system", "intr", "total", "dynamic"], p = [name, dirname] := by
    simp [files]
  have hremoved := remove_entries_entry h hleaf
  have hempty : ∀ child, (remove_entries fs [dirname]
      ["user", "system", "intr", "total", "dynamic"]
      (init_simpleproc fs fails s).2.tree).entry [child, dirname] = none := by
    intro child
    rw [hremoved]
    split
    · rfl
    · rename_i hnot
      rw [← hfiles] at hnot
      rw [helse _ (by simp) fun f hf heq => hnot ⟨f, hf, heq⟩, hbelow]
  ext1
  funext p
  rw [exit_simpleproc, parent_of_load h hret]
  dsimp only
  rw [h.remove_leaf dirname [] _ hempty]
  by_cases hp : p = [dirname]
  · rw [hp, Function.update_self, hfree]
  · rw [Function.update_of_ne hp, hremoved]
    split
    · rename_i hfile
      obtain ⟨name, -, rfl⟩ := hfile
      exact (hbelow name).symm
    · rename_i hnot
      rw [← hfiles] at hnot
      exact helse p hp fun f hf heq => hnot ⟨f, hf, heq⟩

inductive Action
  | insmod (fails : Failures)
  | rmmod

inductive System
  | unloaded (t : ProcTree)
  | loaded (s : State)

/-- A load that fails leaves no module to unload. -/
def step (fs : ProcFs) : System → Action → Option System
  | .unloaded t, .insmod fails =>
      let r := init_simpleproc fs fails ⟨t, [], none⟩
      some (if r.1 = 0 then .loaded r.2 else .unloaded r.2.tree)
  | .loaded s, .rmmod => some (.unloaded (exit_simpleproc fs s).tree)
  | _, _ => none

/-- `kmalloc` is not the only call that fails. -/
def NotKmallocAlone (_ : System) : Action → Prop
  | .insmod fails => ¬ (fails.NoneOfTree ∧ fails.kmalloc = true)
  | .rmmod => True

/-- The tree that is left, or will be left once the module is unloaded. -/
def System.LeadsTo (fs : ProcFs) (t : ProcTree) : System → Prop
  | .unloaded t' => t' = t
  | .loaded s => (exit_simpleproc fs s).tree = t

theorem System.LeadsTo.step (h : fs.Documented) {t : ProcTree} (hfree : t.entry [dirname] = none)
    {x x' : System} {a : Action} (hx : x.LeadsTo fs t) (hguard : NotKmallocAlone x a)
    (hstep : Load.step fs x a = some x') : x'.LeadsTo fs t := by
  cases x with
  | unloaded t' =>
      cases a with
      | rmmod => cases hstep
      | insmod fails =>
          cases hx
          simp only [Load.step, Option.some.injEq] at hstep
          subst hstep
          split
          · rename_i hret
            exact exit_of_load h hfree hret
          · rename_i hret
            exact tree_of_failed (s := ⟨t, [], none⟩) h hfree hguard hret
  | loaded s =>
      cases a with
      | insmod fails => cases hstep
      | rmmod =>
          cases hstep
          exact hx

/-- **Loads and unloads leave no trace**, where `KU` was not there at first
and `kmalloc` never fails alone. -/
theorem loads_leave_tree (h : fs.Documented) {t t' : ProcTree}
    (hfree : t.entry [dirname] = none)
    (hreach : Run.Reachable (step fs) NotKmallocAlone (.unloaded t) (.unloaded t')) : t' = t :=
  hreach.invariant (I := System.LeadsTo fs t) rfl fun hx hguard hstep =>
    hx.step h hfree hguard hstep

end CorePartitioning.KTimer.Load
