import CorePartitioning.Lib.Scan

/-!
# affinity — the CPU a process or a thread runs on

`get_pid_cpu` and `get_tid_cpu` read the same line in two ways, one token
after another and with one format. The line has the processor as its 39th
field. The format finds it there, unless the name of the command has white
space in it; the loop over the tokens returns the one after it.
-/

namespace CorePartitioning.Preload.ProcStat

open Decimal Scan

/-! ## The code -/

/-- The files that are opened, by the formats of their paths. -/
inductive Path
  /-- `/proc/%d/stat` -/
  | stat (pid : Int)
  /-- `/proc/%d/status` -/
  | status (tid : Int)
  /-- `/proc/%d/task/%d/stat` -/
  | task_stat (pid tid : Int)
  deriving DecidableEq, Repr

/-- What the files contain; `none` where `fopen` fails. -/
abbrev Files := Path → Option (List Char)

def isBlank (c : Char) : Bool := c = ' '

/-- `while (token != NULL)`, entered with a token and `i = 38 - left`. -/
def tokenLoop : Nat → List Char → Option (List Char)
  | 0, rest => (strtok isBlank rest).map fun (token, _) => token
  | left + 1, rest => (strtok isBlank rest).bind fun (_, rest) => tokenLoop left rest

/-- `none` where the code goes on with a NULL `token`, or with `token` or
`stat` never set. -/
def get_pid_cpu (files : Files) (getpid : Int) : Option Int := do
  let text ← files (.stat getpid)
  let (stat, _) ← fgets 1024 text
  let (_, rest) ← strtok isBlank stat
  let token ← tokenLoop 38 rest
  return atoi token

def tgidPrefix : List Char := "Tgid:".toList

def tgidFormat : List Directive := directives .text "Tgid: %d".toList

/-- `while (fgets(line, sizeof(line), fp) != NULL)` -/
def statusLoop (text : List Char) : Int :=
  match h : fgets 256 text with
  | none => -1
  | some (line, rest) =>
      if tgidPrefix.isPrefixOf line then (stored (sscanf tgidFormat line)).getD (-1)
      else statusLoop rest
termination_by text.length
decreasing_by exact length_fgets (by decide) h

def get_pid_from_tid (files : Files) (tid : Int) : Int :=
  match files (.status tid) with
  | none => -1
  | some text => statusLoop text

def cpuFormat : List Directive :=
  directives .text
    "%*d %*s %*c %*d %*d %*d %*d %*d %*u %*lu %*li %*li %*lu %*lu %*lu %*ld %*ld %*ld %*ld %*ld %*ld %*llu %*lu %*ld %*lu %*lu %*lu %*lu %*lu %*lu %*lu %*lu %*lu %*lu %*lu %*lu %*lu %*d %d".toList

/-- `none` where `cpu` is returned without having been set. -/
def get_tid_cpu (files : Files) (tid : Int) : Option Int :=
  let pid := get_pid_from_tid files tid
  match files (.task_stat pid tid) with
  | none => some (-1)
  | some text =>
      match fgets 1024 text with
      | none => some (-1)
      | some (buffer, _) => stored (sscanf cpuFormat buffer)

/-! ## The line -/

/-- A line of `stat`. -/
structure Stat where
  pid : Int
  comm : List Char
  state : Char
  /-- Fields 4 to 38. -/
  numbers : List Int
  processor : Int
  rt_priority : Int
  /-- The fields from the 41st on. -/
  others : List Int
  pid_int : 0 ≤ pid ∧ pid < 2 ^ 31
  comm_chars : ∀ c ∈ comm, c ≠ '\n' ∧ c.toNat ≠ 0
  /-- The kernel's buffer for a name has 64 characters. -/
  comm_length : comm.length < 64
  state_letter : 65 ≤ state.toNat ∧ state.toNat ≤ 122
  numbers_length : numbers.length = 35
  numbers_long : ∀ x ∈ numbers, -2 ^ 63 ≤ x ∧ x < 2 ^ 64
  processor_int : 0 ≤ processor ∧ processor < 2 ^ 31
  rt_priority_int : 0 ≤ rt_priority ∧ rt_priority < 2 ^ 31

/-- The second field. -/
def Stat.name (st : Stat) : List Char := '(' :: (st.comm ++ [')'])

/-- The fields from the second to the 40th. -/
def Stat.fields (st : Stat) : List (List Char) :=
  st.name :: [st.state] :: (st.numbers ++ [st.processor, st.rt_priority]).map render

def Stat.line (st : Stat) : List Char :=
  render st.pid ++ separated ' ' (st.fields ++ st.others.map render) ++ ['\n']

variable {st : Stat} {files : Files} {pid tid : Int} {t : List Char}

/-- What `fgets` reads ends in the middle of no field among the first 40. -/
theorem length_separated_render {xs : List Int} (h : ∀ x ∈ xs, -2 ^ 63 ≤ x ∧ x < 2 ^ 64) :
    (separated ' ' (xs.map render)).length ≤ 22 * xs.length := by
  induction xs with
  | nil => exact Nat.le_refl 0
  | cons x xs ih =>
      have hx := h x (List.mem_cons_self ..)
      have hlength : (render x).length ≤ 21 :=
        length_render_le_of_natAbs (k := 20) (by decide) (by omega)
      have hrest := ih fun y hy => h y (List.mem_cons_of_mem _ hy)
      rw [List.map_cons, separated, List.flatMap_cons, List.length_append, List.length_cons]
      rw [separated] at hrest
      rw [List.length_cons]
      omega

theorem Stat.length_fields (st : Stat) :
    (render st.pid ++ separated ' ' st.fields).length ≤ 1023 := by
  have hrange : ∀ x ∈ st.numbers ++ [st.processor, st.rt_priority],
      -2 ^ 63 ≤ x ∧ x < 2 ^ 64 := by
    have hprocessor := st.processor_int
    have hpriority := st.rt_priority_int
    intro x hx
    rcases List.mem_append.mp hx with hx | hx
    · exact st.numbers_long x hx
    · simp only [List.mem_cons, List.not_mem_nil, or_false] at hx
      omega
  have hnumbers := length_separated_render hrange
  have hpid := length_render_le (k := 10) (by decide) st.pid_int.1 (by have := st.pid_int; omega)
  have hcomm := st.comm_length
  rw [List.length_append, List.length_cons, List.length_cons, List.length_nil,
    st.numbers_length] at hnumbers
  simp only [separated, Stat.fields, Stat.name, List.length_append, List.flatMap_cons,
    List.length_cons, List.length_nil] at hnumbers ⊢
  omega

theorem Stat.newline_not_mem (st : Stat) :
    '\n' ∉ render st.pid ++ separated ' ' st.fields := by
  intro hmem
  rcases List.mem_append.mp hmem with hmem | hmem
  · exact newline_not_mem_render _ hmem
  · refine not_mem_separated (by decide) ?_ hmem
    intro w hw hmem
    simp only [Stat.fields, List.mem_cons, List.mem_map] at hw
    rcases hw with rfl | rfl | ⟨x, -, rfl⟩
    · simp only [Stat.name, List.mem_cons, List.mem_append, List.not_mem_nil, or_false] at hmem
      rcases hmem with hmem | hmem | hmem
      · exact absurd hmem (by decide)
      · exact (st.comm_chars _ hmem).1 rfl
      · exact absurd hmem (by decide)
    · have hstate := st.state_letter
      rw [← List.mem_singleton.mp hmem] at hstate
      exact absurd hstate (by decide)
    · exact newline_not_mem_render x hmem

/-- **The buffer holds the first 40 fields**, whatever comes behind them. -/
theorem fgets_stat (st : Stat) :
    ∃ t rest, fgets 1024 st.line = some (render st.pid ++ separated ' ' st.fields ++ t, rest) ∧
      Blank t := by
  have hline : st.line = (render st.pid ++ separated ' ' st.fields) ++
      (separated ' ' (st.others.map render) ++ ['\n']) := by
    rw [Stat.line, separated_append]
    simp only [List.append_assoc]
  have hne : st.line ≠ [] := by simp [Stat.line]
  have hblank : Blank (separated ' ' (st.others.map render) ++ ['\n']) := by
    apply Blank.separated
    intro c hc
    cases hc
    rfl
  have hread := takeLine_append st.newline_not_mem
    (separated ' ' (st.others.map render) ++ ['\n']) st.length_fields
  have ht : Blank (takeLine (1023 - (render st.pid ++ separated ' ' st.fields).length)
      (separated ' ' (st.others.map render) ++ ['\n'])).1 := by
    intro c hc
    exact hblank c (takeLine_head _ _ c hc)
  rw [fgets, if_neg hne, hline, hread]
  exact ⟨_, _, rfl, ht⟩

/-! ## The tokens -/

theorem token_of_not_mem {w : List Char} (hne : w ≠ []) (hw : ' ' ∉ w) : Token isBlank w := by
  refine ⟨hne, ?_⟩
  intro c hc
  have hspace : c ≠ ' ' := by
    rintro rfl
    exact hw hc
  simp [isBlank, hspace]

theorem space_not_mem_render (x : Int) : ' ' ∉ render x := by
  intro h
  exact absurd (isSpace_render_eq_false h) (by decide)

theorem tokenLoop_space (left : Nat) (s : List Char) :
    tokenLoop left (' ' :: s) = tokenLoop left s := by
  cases left <;> rw [tokenLoop, tokenLoop, strtok_delim (by decide)]

/-- **The loop returns the last of its tokens**, with the text behind it up
to the next space. -/
theorem tokenLoop_separated {ws : List (List Char)} {w : List Char}
    (hws : ∀ v ∈ ws, Token isBlank v) (hw : Token isBlank w) (t : List Char) :
    tokenLoop ws.length (separated ' ' (ws ++ [w]) ++ t) =
      some (w ++ t.takeWhile (!isBlank ·)) := by
  induction ws with
  | nil =>
      show tokenLoop 0 (' ' :: (w ++ [] ++ t)) = _
      rw [tokenLoop_space, List.append_nil, tokenLoop, strtok_word hw]
      rfl
  | cons v ws ih =>
      obtain ⟨s, hs⟩ : ∃ s, separated ' ' (ws ++ [w]) ++ t = ' ' :: s := by
        cases ws with
        | nil => exact ⟨_, rfl⟩
        | cons u ws => exact ⟨_, rfl⟩
      have hcons : separated ' ' (v :: ws ++ [w]) ++ t = ' ' :: (v ++ ' ' :: s) := by
        rw [← hs]
        simp [separated]
      rw [hcons, tokenLoop_space, List.length_cons, tokenLoop,
        strtok_separated (by decide) (hws v (List.mem_cons_self ..))]
      rw [Option.bind_some]
      dsimp only
      rw [← tokenLoop_space, ← hs]
      exact ih fun v hv => hws v (List.mem_cons_of_mem _ hv)

theorem Stat.tokens (st : Stat) (h : ' ' ∉ st.comm) :
    ∀ w ∈ st.name :: [st.state] :: (st.numbers ++ [st.processor]).map render,
      Token isBlank w := by
  intro w hw
  simp only [List.mem_cons, List.mem_map] at hw
  rcases hw with rfl | rfl | ⟨x, -, rfl⟩
  · apply token_of_not_mem (List.cons_ne_nil _ _)
    simp [h]
  · apply token_of_not_mem (List.cons_ne_nil _ _)
    have hstate := st.state_letter
    intro hspace
    rw [← List.mem_singleton.mp hspace] at hstate
    exact absurd hstate (by decide)
  · exact token_of_not_mem (render_ne_nil x) (space_not_mem_render x)

/-- **`get_pid_cpu` returns the 40th field** of a line in which no name
makes tokens of its own. -/
theorem get_pid_cpu_eq (hstat : files (.stat pid) = some st.line) (h : ' ' ∉ st.comm) :
    get_pid_cpu files pid = some st.rt_priority := by
  obtain ⟨t, rest, hread, ht⟩ := fgets_stat st
  obtain ⟨s, hs⟩ : ∃ s, separated ' ' st.fields ++ t = ' ' :: s := ⟨_, rfl⟩
  have hfirst : strtok isBlank (render st.pid ++ separated ' ' st.fields ++ t) =
      some (render st.pid, s) := by
    rw [List.append_assoc, hs]
    exact strtok_separated (by decide)
      (token_of_not_mem (render_ne_nil _) (space_not_mem_render _))
  have hfields : st.fields = st.name :: [st.state] ::
      (st.numbers ++ [st.processor]).map render ++ [render st.rt_priority] := by
    simp [Stat.fields]
  have hlength :
      (st.name :: [st.state] :: (st.numbers ++ [st.processor]).map render).length = 38 := by
    simp [st.numbers_length]
  have hloop := tokenLoop_separated (st.tokens h)
    (token_of_not_mem (render_ne_nil st.rt_priority) (space_not_mem_render _)) t
  rw [← hfields, hs, tokenLoop_space, hlength] at hloop
  have hdigit : NoDigit (t.takeWhile (!isBlank ·)) := by
    intro c hc
    cases t with
    | nil => cases hc
    | cons a t =>
        rw [List.takeWhile_cons] at hc
        split at hc
        · exact ht.noDigit c hc
        · cases hc
  simp only [get_pid_cpu, hstat, hread, hfirst, hloop, Option.bind_eq_bind, Option.bind_some,
    Option.pure_def, atoi_render _ hdigit]

/-! ## The format -/

/-- The conversions between the state and the processor. -/
def counters : List Conv :=
  [.d, .d, .d, .d, .d, .u, .u, .i, .i, .u, .u, .u, .d, .d, .d, .d, .d, .d, .u, .u, .d,
    .u, .u, .u, .u, .u, .u, .u, .u, .u, .u, .u, .u, .u, .d]

theorem cpuFormat_eq :
    cpuFormat =
      .conv true .d :: .space :: .conv true .s :: .space :: .conv true .c ::
        (spaced counters ++ [.space, .conv false .d]) := by
  -- the characters of the literal, without decoding it
  rw [cpuFormat, String.toList_ofList]
  decide +kernel

theorem isInt_counters : ∀ k ∈ counters, k.IsInt := by decide

theorem Stat.state_not_space (st : Stat) : isSpace st.state = false := by
  by_contra hspace
  have hle := isSpace_le (by simpa using hspace)
  have hge := st.state_letter.1
  omega

/-- No number begins with the state. -/
theorem Stat.signed_state (st : Stat) (b : Bool) (s : List Char) :
    signed b (st.state :: s) = none := by
  have hge := st.state_letter.1
  apply signed_eq_none b s st.state_not_space
  · by_contra hdigit
    have hle := (toNat_of_isDigit (by simpa using hdigit)).2
    omega
  · constructor <;> intro heq <;> exact absurd (heq ▸ hge) (by decide)

theorem Stat.separated_fields (st : Stat) (t : List Char) :
    separated ' ' st.fields ++ t = ' ' :: (st.name ++ ' ' :: st.state :: (separated ' '
      ((st.numbers ++ [st.processor, st.rt_priority]).map render) ++ t)) := by
  simp [Stat.fields, separated]

/-- The process id, which every name has behind it. -/
theorem sscanf_pid (st : Stat) (ds : List Directive) (t : List Char) :
    sscanf (.conv true .d :: ds) (render st.pid ++ separated ' ' st.fields ++ t) =
      sscanf ds (separated ' ' st.fields ++ t) := by
  have hblank : Blank (separated ' ' st.fields ++ t) := by
    intro c hc
    cases hc
    rfl
  rw [sscanf, read_int (by decide), List.append_assoc, signed_render _ _ hblank]
  rfl

theorem get_tid_cpu_of_fgets {text buffer rest : List Char}
    (htask : files (.task_stat (get_pid_from_tid files tid) tid) = some text)
    (hread : fgets 1024 text = some (buffer, rest)) :
    get_tid_cpu files tid = stored (sscanf cpuFormat buffer) := by
  simp only [get_tid_cpu, htask, hread]

/-- **`get_tid_cpu` returns the processor** where the name is one word. -/
theorem get_tid_cpu_eq (htask : files (.task_stat (get_pid_from_tid files tid) tid) = some st.line)
    (h : ∀ c ∈ st.comm, isSpace c = false) : get_tid_cpu files tid = some st.processor := by
  obtain ⟨t, rest, hread, ht⟩ := fgets_stat st
  have hname : Token isSpace st.name := by
    refine ⟨List.cons_ne_nil _ _, ?_⟩
    intro c hc
    simp only [Stat.name, List.mem_cons, List.mem_append, List.not_mem_nil, or_false] at hc
    rcases hc with rfl | hc | rfl
    · decide
    · exact h c hc
    · decide
  have hvalues : sscanf cpuFormat
      (render st.pid ++ separated ' ' st.fields ++ t) = [.int st.processor] := by
    have hlast : Blank (separated ' ' [render st.rt_priority] ++ t) := ht.separated _
    have hstate : (' ' :: st.state :: (separated ' '
        ((st.numbers ++ [st.processor, st.rt_priority]).map render) ++ t)).dropWhile isSpace =
        st.state :: (separated ' '
          ((st.numbers ++ [st.processor, st.rt_priority]).map render) ++ t) := by
      rw [List.dropWhile_cons_of_pos (by decide),
        List.dropWhile_cons_of_neg (by simp [st.state_not_space])]
    have hsplit : separated ' ' ((st.numbers ++ [st.processor, st.rt_priority]).map render) ++ t =
        separated ' ' (st.numbers.map render) ++
          ' ' :: (render st.processor ++ (separated ' ' [render st.rt_priority] ++ t)) := by
      simp [separated]
    have hname_end : Blank (' ' :: st.state :: (separated ' '
        ((st.numbers ++ [st.processor, st.rt_priority]).map render) ++ t)) := by
      intro c hc
      cases hc
      rfl
    rw [cpuFormat_eq, sscanf_pid, st.separated_fields,
      sscanf_space_word _ hname hname_end, sscanf_space_char _ hstate, hsplit,
      sscanf_spaced_render isInt_counters st.numbers_length,
      sscanf_stored (by decide) (by decide) st.processor hlast]
    intro c hc
    cases hc
    rfl
  rw [get_tid_cpu_of_fgets htask hread, hvalues]
  rfl

theorem foreign_parenthesis : Foreign ')' := by
  constructor <;> decide

theorem cost_counters : 62 ≤ cost true counters := by decide

/-- **With white space in the name, the format does not get to the
processor.** -/
theorem get_tid_cpu_none
    (htask : files (.task_stat (get_pid_from_tid files tid) tid) = some st.line)
    (h : ∃ c ∈ st.comm, isSpace c = true) : get_tid_cpu files tid = none := by
  obtain ⟨t, rest, hread, ht⟩ := fgets_stat st
  have hvalues : sscanf cpuFormat
      (render st.pid ++ separated ' ' st.fields ++ t) = [] := by
    obtain ⟨a, c, b, hcomm, ha, hc⟩ := exists_first_space h
    have hword : Token isSpace ('(' :: a) := by
      refine ⟨List.cons_ne_nil _ _, ?_⟩
      intro x hx
      rcases List.mem_cons.mp hx with rfl | hx
      · decide
      · exact ha x hx
    -- the text behind the name's first word
    let r := ' ' :: st.state :: (separated ' '
      ((st.numbers ++ [st.processor, st.rt_priority]).map render) ++ t)
    have hsplit : st.name ++ r = ('(' :: a) ++ (c :: b ++ ')' :: r) := by
      simp [Stat.name, hcomm]
    have hend : Blank (c :: b ++ ')' :: r) := by
      intro x hx
      cases hx
      exact hc
    have hlength : b.length ≤ 62 := by
      have hbound := st.comm_length
      rw [hcomm, List.length_append, List.length_cons] at hbound
      omega
    have hdrop : (c :: b ++ ')' :: r).dropWhile isSpace = b.dropWhile isSpace ++ ')' :: r := by
      rw [dropWhile_stop (by decide), List.dropWhile_cons_of_pos hc]
    rw [cpuFormat_eq, sscanf_pid, st.separated_fields]
    show sscanf _ (' ' :: (st.name ++ r)) = []
    rw [hsplit, sscanf_space_word _ hword hend]
    cases hb : b.dropWhile isSpace with
    | nil =>
        -- `%*c` takes the parenthesis, and the state is no integer
        rw [hb] at hdrop
        rw [sscanf_space_char _ hdrop]
        show sscanf (.space :: .conv true .d :: _) r = []
        rw [sscanf_space_conv (by decide), signed_space (by decide), st.signed_state]
    | cons x w =>
        -- `%*c` takes the first character of the next word, and the rest of the
        -- name is too short for the integers
        rw [hb] at hdrop
        have hw : w.length ≤ 61 := by
          have hle := (List.dropWhile_suffix (l := b) isSpace).length_le
          rw [hb, List.length_cons] at hle
          omega
        have hshort : sscanf (spaced counters ++ [.space, .conv false .d]) (w ++ ')' :: r) = [] ∨
            cost true counters ≤ w.length :=
          sscanf_spaced_short foreign_parenthesis isInt_counters (by simp)
        rw [sscanf_space_char _ hdrop]
        rcases hshort with hend | hcost
        · exact hend
        · have hge := cost_counters
          omega
  rw [get_tid_cpu_of_fgets htask hread, hvalues]
  rfl

/-! ## Which file a thread's line is read from -/

/-- A line that the loop goes past. -/
def OtherLine (l : List Char) : Prop := '\n' ∉ l ∧ l.length < 255 ∧ ¬ tgidPrefix <+: l

/-- What `status` contains up to the thread group, and behind it. -/
structure Status where
  before : List (List Char)
  tgid : Int
  after : List Char
  before_lines : ∀ l ∈ before, OtherLine l
  tgid_int : 0 ≤ tgid ∧ tgid < 2 ^ 31

def Status.text (s : Status) : List Char :=
  s.before.flatMap (· ++ ['\n']) ++ ((tgidPrefix ++ ['\t']) ++ line s.tgid ++ s.after)

theorem tgidPrefix_eq : tgidPrefix = ['T', 'g', 'i', 'd', ':'] := String.toList_ofList

theorem OtherLine.statusLoop {l : List Char} (h : OtherLine l) (rest : List Char) :
    statusLoop (l ++ ['\n'] ++ rest) = statusLoop rest := by
  obtain ⟨hl, hlength, hprefix⟩ := h
  have hread : fgets 256 (l ++ ['\n'] ++ rest) = some (l ++ ['\n'], rest) := by
    have hne : l ++ ['\n'] ++ rest ≠ [] := by simp
    rw [fgets, if_neg hne, List.append_assoc, List.singleton_append,
      takeLine_newline hl rest hlength]
  have hother : ¬ tgidPrefix.isPrefixOf (l ++ ['\n']) = true := by
    rw [List.isPrefixOf_iff_prefix, List.prefix_concat_iff]
    rintro (heq | h)
    · have hlast := congrArg List.getLast? heq
      simp [tgidPrefix_eq] at hlast
    · exact hprefix h
  rw [ProcStat.statusLoop]
  split
  · rename_i hnone
    rw [hread] at hnone
    cases hnone
  · rename_i hsome
    rw [hread] at hsome
    cases hsome
    rw [if_neg hother]

theorem statusLoop_lines {ls : List (List Char)}
    (h : ∀ l ∈ ls, OtherLine l) (rest : List Char) :
    statusLoop (ls.flatMap (· ++ ['\n']) ++ rest) = statusLoop rest := by
  induction ls with
  | nil => rfl
  | cons l ls ih =>
      rw [List.flatMap_cons, List.append_assoc, (h l (List.mem_cons_self ..)).statusLoop]
      exact ih fun l hl => h l (List.mem_cons_of_mem _ hl)

theorem tgidFormat_eq :
    tgidFormat =
      [.lit 'T', .lit 'g', .lit 'i', .lit 'd', .lit ':', .space, .conv false .d] := by
  rw [tgidFormat, String.toList_ofList]
  decide +kernel

/-- **`get_pid_from_tid` returns the thread group**, whatever lines stand
before it. -/
theorem get_pid_from_tid_eq {s : Status} (h : files (.status tid) = some s.text) :
    get_pid_from_tid files tid = s.tgid := by
  have hint := length_render_le (k := 10) (by decide) s.tgid_int.1 (by have := s.tgid_int; omega)
  have hnewline : '\n' ∉ (tgidPrefix ++ ['\t']) ++ render s.tgid := by
    intro hmem
    rcases List.mem_append.mp hmem with hmem | hmem
    · exact absurd hmem (by decide)
    · exact newline_not_mem_render _ hmem
  have hlength : ((tgidPrefix ++ ['\t']) ++ render s.tgid).length < 255 := by
    rw [List.length_append]
    have htag : (tgidPrefix ++ ['\t']).length = 6 := by decide
    omega
  have hread : fgets 256 ((tgidPrefix ++ ['\t']) ++ line s.tgid ++ s.after) =
      some ((tgidPrefix ++ ['\t']) ++ line s.tgid, s.after) := by
    have hne : (tgidPrefix ++ ['\t']) ++ line s.tgid ++ s.after ≠ [] := by simp [line]
    have htake := takeLine_newline hnewline s.after hlength
    rw [fgets, if_neg hne]
    simpa [line] using htake
  have hvalue : sscanf tgidFormat ((tgidPrefix ++ ['\t']) ++ line s.tgid) =
      [.int s.tgid] := by
    have hblank : Blank ['\n'] := by
      intro c hc
      cases hc
      rfl
    rw [tgidFormat_eq]
    show sscanf [.space, .conv false .d] ('\t' :: (render s.tgid ++ ['\n'])) = _
    exact sscanf_stored (by decide) (by decide) _ hblank
  rw [get_pid_from_tid, h]
  show statusLoop s.text = _
  rw [Status.text, statusLoop_lines s.before_lines, statusLoop]
  split
  · rename_i hnone
    rw [hread] at hnone
    cases hnone
  · rename_i hsome
    rw [hread] at hsome
    cases hsome
    rw [if_pos (by rfl), hvalue]
    rfl

/-! ### A machine with one process -/

def Stat.status (st : Stat) : Status where
  before := ["Umask:\t0022".toList]
  tgid := st.pid
  after := []
  before_lines := by
    intro l hl
    rw [List.mem_singleton.mp hl, OtherLine, tgidPrefix_eq]
    decide
  tgid_int := st.pid_int

/-- The files of a process with a single thread. -/
def only (st : Stat) : Files
  | .stat pid => if pid = st.pid then some st.line else none
  | .status tid => if tid = st.pid then some st.status.text else none
  | .task_stat pid tid => if pid = st.pid ∧ tid = st.pid then some st.line else none

theorem only_stat (st : Stat) : only st (.stat st.pid) = some st.line := if_pos rfl

theorem only_task (st : Stat) :
    only st (.task_stat (get_pid_from_tid (only st) st.pid) st.pid) = some st.line := by
  have hstatus : only st (.status st.pid) = some st.status.text := if_pos rfl
  rw [get_pid_from_tid_eq hstatus]
  exact if_pos ⟨rfl, rfl⟩

/-- A process at rest that has run on the given CPU. -/
def sleeping (comm : List Char) (processor : Int)
    (hcomm : comm.all (32 ≤ ·.toNat) = true ∧ comm.length < 64)
    (hprocessor : 0 ≤ processor ∧ processor < 2 ^ 31) : Stat where
  pid := 4242
  comm := comm
  state := 'S'
  numbers := [4200, 4242, 4242, 34816, 4300, 4194304, 1523, 8410, 0, 2, 4, 1, 17, 6, 20, 0, 1, 0,
    91234, 8523776, 1290, 18446744073709551615, 94017, 94901, 140722, 0, 0, 0, 65536, 3686404,
    1266761467, 1, 0, 0, 17]
  processor := processor
  rt_priority := 0
  others := [0, 0, 0, 0, 95132, 95180, 96344, 140733, 140738, 140738, 140740, 0]
  pid_int := by decide
  comm_chars := by
    intro c hc
    have hprintable := List.all_eq_true.mp hcomm.1 c hc
    simp only [decide_eq_true_eq] at hprintable
    constructor
    · rintro rfl
      exact absurd hprintable (by decide)
    · omega
  comm_length := hcomm.2
  state_letter := by decide
  numbers_length := rfl
  numbers_long := by decide
  processor_int := hprocessor
  rt_priority_int := by decide

def bash0 : Stat := sleeping ['b', 'a', 's', 'h'] 0 (by decide) (by decide)

def bash3 : Stat := sleeping ['b', 'a', 's', 'h'] 3 (by decide) (by decide)

def webContent3 : Stat :=
  sleeping ['W', 'e', 'b', ' ', 'C', 'o', 'n', 't', 'e', 'n', 't'] 3 (by decide) (by decide)

/-! ## Both -/

/-- **When both functions return the processor**: the name is one word, and
the field behind the processor happens to have its value. -/
theorem processor_read_iff (files : Files) (pid tid : Int) (st : Stat)
    (hstat : files (.stat pid) = some st.line)
    (htask : files (.task_stat (get_pid_from_tid files tid) tid) = some st.line) :
    (get_pid_cpu files pid = some st.processor ∧ get_tid_cpu files tid = some st.processor) ↔
      (∀ c ∈ st.comm, isSpace c = false) ∧ st.rt_priority = st.processor := by
  by_cases hname : ∃ c ∈ st.comm, isSpace c = true
  · have hnot : ¬ ∀ c ∈ st.comm, isSpace c = false := by simpa using hname
    rw [get_tid_cpu_none htask hname]
    simp [hnot]
  · have hword : ∀ c ∈ st.comm, isSpace c = false := by simpa using hname
    have hspace : ' ' ∉ st.comm := by
      intro hmem
      exact absurd (hword ' ' hmem) (by decide)
    rw [get_tid_cpu_eq htask hword, get_pid_cpu_eq hstat hspace]
    constructor
    · rintro ⟨hpriority, -⟩
      exact ⟨hword, Option.some.inj hpriority⟩
    · rintro ⟨-, hpriority⟩
      exact ⟨congrArg some hpriority, rfl⟩

/-- On CPU 0 the two fields agree. -/
theorem processor_read_on_cpu_zero :
    get_pid_cpu (only bash0) 4242 = some 0 ∧ get_tid_cpu (only bash0) 4242 = some 0 :=
  (processor_read_iff (only bash0) 4242 4242 bash0 (only_stat bash0) (only_task bash0)).mpr
    ⟨by simp [bash0, sleeping, isSpace], rfl⟩

/-- On CPU 3 one function returns the real-time priority, and where the
name is two words the other returns nothing. -/
theorem processor_missed_on_cpu_three :
    (get_pid_cpu (only bash3) 4242 = some 0 ∧ get_tid_cpu (only bash3) 4242 = some 3 ∧
      bash3.processor = 3) ∧
    get_tid_cpu (only webContent3) 4242 = none ∧ webContent3.processor = 3 :=
  ⟨⟨get_pid_cpu_eq (only_stat bash3) (by decide),
    get_tid_cpu_eq (only_task bash3) (by simp [bash3, sleeping, isSpace]), rfl⟩,
    get_tid_cpu_none (only_task webContent3) ⟨' ', by simp [webContent3, sleeping], rfl⟩, rfl⟩

end CorePartitioning.Preload.ProcStat
