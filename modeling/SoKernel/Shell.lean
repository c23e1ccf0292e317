import SoKernel.Contract
import Mathlib.Data.List.DropRight

/-!
The shell. `programs/shell.c` reads a line into a buffer, cuts the blanks off its end in
place, compares the buffer with the names of its commands and takes any other name for a
program. From outside it is a session: a prompt, a line, and what that line calls for.
-/
namespace SoKernel.Shell
open SoKernel.Words SoKernel.Fs SoKernel.Syscalls SoKernel.Ulib SoKernel.Dialogue SoKernel.Userland
set_option linter.unusedSimpArgs false

/-! ### Sessions -/

/-- Spaces and newlines at the end do not count. -/
def trimmed (line : List Byte) : List Byte := line.rdropWhile (fun c => c = 32#8 ∨ c = 10#8)

def banner : List (String × Word) :=
  [("=== MiniShell v1.0 ===\n",23#32),("Type 'help' for available commands.\n\n",37#32)]

def help : List (String × Word) :=
  [("Available commands:\n",20#32),
    ("  help    - show this help\n",27#32),
    ("  ls      - list programs\n",26#32),
    ("  clear   - clear screen\n",25#32),
    ("  exit    - halt the system\n",28#32),
    ("  <name>  - run a program\n",26#32)]

def texts (lines : List (String × Word)) : List (List Byte) := lines.map (fun t => chars t.1)

/-- The files, if there are any. -/
def list : Tree Asked Told Unit := do
  let files ← .ask (.files 512#32) .ret
  if files.text = [] then .ret () else prints [files.text]

/-- A program is run to its end, if there is one of this name. -/
def run (name : List Byte) : Tree Asked Told Unit := do
  let pid ← .ask (.spawn name) .ret
  if pid.number.toInt < 0 then prints [chars "Unknown command: ",name,chars "\n"]
  else .ask (.wait pid.number) (fun _ => .ret ())

/-- What a name calls for. -/
def respond (name : List Byte) : Tree Asked Told Unit :=
  if name = [] then .ret ()
  else if name = chars "help" then prints (texts help)
  else if name = chars "ls" then list
  else if name = chars "clear" then .ask .clear (fun _ => .ret ())
  else if name = chars "exit" then do
    prints [chars "Goodbye!\n"]
    .ask .exit (fun _ => .spin)
  else run name

def turn : Tree Asked Told Unit := do
  prints [chars "> "]
  let line ← .ask (.line 127#32) .ret
  respond (trimmed line.text)

def session (n : Nat) : Tree Asked Told Unit := do
  prints (texts banner)
  Tree.rounds (fun _ => turn) n ()

/-! ### The program -/

/-- The buffers of `main`. -/
structure Buffers where
  cmd : Word
  filebuf : Word

def Buffers.Own (b : Buffers) (a : Word) : Prop :=
  (∃ j < 128, a = b.cmd+BitVec.ofNat 32 j) ∨ ∃ j < 512, a = b.filebuf+BitVec.ofNat 32 j

def literals : List String :=
  (banner ++ help).map Prod.fst ++
    ["> ","help","ls","clear","exit","Goodbye!\n","Unknown command: ","\n"]

/-- `while (len > 0 && (cmd[len - 1] == ' ' || cmd[len - 1] == '\n')) cmd[--len] = '\0'`. -/
def trim (cmd : Word) : Nat → Memory → Nat × Memory
  | 0, m => (0,m)
  | len+1, m =>
    if m (cmd+BitVec.ofNat 32 len) = 32#8 ∨ m (cmd+BitVec.ofNat 32 len) = 10#8 then
      trim cmd len (write8 m (cmd+BitVec.ofNat 32 len) 0#8)
    else (len+1,m)

section
variable (b : Buffers) (l : Layout literals b.Own)

/-- The branch of `ls`. -/
def listing (m : Memory) : Code Memory := do
  let r ← listfiles b.filebuf 512#32 m
  if 0 < r.eax.toInt then do
    let r ← write b.filebuf r.eax r.mem
    return r.mem
  else return r.mem

/-- The branch of any other name. -/
def program (m : Memory) : Code Memory := do
  let pid ← spawn b.cmd m
  if pid.eax.toInt < 0 then do
    let r ← write (l.literal "Unknown command: ") 17#32 pid.mem
    let r ← write b.cmd (ustrlen r.mem b.cmd) r.mem
    let r ← write (l.literal "\n") 1#32 r.mem
    return r.mem
  else do
    let r ← wait pid.eax pid.mem
    return r.mem

/-- The commands, for a name in `cmd`. -/
def dispatch (m : Memory) : Code Memory :=
  if streq m b.cmd (l.literal "help") then writes l.literal help m
  else if streq m b.cmd (l.literal "ls") then listing b m
  else if streq m b.cmd (l.literal "clear") then do
    let r ← clear m
    return r.mem
  else if streq m b.cmd (l.literal "exit") then do
    let r ← write (l.literal "Goodbye!\n") 9#32 m
    exit r.mem
  else program b l m

/-- One round of the loop of `main`. -/
def repl (m : Memory) : Code Memory := do
  let r ← write (l.literal "> ") 2#32 m
  let len ← read b.cmd 127#32 r.mem
  if len.eax.toInt ≤ 0 then return len.mem
  else
    let t := trim b.cmd len.eax.toNat (write8 len.mem (b.cmd+len.eax) 0#8)
    if t.1 = 0 then return t.2 else dispatch b l t.2

def main (n : Nat) (m : Memory) : Code Memory := do
  let m ← writes l.literal banner m
  Tree.rounds (repl b l) n m

end

/-! ### Blanks -/

/-- A zero behind a text ends it. -/
theorem holds_ended {m : Memory} {a : Word} {text : List Byte} (holds : Holds m a text) (small : text.length < 2^32) :
    Holds (write8 m (a+BitVec.ofNat 32 text.length) 0#8) a (text++[0#8]) := by
  refine holds_append.mpr ⟨?_,?_⟩
  · refine holds_congr holds (fun i below => ?_)
    have other : a+BitVec.ofNat 32 i ≠ a+BitVec.ofNat 32 text.length := by bv_omega
    rw [write8,if_neg other]
  · intro i d here
    cases i with
    | zero =>
      rw [BitVec.add_zero,write8,if_pos rfl]
      simpa using here
    | succ i => simp at here

/-- The loop cuts off the blanks, and stores to the buffer only. -/
theorem trim_correct {own : Word → Prop} {cmd : Word} (inside : ∀ j < 128, own (cmd+BitVec.ofNat 32 j)) {m₀ m : Memory}
    {line : List Byte} (here : Holds m cmd (line++[0#8])) (short : line.length < 128) (steady : Steady own m₀ m) :
    (trim cmd line.length m).1 = (trimmed line).length ∧
      Holds (trim cmd line.length m).2 cmd (trimmed line++[0#8]) ∧ Steady own m₀ (trim cmd line.length m).2 := by
  -- The last byte is looked at first.
  induction line using List.reverseRecOn generalizing m with
  | nil => exact ⟨rfl,here,steady⟩
  | append_singleton line c ih =>
    rw [List.length_append,List.length_singleton] at short ⊢
    have kept := (holds_append.mp here).1
    have last : m (cmd+BitVec.ofNat 32 line.length) = c := kept line.length c (by simp)
    rw [trim,last,trimmed]
    by_cases blank : c = 32#8 ∨ c = 10#8
    · rw [if_pos blank,List.rdropWhile_concat_pos _ _ _ (by simpa using blank)]
      exact ih (holds_ended (holds_append.mp kept).1 (by omega)) (by omega) (steady_write8 steady (inside _ (by omega)) 0#8)
    · rw [if_neg blank,List.rdropWhile_concat_neg _ _ _ (by simpa using blank),List.length_append,List.length_singleton]
      exact ⟨rfl,here,steady⟩

theorem trimmed_length (line : List Byte) : (trimmed line).length ≤ line.length :=
  List.IsPrefix.length_le ( List.rdropWhile_prefix _ _)

theorem trimmed_text {line : List Byte} (text : Text line) : Text (trimmed line) :=
  fun c member => text c (List.IsPrefix.subset ( List.rdropWhile_prefix _ _) member)

/-! ### The program is a session -/

section
variable {b : Buffers} {l : Layout literals b.Own} {m₀ m : Memory} {name : List Byte}

theorem commands_text : ∀ s ∈ ["help","ls","clear","exit"], Text (chars s) := by
  simp only [Text]
  decide

theorem cmd_own {j : Nat} (inside : j < 128) : b.Own (b.cmd+BitVec.ofNat 32 j) := .inl ⟨j,inside,rfl⟩

theorem filebuf_own {j : Nat} (inside : j < 512) : b.Own (b.filebuf+BitVec.ofNat 32 j) := .inr ⟨j,inside,rfl⟩

theorem streq_literal (placed : l.Placed m₀) (steady : Steady b.Own m₀ m) (here : Holds m b.cmd (name++[0#8]))
    (text : Text name) (short : name.length < 128) {s : String} (command : s ∈ ["help","ls","clear","exit"]) :
    streq m b.cmd (l.literal s) = decide (name = chars s) := by
  have member : s ∈ literals := List.mem_append_right _ (by revert s; decide)
  exact streq_texts here (placed_steady placed steady member) text (commands_text s command) (by omega)

/-- What `listfiles` leaves of the buffer is not looked at. -/
theorem listing_follows (steady : Steady b.Own m₀ m) :
    Follows (l.outside m₀) (fun m' _ => Steady b.Own m₀ m') (listing b m) list := by
  refine follows_bind (follows_call (.listfiles b.filebuf 512#32) steady
    ⟨by decide,fun j below => filebuf_own below⟩) ?_
  rintro ⟨len,m'⟩ t ⟨kept,what⟩
  obtain ⟨text,_,short,eax,left⟩ := kept (by decide)
  have fits : text.length < 512 := short
  have shows : t.text = bytes m' b.filebuf len.toNat := by
    rw [what]
    rfl
  have after : Steady b.Own m₀ m' := by
    rcases left with stored | ⟨_,same⟩
    · rw [show m' = put m b.filebuf (text++[0#8]) from stored]
      refine steady_put steady (fun j below => filebuf_own ?_)
      rw [List.length_append,List.length_singleton] at below
      omega
    · rw [show m' = m from same]
      exact steady
  have number : len.toNat < 512 := by
    rw [show len = BitVec.ofNat 32 text.length from eax,BitVec.toNat_ofNat]
    omega
  have signed : len.toInt = len.toNat := BitVec.toInt_eq_toNat_of_lt (by omega)
  have length : t.text.length = len.toNat := by rw [shows,length_bytes]
  by_cases empty : len.toNat = 0
  · rw [if_neg (show ¬ 0 < len.toInt by omega),if_pos (List.length_eq_zero_iff.mp (length.trans empty))]
    exact .ret after
  · rw [if_pos (show 0 < len.toInt by omega),if_neg (fun none => empty (by rw [← length,none,List.length_nil])),shows]
    refine follows_bind (follows_text after (holds_bytes m' b.filebuf len.toNat) (by rw [length_bytes]) ?_)
      (fun r _ same => ?_)
    · intro j below
      rw [length_bytes] at below
      exact .inl (filebuf_own (by omega))
    · rw [same]
      exact .ret after

/-- The name is in the buffer for `spawn` and for the message. -/
theorem program_follows (placed : l.Placed m₀) (steady : Steady b.Own m₀ m) (here : Holds m b.cmd (name++[0#8]))
    (text : Text name) (short : name.length < 128) :
    Follows (l.outside m₀) (fun m' _ => Steady b.Own m₀ m') (program b l m) (run name) := by
  have spawned : shown ⟨m,.spawn b.cmd⟩ = .spawn name := by
    change Asked.spawn (c_string m b.cmd) = _
    rw [c_string_text here text (by omega)]
  have length : (ustrlen m b.cmd).toNat = name.length := strlen_text here text (by omega)
  have ends : m (b.cmd+BitVec.ofNat 32 name.length) = 0#8 := here name.length 0#8 (by simp)
  rw [run,← spawned]
  refine follows_bind (follows_call (.spawn b.cmd) steady
    ⟨name.length,by omega,ends,fun j below => cmd_own (by omega)⟩) ?_
  rintro r t ⟨kept,what⟩
  obtain ⟨eax,m'⟩ := r
  obtain rfl : m' = m := kept
  have number : t.number = eax := by rw [what]; rfl
  by_cases failed : eax.toInt < 0
  · rw [if_pos failed,if_pos (by rwa [number]),prints_cons,prints_cons name]
    refine follows_bind (follows_literal placed steady (by decide) (by decide)) (fun r _ same => ?_)
    rw [same]
    refine follows_bind (follows_text steady (holds_append.mp here).1 length
      (fun j below => .inl (cmd_own (by omega)))) (fun r _ same => ?_)
    rw [same]
    refine follows_bind (follows_literal placed steady (by decide) (by decide)) (fun r _ same => ?_)
    rw [same]
    exact .ret steady
  · rw [if_neg failed,if_neg (by rwa [number]),number]
    refine follows_bind (follows_call (.wait eax) steady trivial) ?_
    rintro r t ⟨kept,rfl⟩
    rw [show r = ⟨0#32,m'⟩ from kept]
    exact .ret steady

theorem dispatch_follows (placed : l.Placed m₀) (steady : Steady b.Own m₀ m) (here : Holds m b.cmd (name++[0#8]))
    (text : Text name) (short : name.length < 128) (nonempty : name ≠ []) :
    Follows (l.outside m₀) (fun m' _ => Steady b.Own m₀ m') (dispatch b l m) (respond name) := by
  have equal {s : String} (command : s ∈ ["help","ls","clear","exit"]) :
      streq m b.cmd (l.literal s) = decide (name = chars s) := streq_literal placed steady here text short command
  rw [dispatch,equal (by decide),equal (by decide),equal (by decide),equal (by decide),respond,if_neg nonempty]
  simp only [decide_eq_true_eq]
  by_cases isHelp : name = chars "help"
  · rw [if_pos isHelp,if_pos isHelp]
    refine follows_mono (follows_writes placed steady (by decide)) ?_
    rintro m' _ rfl
    exact steady
  rw [if_neg isHelp,if_neg isHelp]
  by_cases isLs : name = chars "ls"
  · rw [if_pos isLs,if_pos isLs]
    exact listing_follows steady
  rw [if_neg isLs,if_neg isLs]
  by_cases isClear : name = chars "clear"
  · rw [if_pos isClear,if_pos isClear]
    refine follows_bind (follows_call .clear steady trivial) ?_
    rintro r t ⟨kept,rfl⟩
    rw [show r = ⟨0#32,m⟩ from kept]
    exact .ret steady
  rw [if_neg isClear,if_neg isClear]
  by_cases isExit : name = chars "exit"
  · rw [if_pos isExit,if_pos isExit]
    refine follows_bind (follows_literal placed steady (s := "Goodbye!\n") (by decide) (n := 9#32) (by decide))
      (fun r _ same => ?_)
    rw [same]
    exact follows_bind (follows_call .exit steady trivial) (fun r t both => both.1.elim)
  rw [if_neg isExit,if_neg isExit]
  exact program_follows placed steady here text short

/-- A round of the loop is a turn. -/
theorem repl_follows (placed : l.Placed m₀) (steady : Steady b.Own m₀ m) :
    Follows (l.outside m₀) (fun m' _ => Steady b.Own m₀ m') (repl b l m) turn := by
  refine follows_bind (follows_literal placed steady (s := "> ") (by decide) (n := 2#32) (by decide)) (fun r _ same => ?_)
  rw [same]
  refine follows_bind (follows_read b.cmd 127#32 steady (fun j below => cmd_own (lt_trans below (by decide)))
    (by decide)) ?_
  rintro r t ⟨line,text,long,rfl,shows,number,signed,typed,after⟩
  have short : line.length ≤ 127 := long
  simp only [shows]
  by_cases empty : line = []
  · subst empty
    exact .ret after
  have positive : 0 < line.length := List.length_pos_iff.mpr empty
  rw [if_neg (by rw [signed]; omega),number]
  have ended := steady_write8 after (cmd_own (show line.length < 128 by omega)) 0#8
  have held : Holds (write8 (put m b.cmd line) (b.cmd+BitVec.ofNat 32 line.length) 0#8) b.cmd (line++[0#8]) :=
    holds_ended typed (by omega)
  obtain ⟨length,name,later⟩ := trim_correct (fun j inside => cmd_own inside) held (by omega) ended
  have most := trimmed_length line
  by_cases blank : trimmed line = []
  · rw [if_pos (by rw [length,blank]; rfl),blank]
    exact .ret later
  · rw [if_neg (by rw [length]; exact fun none => blank (List.length_eq_zero_iff.mp none))]
    exact dispatch_follows placed later name (trimmed_text text) (by omega) blank

theorem main_follows (placed : l.Placed m₀) (n : Nat) :
    Follows (l.outside m₀) (fun m' _ => Steady b.Own m₀ m') (main b l n m₀) (session n) := by
  refine follows_bind (follows_writes placed steady_refl (by decide)) ?_
  rintro m _ rfl
  exact follows_rounds (fun m _ steady => repl_follows placed steady) n steady_refl

end

/-- On the machine: a process that runs the shell has a session with whoever types, whatever
    the other processes do. -/
theorem session_on_machine {b : Buffers} {l : Layout literals b.Own} {m : Memory} (placed : l.Placed m)
    {said : List (Query × Reply)} (served : Contract.Served m said) {n : Nat} {left : Code Memory}
    (talk : After (main b l n m) said left) :
    (∀ e ∈ said, Steady b.Own m e.1.mem ∧ l.Proper e.1) ∧
      ∃ left', After (session n) (said.map (fun e => (shown e.1,told e.1 e.2))) left' ∧
        Follows (l.outside m) (fun m' _ => Steady b.Own m m') left left' :=
  follows_after (main_follows placed n) talk (Contract.served_keeps served)

/-- Every conversation of the shell with a kernel that keeps its contract is a session,
    and it goes on as the session does. All the while nothing has changed but the buffers,
    and the kernel is handed nothing else to write to. -/
theorem shell_session {b : Buffers} {l : Layout literals b.Own} {m : Memory} (placed : l.Placed m) {n : Nat}
    {said : List (Query × Reply)} {left : Code Memory} (talk : After (main b l n m) said left)
    (kept : ∀ e ∈ said, Keeps e.1 e.2) :
    (∀ e ∈ said, Steady b.Own m e.1.mem ∧ l.Proper e.1) ∧
      ∃ left', After (session n) (said.map (fun e => (shown e.1,told e.1 e.2))) left' ∧
        Follows (l.outside m) (fun m' _ => Steady b.Own m m') left left' :=
  follows_after (main_follows placed n) talk kept

def sampleBuffers : Buffers := ⟨0xBFFFFE80#32,0xBFFFFC00#32⟩

theorem sample_above : ∀ a, sampleBuffers.Own a → 0x2000 ≤ a.toNat := by
  rintro a (⟨j,below,rfl⟩ | ⟨j,below,rfl⟩)
  · simp only [sampleBuffers]
    bv_omega
  · simp only [sampleBuffers]
    bv_omega

def sampleLayout : Layout literals sampleBuffers.Own := packedLayout (by decide) (by decide) sample_above

def sampleMemory : Memory := loaded 0x1000#32 (packed literals)

theorem sample_placed : sampleLayout.Placed sampleMemory := packed_placed (by decide) (by decide) sample_above

/-- Somebody types `help`, with a blank after it. -/
theorem shell_session_help : ∃ said left left', sampleLayout.Placed sampleMemory ∧
    After (main sampleBuffers sampleLayout 1 sampleMemory) said left ∧
    said.map (fun e => shown e.1) =
      (texts banner++[chars "> "]).map Asked.print++.line 127#32 :: (texts help).map Asked.print ∧
    After (session 1) (said.map (fun e => (shown e.1,told e.1 e.2))) left' ∧
    Follows (sampleLayout.outside sampleMemory) (fun m' _ => Steady sampleBuffers.Own sampleMemory m') left left' := by
  have text : Text (chars "help \n") := by
    simp only [Text]
    decide
  have keeps : ∀ q r, answer (chars "help \n") [] q = some r → Keeps q r := fun q r => answer_keeps (by simp) text
  have talk := play_after (answer (chars "help \n") []) (main sampleBuffers sampleLayout 1 sampleMemory)
  obtain ⟨_,left',after,follows⟩ := shell_session sample_placed talk
    (fun e member => keeps e.1 e.2 (play_answered _ e member))
  refine ⟨_,_,left',sample_placed,talk,?_,after,follows⟩
  have same := congrArg (List.map Prod.fst) (follows_play (main_follows sample_placed 1) keeps
    (answer_told (by simp) (by decide)))
  rw [List.map_map] at same
  exact same.trans (by decide +kernel)

end SoKernel.Shell
