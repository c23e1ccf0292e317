import SoKernel.Console
import SoKernel.Keyboard
import SoKernel.Spawning
import SoKernel.Scheduler

/-!
System calls and the caller's pointers. `syscall_dispatch` uses the pointer that
the caller has passed as if it were one of the kernel's own. The model keeps a trace
of the addresses that a call fetches from and stores to through it.
-/
namespace SoKernel.Syscalls
open SoKernel.Words SoKernel.Pages SoKernel.Pfa SoKernel.Paging SoKernel.PageTables SoKernel.Fs SoKernel.Process
  SoKernel.Keyboard SoKernel.Console SoKernel.Kmain
set_option linter.unusedSimpArgs false

def SYS_WRITE : Word := 1#32
def SYS_EXIT : Word := 2#32
def SYS_YIELD : Word := 3#32
def SYS_SPAWN : Word := 4#32
def SYS_READ : Word := 5#32
def SYS_WAIT : Word := 6#32
def SYS_GETPROCS : Word := 7#32
def SYS_LISTFILES : Word := 8#32
def SYS_CLEAR : Word := 9#32

/-- The registers of `struct syscall_regs` that the dispatch looks at. -/
structure SyscallRegs where
  ecx : Word
  ebx : Word
  eax : Word

/-- What the handlers work on. -/
structure Env where
  kernel : Kernel
  rootfs : FsInstance
  line : Line
  fb : Fb

/-! ### Using the caller's pointer -/

/-- Memory, and the addresses that have been fetched from and stored to through the
    caller's pointer. -/
structure Touched where
  mem : Memory
  fetched : List Word
  stored : List Word

namespace Touched

def put (x : Access) (t : Touched) (a : Word) (b : Byte) : Touched :=
  { t with mem := store8 x t.mem a b, stored := a :: t.stored }

def putAll (x : Access) (t : Touched) (a : Word) : List Byte → Touched
  | [] => t
  | b :: rest => putAll x (t.put x a b) (a+1#32) rest

/-- `memcpy` to the caller's memory. -/
def copy (x : Access) (t : Touched) (dest src : Word) (n : Nat) : Touched :=
  n.fold (fun i _ t => t.put x (dest+BitVec.ofNat 32 i) (load8 x t.mem (src+BitVec.ofNat 32 i))) t

/-- The bytes at these offsets are fetched. -/
def fetch (t : Touched) (a : Word) (offsets : List Nat) : Touched :=
  { t with fetched := offsets.map (fun i => a+BitVec.ofNat 32 i) ++ t.fetched }

end Touched

/-! ### The handlers -/

def strlen_from (m : Memory) (s : Word) : Nat → Nat → Nat
  | 0, len => len
  | left+1, len => if m (s+BitVec.ofNat 32 len) = 0#8 then len else strlen_from m s left (len+1)

/-- `strlen`, whose loop goes round the address space at most once. -/
def strlen (m : Memory) (s : Word) : Word := BitVec.ofNat 32 (strlen_from m s (2^32) 0)

/-- The string that a pointer points to. -/
def c_string (m : Memory) (s : Word) : List Byte := (List.range (strlen m s).toNat).map (fun i => m (s+BitVec.ofNat 32 i))

/-- How many bytes of its second argument `strcmp` fetches. -/
def strcmp_fetches (m : Memory) (s1 : Word) : List Byte → Nat
  | [] => 1
  | c :: rest => if m s1 ≠ 0#8 ∧ m s1 = c then strcmp_fetches m (s1+1#32) rest+1 else 1

/-- The offsets at which `fs_find` fetches from its argument. -/
def fs_find_fetches (m : Memory) (fs : FsInstance) (name : List Byte) : Nat → Nat → List Nat
  | 0, _ => []
  | left+1, i =>
    List.range (strcmp_fetches m (entry_addr fs i) name) ++
      if strcmp m (entry_addr fs i) name = 0 then [] else fs_find_fetches m fs name left (i+1)

/-- The offsets at which `process_create` fetches from its argument: to find the
    program, and to copy the name if a process was made. -/
def process_create_fetches (m : Memory) (fs : FsInstance) (name : List Byte) (k : Kernel) (c : Creation) : List Nat :=
  match free_slot k.procs with
  | none => []
  | some _ =>
    (if fs.header = 0#32 then [] else fs_find_fetches m fs name (num_files m fs).toNat 0) ++
      if c.slot = none then [] else
        List.range (name.length+1) ++
          List.range (if name.length > PROC_NAME_MAX-1 then PROC_NAME_MAX-1 else name.length)

/-- `procs[i].state` as a number. -/
def state_word : ProcState → Word
  | .dead => 0#32
  | .ready => 1#32
  | .running => 2#32

/-- A `struct proc_info`, as it lies in memory. -/
def proc_info (p : Proc) : List Byte := little p.pid ++ little (state_word p.state) ++ List.ofFn p.name

def sizeof_proc_info : Nat := 4+4+PROC_NAME_MAX

/-- One round of the loop of `process_get_info`, with the entries filled so far. -/
def get_info_round (x : Access) (procs : Slot → Proc) (buf max : Word) (done : Nat × Touched) (i : Slot) : Nat × Touched :=
  if (done.1 : Int) < max.toInt ∧ (procs i).state ≠ .dead then
    (done.1+1,done.2.putAll x (buf+BitVec.ofNat 32 (sizeof_proc_info*done.1)) (proc_info (procs i)))
  else done

def process_get_info (x : Access) (procs : Slot → Proc) (buf max : Word) (t : Touched) : Nat × Touched :=
  (List.finRange MAX_PROCESSES).foldl (get_info_round x procs buf max) (0,t)

/-- The loop of `fs_list` over the `left` entries from `i` on. -/
def fs_list_from (x : Access) (fs : FsInstance) (buf buf_size : Word) : Nat → Nat → Word → Touched → Word × Touched
  | 0, _, pos, t => (pos,t)
  | left+1, i, pos, t =>
    if pos < buf_size-1#32 then
      let name := entry_addr fs i
      let nlen := strlen (seen x t.mem) name
      if buf_size ≤ pos+nlen+1#32 then (pos,t)
      else
        let t := t.copy x (buf+pos) name nlen.toNat
        fs_list_from x fs buf buf_size left (i+1) (pos+nlen+1#32) (t.put x (buf+(pos+nlen)) 10#8)
    else (pos,t)

def fs_list (x : Access) (fs : FsInstance) (buf buf_size : Word) (t : Touched) : Word × Touched :=
  if fs.header = 0#32 then (0#32,t)
  else
    let listed := fs_list_from x fs buf buf_size (num_files (seen x t.mem) fs).toNat 0 0#32 t
    (listed.1,listed.2.put x (buf+listed.1) 0#8)

/-- What a system call returns, what it leaves, and what it has touched. -/
structure Outcome where
  eax : Word
  env : Env
  fetched : List Word
  stored : List Word

/-- The memory after the call, and its trace. -/
def Outcome.of (eax : Word) (e : Env) (t : Touched) : Outcome :=
  ⟨eax,{ e with kernel := e.kernel.setMem t.mem },t.fetched,t.stored⟩

/-- `syscall_dispatch`. The calls that wait are taken at the point where their loop
    has ended. What `SYS_EXIT` and `SYS_YIELD` do is up to `schedule`, and neither
    looks at a pointer. -/
def syscall_dispatch (x : Access) (process_start_trampoline : Word) (e : Env) (regs : SyscallRegs) : Outcome :=
  let m := e.kernel.phys.mem
  let t : Touched := ⟨m,[],[]⟩
  if regs.eax = SYS_WRITE then
    let written := fb_write e.fb ((List.range regs.ecx.toNat).map (fun i => load8 x m (regs.ebx+BitVec.ofNat 32 i)))
    .of written.1 { e with fb := written.2 } (t.fetch regs.ebx (List.range regs.ecx.toNat))
  else if regs.eax = SYS_EXIT ∨ regs.eax = SYS_YIELD then .of regs.eax e t
  else if regs.eax = SYS_SPAWN then
    let name := c_string (seen x m) regs.ebx
    let c := process_create x process_start_trampoline e.rootfs name e.kernel
    .of (BitVec.ofInt 32 c.result) { e with kernel := c.kernel }
      { t.fetch regs.ebx (process_create_fetches (seen x m) e.rootfs name e.kernel c) with mem := c.kernel.phys.mem }
  else if regs.eax = SYS_READ then
    let taken := keyboard_read_line e.line regs.ecx
    .of (BitVec.ofNat 32 taken.1.length) { e with line := taken.2 } (t.putAll x regs.ebx taken.1)
  else if regs.eax = SYS_WAIT then .of 0#32 e t
  else if regs.eax = SYS_GETPROCS then
    let filled := process_get_info x e.kernel.procs regs.ebx regs.ecx t
    .of (BitVec.ofNat 32 filled.1) e filled.2
  else if regs.eax = SYS_LISTFILES then
    let listed := fs_list x e.rootfs regs.ebx regs.ecx t
    .of listed.1 e listed.2
  else if regs.eax = SYS_CLEAR then .of 0#32 { e with fb := fb_clear e.fb } t
  else .of (-1#32) e t

/-- One case for each call, in the order of the source. -/
theorem syscall_dispatch_cases {x : Access} {process_start_trampoline : Word} {e : Env} {regs : SyscallRegs}
    {P : Outcome → Prop}
    (write : regs.eax = SYS_WRITE →
      let written := fb_write e.fb
        ((List.range regs.ecx.toNat).map (fun i => load8 x e.kernel.phys.mem (regs.ebx+BitVec.ofNat 32 i)))
      P (.of written.1 { e with fb := written.2 }
        (Touched.fetch ⟨e.kernel.phys.mem,[],[]⟩ regs.ebx (List.range regs.ecx.toNat))))
    (switches : regs.eax = SYS_EXIT ∨ regs.eax = SYS_YIELD → P (.of regs.eax e ⟨e.kernel.phys.mem,[],[]⟩))
    (spawn : regs.eax = SYS_SPAWN →
      let name := c_string (seen x e.kernel.phys.mem) regs.ebx
      let c := process_create x process_start_trampoline e.rootfs name e.kernel
      P (.of (BitVec.ofInt 32 c.result) { e with kernel := c.kernel }
        { Touched.fetch ⟨e.kernel.phys.mem,[],[]⟩ regs.ebx
            (process_create_fetches (seen x e.kernel.phys.mem) e.rootfs name e.kernel c) with mem := c.kernel.phys.mem }))
    (read : regs.eax = SYS_READ →
      let taken := keyboard_read_line e.line regs.ecx
      P (.of (BitVec.ofNat 32 taken.1.length) { e with line := taken.2 }
        ((Touched.mk e.kernel.phys.mem [] []).putAll x regs.ebx taken.1)))
    (wait : regs.eax = SYS_WAIT → P (.of 0#32 e ⟨e.kernel.phys.mem,[],[]⟩))
    (getprocs : regs.eax = SYS_GETPROCS →
      let filled := process_get_info x e.kernel.procs regs.ebx regs.ecx ⟨e.kernel.phys.mem,[],[]⟩
      P (.of (BitVec.ofNat 32 filled.1) e filled.2))
    (listfiles : regs.eax = SYS_LISTFILES →
      let listed := fs_list x e.rootfs regs.ebx regs.ecx ⟨e.kernel.phys.mem,[],[]⟩
      P (.of listed.1 e listed.2))
    (clear : regs.eax = SYS_CLEAR → P (.of 0#32 { e with fb := fb_clear e.fb } ⟨e.kernel.phys.mem,[],[]⟩))
    (unknown : (∀ number ∈ [SYS_WRITE,SYS_EXIT,SYS_YIELD,SYS_SPAWN,SYS_READ,SYS_WAIT,SYS_GETPROCS,SYS_LISTFILES,SYS_CLEAR],
      regs.eax ≠ number) → P (.of (-1#32) e ⟨e.kernel.phys.mem,[],[]⟩)) :
    P (syscall_dispatch x process_start_trampoline e regs) := by
  rw [syscall_dispatch]
  refine iteInduction write (fun noWrite => ?_)
  refine iteInduction switches (fun noSwitch => ?_)
  refine iteInduction spawn (fun noSpawn => ?_)
  refine iteInduction read (fun noRead => ?_)
  refine iteInduction wait (fun noWait => ?_)
  refine iteInduction getprocs (fun noGetprocs => ?_)
  refine iteInduction listfiles (fun noListfiles => ?_)
  refine iteInduction clear (fun noClear => unknown ?_)
  simp only [List.forall_mem_cons,List.not_mem_nil,false_implies,implies_true,and_true]
  exact ⟨noWrite,fun isExit => noSwitch (.inl isExit),fun isYield => noSwitch (.inr isYield),noSpawn,noRead,noWait,noGetprocs,
    noListfiles,noClear⟩

/-! ### What a call touches -/

theorem putAll_append (x : Access) (t : Touched) (a : Word) (first rest : List Byte) :
    t.putAll x a (first++rest) = (t.putAll x a first).putAll x (a+BitVec.ofNat 32 first.length) rest := by
  induction first generalizing t a with
  | nil => simp [Touched.putAll]
  | cons b first ih =>
    rw [List.cons_append,Touched.putAll,Touched.putAll,ih,List.length_cons,Nat.add_comm,BitVec.ofNat_add,BitVec.add_assoc]

section
variable {x : Access} {t : Touched}

theorem mem_putAll {a : Word} {bytes : List Byte} {b : Word} (stored : b ∈ (t.putAll x a bytes).stored) :
    b ∈ t.stored ∨ ∃ i < bytes.length, b = a+BitVec.ofNat 32 i := by
  induction bytes generalizing t a with
  | nil => exact .inl stored
  | cons c rest ih =>
    rcases ih stored with before | ⟨i,inside,rfl⟩
    · rcases List.mem_cons.mp before with rfl | old
      · exact .inr ⟨0,by simp,by simp⟩
      · exact .inl old
    · refine .inr ⟨i+1,by simpa using inside,?_⟩
      rw [Nat.add_comm,BitVec.ofNat_add,BitVec.add_assoc]

/-- The part of a copy that has been done. -/
theorem copy_succ (dest src : Word) (n : Nat) : t.copy x dest src (n+1) =
    (t.copy x dest src n).put x (dest+BitVec.ofNat 32 n) (load8 x (t.copy x dest src n).mem (src+BitVec.ofNat 32 n)) :=
  Nat.fold_succ ..

end

theorem strlen_from_le {m : Memory} {s : Word} {left len n : Nat} (zero : m (s+BitVec.ofNat 32 n) = 0#8) (low : len ≤ n) :
    strlen_from m s left len ≤ n := by
  induction left generalizing len with
  | zero => exact low
  | succ left ih =>
    rw [strlen_from]
    split
    · exact low
    · rename_i nonzero
      have other : len ≠ n := fun same => nonzero (by rw [same]; exact zero)
      exact ih (by omega)

@[simp] theorem length_proc_info (p : Proc) : (proc_info p).length = sizeof_proc_info := by
  simp only [proc_info,sizeof_proc_info,List.length_append,little_length,List.length_ofFn]

theorem get_info_round_within {x : Access} {procs : Slot → Proc} {buf max : Word} {done : Nat × Touched} {i : Slot}
    {a : Word} (stored : a ∈ (get_info_round x procs buf max done i).2.stored) :
    a ∈ done.2.stored ∨ ∃ j : Nat, (j : Int) < sizeof_proc_info*max.toInt ∧ a = buf+BitVec.ofNat 32 j := by
  rw [get_info_round] at stored
  split at stored
  · rename_i room
    rcases mem_putAll stored with old | ⟨j,inside,rfl⟩
    · exact .inl old
    · rw [length_proc_info] at inside
      refine .inr ⟨sizeof_proc_info*done.1+j,?_,by rw [BitVec.ofNat_add,BitVec.add_assoc]⟩
      have size : sizeof_proc_info = 40 := by decide
      rw [size] at inside ⊢
      omega
  · exact .inl stored

/-- `process_get_info` stores to the entries of the caller's table. -/
theorem process_get_info_within {x : Access} {procs : Slot → Proc} {buf max : Word} {t : Touched} {a : Word}
    (stored : a ∈ (process_get_info x procs buf max t).2.stored) :
    a ∈ t.stored ∨ ∃ j : Nat, (j : Int) < sizeof_proc_info*max.toInt ∧ a = buf+BitVec.ofNat 32 j := by
  rw [process_get_info] at stored
  have rounds : ∀ (slots : List Slot) (done : Nat × Touched),
      a ∈ (slots.foldl (get_info_round x procs buf max) done).2.stored →
      a ∈ done.2.stored ∨ ∃ j : Nat, (j : Int) < sizeof_proc_info*max.toInt ∧ a = buf+BitVec.ofNat 32 j := by
    intro slots
    induction slots with
    | nil => exact fun done here => .inl here
    | cons i rest ih =>
      intro done later
      rcases ih _ later with here | found
      · exact get_info_round_within here
      · exact .inr found
  exact rounds _ (0,t) stored

/-! ### Where a call stores -/

/-- Stores through the caller's pointer, one after the other. -/
inductive Puts (x : Access) (t : Touched) : Touched → Prop
  | refl : Puts x t t
  | put {u : Touched} (a : Word) (b : Byte) : Puts x t u → Puts x t (u.put x a b)

theorem puts_trans {x : Access} {t u v : Touched} (first : Puts x t u) (second : Puts x u v) : Puts x t v := by
  induction second with
  | refl => exact first
  | put a b _ ih => exact .put a b ih

/-- A store fetches nothing. -/
theorem puts_fetched {x : Access} {t u : Touched} (puts : Puts x t u) : u.fetched = t.fetched := by
  induction puts with
  | refl => rfl
  | put _ _ _ ih => exact ih

theorem putAll_puts (x : Access) (t : Touched) (a : Word) (bytes : List Byte) : Puts x t (t.putAll x a bytes) := by
  induction bytes generalizing t a with
  | nil => exact .refl
  | cons b rest ih => exact puts_trans (.put a b .refl) (ih _ _)

theorem copy_puts (x : Access) (t : Touched) (dest src : Word) (n : Nat) : Puts x t (t.copy x dest src n) := by
  induction n with
  | zero => exact .refl
  | succ n ih =>
    rw [copy_succ]
    exact .put _ _ ih

theorem get_info_puts (x : Access) (procs : Slot → Proc) (buf max : Word) (t : Touched) :
    Puts x t (process_get_info x procs buf max t).2 := by
  have rounds : ∀ (slots : List Slot) (done : Nat × Touched),
      Puts x done.2 (slots.foldl (get_info_round x procs buf max) done).2 := by
    intro slots
    induction slots with
    | nil => exact fun _ => .refl
    | cons i rest ih =>
      intro done
      refine puts_trans ?_ (ih _)
      rw [get_info_round]
      split
      · exact putAll_puts ..
      · exact .refl
  exact rounds _ (0,t)

theorem fs_list_from_puts (x : Access) (fs : FsInstance) (buf buf_size : Word) (left i : Nat) (pos : Word) (t : Touched) :
    Puts x t (fs_list_from x fs buf buf_size left i pos t).2 := by
  induction left generalizing i pos t with
  | zero => exact .refl
  | succ left ih =>
    rw [fs_list_from]
    split
    · simp only []
      split
      · exact .refl
      · exact puts_trans (.put _ _ (copy_puts ..)) (ih ..)
    · exact .refl

theorem fs_list_puts (x : Access) (fs : FsInstance) (buf buf_size : Word) (t : Touched) :
    Puts x t (fs_list x fs buf buf_size t).2 := by
  rw [fs_list]
  split
  · exact .refl
  · exact .put _ _ (fs_list_from_puts ..)

/-- A call that creates no process changes memory by such stores only. -/
theorem syscall_puts (x : Access) (process_start_trampoline : Word) (e : Env) {regs : SyscallRegs}
    (noSpawn : regs.eax ≠ SYS_SPAWN) :
    ∃ t, Puts x ⟨e.kernel.phys.mem,[],[]⟩ t ∧
      (syscall_dispatch x process_start_trampoline e regs).env.kernel = e.kernel.setMem t.mem ∧
      (syscall_dispatch x process_start_trampoline e regs).stored = t.stored := by
  apply syscall_dispatch_cases
    (P := fun o => ∃ t, Puts x ⟨e.kernel.phys.mem,[],[]⟩ t ∧ o.env.kernel = e.kernel.setMem t.mem ∧ o.stored = t.stored)
  case write => exact fun _ => ⟨_,.refl,rfl,rfl⟩
  case switches => exact fun _ => ⟨_,.refl,rfl,rfl⟩
  case spawn => exact fun isSpawn => absurd isSpawn noSpawn
  case read => exact fun _ => ⟨_,putAll_puts ..,rfl,rfl⟩
  case wait => exact fun _ => ⟨_,.refl,rfl,rfl⟩
  case getprocs => exact fun _ => ⟨_,get_info_puts ..,rfl,rfl⟩
  case listfiles => exact fun _ => ⟨_,fs_list_puts ..,rfl,rfl⟩
  case clear => exact fun _ => ⟨_,.refl,rfl,rfl⟩
  case unknown => exact fun _ => ⟨_,.refl,rfl,rfl⟩

/-- Stores to good addresses stay where those lead, as long as they lead there whatever
    is stored there. -/
theorem puts_confined {x : Access} {t u : Touched} {good inside : Word → Prop}
    (leads : ∀ m, (∀ a, ¬ inside a → m a = t.mem a) → ∀ v, good v → inside (x m v)) (puts : Puts x t u)
    (allGood : ∀ v ∈ u.stored, good v) : ∀ a, ¬ inside a → u.mem a = t.mem a := by
  induction puts with
  | refl => exact fun _ _ => rfl
  | @put u v b _ ih =>
    have before := ih (fun v old => allGood v (List.mem_cons_of_mem _ old))
    have here := leads u.mem before v (allGood v List.mem_cons_self)
    intro a outside
    have other : a ≠ x u.mem v := fun same => outside (same ▸ here)
    change write8 u.mem (x u.mem v) b a = t.mem a
    rw [write8,if_neg other,before a outside]

/-! ### The caller's pages -/

/-- Kernel pointers go through the tables of the caller as they are when it calls. -/
def entered (k : Kernel) : Word → Word := fun a => ((translate k.phys.mem k.cr3 a).map Translation.phys).getD a

/-- The byte is in a page that user code of the caller can reach. -/
def UserByte (k : Kernel) (a : Word) : Prop := ∃ t, translate k.phys.mem k.cr3 a = some t ∧ t.user = true

theorem read_line_length (kb : Line) (max : Word) : (keyboard_read_line kb max).1.length = min max.toNat kb.kb_line_len := by
  simp only [keyboard_read_line,List.length_map,List.length_range]
  split <;> omega

/-! ### On the small PC -/

/-- `hello` running on the small PC: user code reaches its first page, and the kernel has
    its image and the initrd where they were. -/
theorem hello_running : ∃ frames k, PfaInit.pc.init 3 = some frames ∧
    scheduler_start (process_create physical 0x100010#32 pcFs helloName (pcKernel frames)).kernel = some k ∧
    (∀ a, pageOf a = 0 → UserByte k a) ∧
    (∀ a, pageOf a ∈ [0x100,0x200] → translate k.phys.mem k.cr3 a = some ⟨a,true,false⟩) ∧
    ∀ a, pageOf a = 0x200 → k.phys.mem a = PfaInit.pc.mem a := by
  obtain ⟨frames,ended,boot⟩ := pc_kmain
  obtain ⟨_,size,pages,found⟩ := Spawning.hello_file (k := pcKernel frames) rfl rfl
  have granted := Spawning.granted_of_room found ((pc_free ended).1 0 (by decide)) (Spawning.hello_room ended)
  obtain ⟨_,filled,tables,map,created⟩ := Spawning.outcome_of_found 0x100010#32 found granted
  obtain ⟨i,slot⟩ := Option.ne_none_iff_exists'.mp filled
  have table := process_create_table physical 0x100010#32 pcFs helloName (pcKernel frames)
  obtain ⟨k,started⟩ := Scheduler.scheduler_start_ready (Scheduler.created_ready table slot)
  have after := Scheduler.start_alone (fun _ => Scheduler.created_alone table slot (fun _ => rfl)) started
  have phys : k.phys = (process_create physical 0x100010#32 pcFs helloName (pcKernel frames)).kernel.phys := by
    rw [after]
    rfl
  have cr3 : k.cr3 = (process_create physical 0x100010#32 pcFs helloName (pcKernel frames)).user_dir := by
    obtain ⟨_,_,_,_,_,_,_,_,procs⟩ := table.filled i slot
    rw [after,procs]
    simp
  refine ⟨frames,k,ended,started,?_,?_,?_⟩
  · intro a page
    obtain ⟨frame,here,aligned⟩ := Spawning.created_code created (v := 0) (by rw [pages]; decide)
    have mapped : map (pageOf a) = some (frame,PTE_PRESENT ||| PTE_RW ||| PTE_USER) := by
      rw [page,created.code 0 (by decide),here]
      rfl
    rw [UserByte,phys,cr3]
    exact ⟨_,Spawning.translate_user created.rep aligned mapped,rfl⟩
  · intro a page
    have beyond : 1 ≤ pageOf a ∧ pageOf a ≠ 0xBFFFF := by
      simp only [List.mem_cons,List.not_mem_nil,or_false] at page
      omega
    have unmapped : map (pageOf a) = none := by
      rw [created.code _ beyond.2,List.getElem?_eq_none (by rw [created.length,pages]; exact beyond.1)]
      rfl
    rw [phys,cr3,translate_correct created.rep,view,unmapped]
  · intro a page
    have image := AddressSpace.process_create_physical (kmain_zero boot) 0x100010#32 pcFs helloName
    rw [phys,image.off a]
    · rfl
    rintro ⟨free,_⟩
    have ends : pcSetup.mod_end.toNat ≤ 0xFFFFF000 := by
      rw [pc_module.2]
      decide
    have used := kmain_initrd boot ends (f := 0x200) (by
      rw [pc_module.1,pc_module.2]
      exact ⟨0x200000,by decide,by decide,by decide,by decide⟩)
    rw [page,used] at free
    cases free

/-- A cleared console. -/
def clean : Fb := fb_clear ⟨fun _ => 0#8,0,[],[]⟩

end SoKernel.Syscalls
