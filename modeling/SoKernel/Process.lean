import SoKernel.Paging
import SoKernel.Fs
import Mathlib.Data.List.FinRange

/-!
The process table of `process.c`: creating processes, choosing the next one and
switching to it. `process_create` returns, beside its result and the new state,
what its local variables held, so that the frames of a call can be named even
when it fails.
-/
namespace SoKernel.Process
open SoKernel.Words SoKernel.Pages SoKernel.Pfa SoKernel.Paging SoKernel.Fs
set_option linter.unusedSimpArgs false

abbrev MAX_PROCESSES : Nat := 16
abbrev PROC_NAME_MAX : Nat := 32
def USER_CODE_VIRT : Word := 0x00000000#32
def USER_STACK_VIRT : Word := 0xBFFFF000#32
def USER_STACK_TOP : Word := 0xC0000000#32

/-- `PROC_STATE_DEAD`, `PROC_STATE_READY` and `PROC_STATE_RUNNING`. -/
inductive ProcState
  | dead
  | ready
  | running
deriving DecidableEq

abbrev Slot := Fin MAX_PROCESSES

/-- `struct process`. -/
structure Proc where
  pid : Word
  state : ProcState
  esp : Word
  page_dir_phys : Word
  kernel_stack : Word
  kernel_stack_top : Word
  name : Fin PROC_NAME_MAX → Byte

/-- The state that the process code works on: memory, the process table, and the
    two places where the processor is told about the current process. -/
structure Kernel where
  phys : Phys
  procs : Slot → Proc
  current : Option Slot
  next_pid : Word
  esp0 : Word
  cr3 : Word

def Kernel.setProc (k : Kernel) (i : Slot) (p : Proc) : Kernel := { k with procs := Function.update k.procs i p }
def Kernel.setMem (k : Kernel) (m : Memory) : Kernel := { k with phys := { k.phys with mem := m } }

def process_init (k : Kernel) : Kernel :=
  { k with
    procs := fun i => { k.procs i with state := .dead, pid := 0#32 }
    current := none }

/-! ### Creating a process -/

/-- Memory as the kernel reads it. -/
def seen (x : Access) (m : Memory) : Memory := load8 x m

/-- The first slot of a dead process. -/
def free_slot (procs : Slot → Proc) : Option Slot := (List.finRange MAX_PROCESSES).find? (fun i => (procs i).state = .dead)

/-- A page of the program is copied into its frame and filled up with zeros. -/
def copy_page (x : Access) (prog_data prog_size : Word) (i : Nat) (code_frame : Word) (m : Memory) : Memory :=
  let offset := BitVec.ofNat 32 (i*PAGE_SIZE)
  let copy_len := prog_size-offset
  let copy_len := if BitVec.ofNat 32 PAGE_SIZE < copy_len then BitVec.ofNat 32 PAGE_SIZE else copy_len
  let m := memcpy x m code_frame (prog_data+offset) copy_len.toNat
  if copy_len < BitVec.ofNat 32 PAGE_SIZE then memset x m (code_frame+copy_len) 0#8 (PAGE_SIZE-copy_len.toNat) else m

/-- One round of the loop over the code pages, with a frame for the page. -/
def load_page (x : Access) (user_dir prog_data prog_size : Word) (i : Nat) (code_frame : Word) (p : Phys) : Phys :=
  let offset := BitVec.ofNat 32 (i*PAGE_SIZE)
  let m := copy_page x prog_data prog_size i code_frame p.mem
  paging_map_4k x ⟨p.frames,m⟩ user_dir (USER_CODE_VIRT+offset) code_frame (PTE_PRESENT ||| PTE_RW ||| PTE_USER)

/-- How the loop over the code pages ended, and the frames it got. -/
structure Loaded where
  complete : Bool
  code_frames : List Word
  phys : Phys

/-- The loop over the `left` code pages from page `i` on. -/
def load_pages (x : Access) (user_dir prog_data prog_size : Word) : Nat → Nat → List Word → Phys → Loaded
  | 0, _, got, p => ⟨true,got,p⟩
  | left+1, i, got, p =>
    let code_frame := pfa_alloc p.frames
    if code_frame.1 = 0#32 then ⟨false,got,{ p with frames := code_frame.2 }⟩
    else load_pages x user_dir prog_data prog_size left (i+1) (got ++ [code_frame.1])
      (load_page x user_dir prog_data prog_size i code_frame.1 { p with frames := code_frame.2 })

/-- The words of the first kernel stack, in the order in which they are pushed. -/
def initial_stack (process_start_trampoline : Word) : List Word :=
  [0x23#32,USER_STACK_TOP,0x0202#32,0x1B#32,USER_CODE_VIRT,
    process_start_trampoline,0#32,0#32,0#32,0#32,0x0002#32]

/-- `*(--sp) = v` for each word. -/
def push_words (x : Access) (m : Memory) (sp : Word) : List Word → Memory × Word
  | [] => (m,sp)
  | v :: rest => push_words x (store32 x m (sp-4#32) v) (sp-4#32) rest

/-- The name field after the name has been copied in and cut. -/
def copy_name (old : Fin PROC_NAME_MAX → Byte) (name : List Byte) : Fin PROC_NAME_MAX → Byte :=
  let nlen := if name.length > PROC_NAME_MAX-1 then PROC_NAME_MAX-1 else name.length
  fun i => if i.val < nlen then (name[i.val]?).getD 0#8 else if i.val = nlen then 0#8 else old i

/-- What a call of `process_create` returned and held. A frame that it did not
    get is 0. -/
structure Creation where
  result : Int
  slot : Option Slot
  kernel_stack : Word
  user_dir : Word
  code_pages : Nat
  code_frames : List Word
  stack_frame : Word
  kernel : Kernel

/-- The call returns -1 before it has got any frame. -/
def Creation.failed (k : Kernel) : Creation :=
  { result := -1, slot := none, kernel_stack := 0#32, user_dir := 0#32, code_pages := 0, code_frames := [],
    stack_frame := 0#32, kernel := k }

/-- `code_pages` of `process_create`. -/
def code_pages (prog_size : Word) : Nat :=
  ((prog_size+BitVec.ofNat 32 PAGE_SIZE-1#32) / BitVec.ofNat 32 PAGE_SIZE).toNat

/-- The part of `process_create` after the program has been found. -/
def create_image (x : Access) (process_start_trampoline : Word) (slot : Slot) (prog_data prog_size : Word)
    (name : List Byte) (k : Kernel) : Creation :=
  let failed := Creation.failed k
  let kstack := pfa_alloc k.phys.frames
  if kstack.1 = 0#32 then { failed with kernel := { k with phys := { k.phys with frames := kstack.2 } } }
  else
    let kstack_top := kstack.1+BitVec.ofNat 32 PAGE_SIZE
    let dir := paging_create_kernel_dir x ⟨kstack.2,memset x k.phys.mem kstack.1 0#8 PAGE_SIZE⟩
    if dir.1 = 0#32 then { failed with kernel_stack := kstack.1, kernel := { k with phys := dir.2 } }
    else
      let loaded := load_pages x dir.1 prog_data prog_size (code_pages prog_size) 0 [] dir.2
      let halfway :=
        { failed with
          kernel_stack := kstack.1
          user_dir := dir.1
          code_pages := code_pages prog_size
          code_frames := loaded.code_frames }
      if !loaded.complete then { halfway with kernel := { k with phys := loaded.phys } }
      else
        let stack := pfa_alloc loaded.phys.frames
        if stack.1 = 0#32 then { halfway with kernel := { k with phys := { loaded.phys with frames := stack.2 } } }
        else
          let m := memset x loaded.phys.mem stack.1 0#8 PAGE_SIZE
          let p := paging_map_4k x ⟨stack.2,m⟩ dir.1 USER_STACK_VIRT stack.1 (PTE_PRESENT ||| PTE_RW ||| PTE_USER)
          let pushed := push_words x p.mem kstack_top (initial_stack process_start_trampoline)
          let proc : Proc :=
            { pid := k.next_pid
              state := .ready
              esp := pushed.2
              page_dir_phys := dir.1
              kernel_stack := kstack.1
              kernel_stack_top := kstack_top
              name := copy_name (k.procs slot).name name }
          { halfway with
            result := k.next_pid.toInt
            slot := some slot
            stack_frame := stack.1
            kernel := { (k.setProc slot proc) with
              phys := { p with mem := pushed.1 }
              next_pid := k.next_pid+1#32 } }

def process_create (x : Access) (process_start_trampoline : Word) (fs : FsInstance) (name : List Byte) (k : Kernel) :
    Creation :=
  match free_slot k.procs with
  | none => .failed k
  | some slot =>
    let m := seen x k.phys.mem
    let fs_idx := fs_find m fs name
    if fs_idx < 0 then .failed k
    else create_image x process_start_trampoline slot (fs_file_data m fs fs_idx) (fs_file_size m fs fs_idx) name k

/-! ### Looking at processes -/

def process_is_alive (k : Kernel) (pid : Word) : Bool :=
  (List.finRange MAX_PROCESSES).any (fun i => (k.procs i).pid = pid && (k.procs i).state ≠ .dead)

/-! ### Scheduling -/

/-- The first ready slot after `start`, going round, `start` itself last. -/
def next_ready (procs : Slot → Proc) (start : Slot) : Option Slot :=
  ((List.finRange MAX_PROCESSES).map (fun i => start+i+1)).find? (fun idx => (procs idx).state = .ready)

/-- `switch_context` as the kernel's data sees it: the stack pointer of the
    old process is saved and the new directory is loaded. -/
def switch_context (k : Kernel) (old : Slot) (esp new_cr3 : Word) : Kernel :=
  { k.setProc old { k.procs old with esp := esp } with cr3 := new_cr3 }

/-- `schedule` from where it has found the next process up to its call of `switch_context`. -/
def dispatch (k : Kernel) (old next : Slot) : Kernel :=
  let k := if (k.procs old).state = .running then k.setProc old { k.procs old with state := .ready } else k
  let k := k.setProc next { k.procs next with state := .running }
  { k with current := some next, esp0 := (k.procs next).kernel_stack_top }

/-- `schedule`, called with the stack at `esp` when the registers are saved. -/
def schedule (k : Kernel) (esp : Word) : Kernel :=
  match k.current with
  | none => k
  | some old =>
    match next_ready k.procs old with
    | none => k
    | some next =>
      let k := dispatch k old next
      switch_context k old esp (k.procs next).page_dir_phys

/-- `scheduler_start`; `none` when there is no process to run. -/
def scheduler_start (k : Kernel) : Option Kernel :=
  ((List.finRange MAX_PROCESSES).find? (fun i => (k.procs i).state = .ready)).map (fun first =>
    let k := k.setProc first { k.procs first with state := .running }
    { k with
      current := some first
      esp0 := (k.procs first).kernel_stack_top
      cr3 := (k.procs first).page_dir_phys })

/-! ### What the operations do to the table -/

theorem free_slot_dead {procs : Slot → Proc} {i : Slot} (found : free_slot procs = some i) :
    (procs i).state = .dead := by
  simpa using List.find?_some found

theorem free_slot_first {procs : Slot → Proc} {i j : Slot} (found : free_slot procs = some i) (before : j < i) :
    (procs j).state ≠ .dead := by
  obtain ⟨_,n,inside,here,earlier⟩ := List.find?_eq_some_iff_getElem.mp found
  rw [List.getElem_finRange] at here
  have place : i.val = n := by
    rw [← here]
    rfl
  have skipped := earlier j.val (by rw [← place]; exact before)
  rw [List.getElem_finRange] at skipped
  simpa using skipped

theorem free_slot_least {procs : Slot → Proc} {i : Slot} (here : (procs i).state = .dead)
    (before : ∀ j < i, (procs j).state ≠ .dead) : free_slot procs = some i := by
  cases found : free_slot procs with
  | none => exact absurd here (by simpa using List.find?_eq_none.mp found i (List.mem_finRange i))
  | some j =>
    rcases lt_trichotomy i j with earlier | same | later
    · exact absurd here (free_slot_first found earlier)
    · rw [same]
    · exact absurd (free_slot_dead found) (before j later)

theorem next_ready_some {procs : Slot → Proc} {start next : Slot} (found : next_ready procs start = some next) :
    (procs next).state = .ready := by
  simpa using List.find?_some found

/-- Every slot is looked at. -/
theorem next_ready_none {procs : Slot → Proc} {start : Slot} (none : next_ready procs start = none) (i : Slot) :
    (procs i).state ≠ .ready := by
  have all := List.find?_eq_none.mp none
  have member : i ∈ (List.finRange MAX_PROCESSES).map (fun j => start+j+1) :=
    List.mem_map.mpr ⟨i-start-1,List.mem_finRange _,by abel⟩
  simpa using all i member

theorem next_ready_only {procs : Slot → Proc} {start i : Slot} (isReady : (procs i).state = .ready)
    (only : ∀ j, (procs j).state = .ready → j = i) : next_ready procs start = some i := by
  cases found : next_ready procs start with
  | none => exact absurd isReady (next_ready_none found i)
  | some j => rw [only j (next_ready_some found)]

/-- How a call of `process_create` leaves the process table: as it was, or with
    a dead slot filled. -/
structure Creation.Table (c : Creation) (k : Kernel) : Prop where
  current : c.kernel.current = k.current
  esp0 : c.kernel.esp0 = k.esp0
  cr3 : c.kernel.cr3 = k.cr3
  failed : c.slot = none → c.result = -1 ∧ c.kernel.procs = k.procs ∧ c.kernel.next_pid = k.next_pid
  filled : ∀ i, c.slot = some i → (k.procs i).state = .dead ∧ c.result = k.next_pid.toInt ∧
    c.kernel.next_pid = k.next_pid+1#32 ∧ c.user_dir ≠ 0#32 ∧ c.kernel_stack ≠ 0#32 ∧
    c.kernel_stack = (pfa_alloc k.phys.frames).1 ∧ ∃ esp name, c.kernel.procs = Function.update k.procs i
      ⟨k.next_pid,.ready,esp,c.user_dir,c.kernel_stack,c.kernel_stack+BitVec.ofNat 32 PAGE_SIZE,name⟩

/-- A call that leaves the table alone. -/
theorem table_failed {c : Creation} {k : Kernel} (slot : c.slot = none) (result : c.result = -1)
    (current : c.kernel.current = k.current) (esp0 : c.kernel.esp0 = k.esp0) (cr3 : c.kernel.cr3 = k.cr3)
    (procs : c.kernel.procs = k.procs) (next_pid : c.kernel.next_pid = k.next_pid) : c.Table k :=
  ⟨current,esp0,cr3,fun _ => ⟨result,procs,next_pid⟩,by simp [slot]⟩

theorem create_image_table (x : Access) (trampoline : Word) {slot : Slot} (prog_data prog_size : Word)
    (name : List Byte) {k : Kernel} (dead : (k.procs slot).state = .dead) :
    (create_image x trampoline slot prog_data prog_size name k).Table k := by
  simp only [create_image]
  split
  · exact table_failed rfl rfl rfl rfl rfl rfl rfl
  rename_i gotStack
  split
  · exact table_failed rfl rfl rfl rfl rfl rfl rfl
  rename_i gotDir
  split
  · exact table_failed rfl rfl rfl rfl rfl rfl rfl
  split
  · exact table_failed rfl rfl rfl rfl rfl rfl rfl
  refine ⟨rfl,rfl,rfl,?_,?_⟩
  · intro none
    cases none
  · rintro i same
    cases same
    exact ⟨dead,rfl,rfl,gotDir,gotStack,rfl,_,_,rfl⟩

theorem process_create_table (x : Access) (trampoline : Word) (fs : FsInstance) (name : List Byte) (k : Kernel) :
    (process_create x trampoline fs name k).Table k := by
  rw [process_create]
  split
  · exact table_failed rfl rfl rfl rfl rfl rfl rfl
  · rename_i slot found
    simp only []
    split
    · exact table_failed rfl rfl rfl rfl rfl rfl rfl
    · exact create_image_table x trampoline _ _ name (free_slot_dead found)

/-- The name of a new process is written over what the slot held. -/
theorem create_image_name (x : Access) (trampoline : Word) (slot : Slot) (prog_data prog_size : Word) (name : List Byte)
    (k : Kernel) {i : Slot} (created : (create_image x trampoline slot prog_data prog_size name k).slot = some i) :
    i = slot ∧ ((create_image x trampoline slot prog_data prog_size name k).kernel.procs i).name =
      copy_name (k.procs i).name name := by
  revert created
  simp only [create_image]
  split
  · intro created
    cases created
  split
  · intro created
    cases created
  split
  · intro created
    cases created
  split
  · intro created
    cases created
  intro created
  obtain rfl := Option.some_inj.mp created
  simp [Kernel.setProc]

/-- A new process is in the first dead slot, and its name is written over what is there. -/
theorem process_create_name (x : Access) (trampoline : Word) (fs : FsInstance) (name : List Byte) (k : Kernel) {i : Slot}
    (created : (process_create x trampoline fs name k).slot = some i) :
    free_slot k.procs = some i ∧
      ((process_create x trampoline fs name k).kernel.procs i).name = copy_name (k.procs i).name name := by
  revert created
  rw [process_create]
  split
  · intro created
    cases created
  · rename_i slot found
    simp only []
    split
    · intro created
      cases created
    · intro created
      obtain ⟨rfl,written⟩ := create_image_name x trampoline slot _ _ name k created
      exact ⟨found,written⟩

/-- Each slot is as it was, or was dead and holds the new process. -/
theorem table_slots {c : Creation} {k : Kernel} (table : c.Table k) (i : Slot) :
    (c.slot ≠ some i ∧ c.kernel.procs i = k.procs i) ∨
      (c.slot = some i ∧ (k.procs i).state = .dead ∧ (c.kernel.procs i).state = .ready ∧
        (c.kernel.procs i).pid = k.next_pid) := by
  cases slot : c.slot with
  | none => exact .inl ⟨by simp,by rw [(table.failed slot).2.1]⟩
  | some j =>
    obtain ⟨dead,_,_,_,_,_,_,_,procs⟩ := table.filled j slot
    rw [procs]
    by_cases same : i = j
    · subst same
      exact .inr ⟨rfl,dead,by simp,by simp⟩
    · exact .inl ⟨by simpa using Ne.symm same,by simp [same]⟩

theorem table_kept {c : Creation} {k : Kernel} (table : c.Table k) {i j : Slot} (slot : c.slot = some i) (other : j ≠ i) :
    c.kernel.procs j = k.procs j := by
  rcases table_slots table j with ⟨_,same⟩ | ⟨here,_⟩
  · exact same
  · exact absurd (Option.some_inj.mp (slot.symm.trans here)).symm other

theorem table_new {c : Creation} {k : Kernel} (table : c.Table k) {i : Slot} (slot : c.slot = some i) :
    (c.kernel.procs i).state = .ready ∧ (c.kernel.procs i).pid = k.next_pid := by
  rcases table_slots table i with ⟨other,_⟩ | ⟨_,_,new⟩
  · exact absurd slot other
  · exact new

/-- What `schedule` does once it has found the next process. -/
theorem schedule_some {k : Kernel} {old next : Slot} (esp : Word) (current : k.current = some old)
    (found : next_ready k.procs old = some next) :
    (schedule k esp).phys = k.phys ∧ (schedule k esp).next_pid = k.next_pid ∧
      (schedule k esp).current = some next ∧
      (schedule k esp).esp0 = (k.procs next).kernel_stack_top ∧
      (schedule k esp).cr3 = (k.procs next).page_dir_phys ∧
      ∀ i, (schedule k esp).procs i =
        { k.procs i with
          state := if i = next then .running
            else if i = old ∧ (k.procs old).state = .running then .ready else (k.procs i).state
          esp := if i = old then esp else (k.procs i).esp } := by
  have ready := next_ready_some found
  simp only [schedule,current,found,dispatch]
  by_cases wasRunning : (k.procs old).state = .running
  · have other : next ≠ old := by
      rintro rfl
      rw [ready] at wasRunning
      cases wasRunning
    simp only [wasRunning,if_true,Kernel.setProc,switch_context]
    refine ⟨trivial,trivial,trivial,?_,?_,?_⟩
    · simp [other]
    · simp [other]
    · intro i
      by_cases isNext : i = next
      · simp [isNext,other]
      · by_cases isOld : i = old
        · simp [isOld,other.symm,Ne.symm]
        · simp [isNext,isOld]
  · simp only [wasRunning,if_false,Kernel.setProc,switch_context]
    refine ⟨trivial,trivial,trivial,?_,?_,?_⟩
    · simp
    · simp
    · intro i
      by_cases isNext : i = next
      · by_cases isOld : next = old
        · simp [isNext,isOld]
        · simp [isNext,isOld]
      · by_cases isOld : i = old
        · have other : old ≠ next := fun same => isNext (isOld.trans same)
          simp [isOld,other]
        · simp [isNext,isOld]

theorem schedule_none {k : Kernel} {old : Slot} (esp : Word) (current : k.current = some old)
    (none : next_ready k.procs old = none) : schedule k esp = k := by
  simp only [schedule,current,none]

end SoKernel.Process
