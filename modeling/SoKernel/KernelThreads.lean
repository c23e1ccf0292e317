import SoKernel.StackFrames
import SoKernel.Syscalls
import SoKernel.Echo

/-!
The machine with its processes. The assembly code runs instruction by instruction on
the registers, the stacks and memory. C code is known by what it does to them: it
keeps to its own part of the stack it runs on and to the kernel's own data, and it
goes where the source says. What a process has on its kernel stack is noted beside
the machine, so that the machine can be seen to go astray: it is lost when C code
does not find its registers and its stack as it left them.
-/
namespace SoKernel.KernelThreads
open SoKernel.Words SoKernel.Pages SoKernel.Paging SoKernel.Stack SoKernel.Fs SoKernel.Process SoKernel.Keyboard
  SoKernel.Console SoKernel.Syscalls SoKernel.Processor SoKernel.StackFrames
set_option linter.unusedSimpArgs false

/-- A system call that waits in a loop. -/
inductive Waiting
  | read
  | wait (pid : Word)

def Waiting.number : Waiting → Word
  | .read => SYS_READ
  | .wait _ => SYS_WAIT

/-- Where the C code of an entry is. -/
inductive Point
  /-- At the start of `interrupt_handler` or `syscall_dispatch`. -/
  | called
  /-- At the test of the loop. -/
  | test (call : Waiting)
  /-- In the loop, where `schedule` has returned. -/
  | scheduled (call : Waiting)
  /-- At `sti; hlt; cli`. -/
  | asleep (call : Waiting)
  /-- In the endless loop after `SYS_EXIT`. -/
  | exited
  /-- Before the return. -/
  | done

/-- What a process has on its kernel stack. -/
inductive Thread
  | idle
  /-- What `process_create` has put there. -/
  | fresh
  | inside (e : Entry) (point : Point)
  /-- In a call of `switch_context`, with the machine as it was at its first instruction. -/
  | suspended (e : Entry) (point : Point) (call : Cpu)

/-- The stacks when `process_create` has filled a slot, if any. -/
def withNew (thread : Slot → Thread) : Option Slot → Slot → Thread
  | none => thread
  | some i => Function.update thread i .fresh

inductive Mode
  /-- In `kmain`, before `scheduler_start`. -/
  | boot
  /-- In `jump_to_process`, on the new stack. -/
  | launching
  | user
  | kernel
  | halted
  /-- Lost. -/
  | wild
deriving DecidableEq

structure State where
  cpu : Cpu
  line : Line
  fb : Fb
  log : List Creation
  thread : Slot → Thread
  mode : Mode

/-- What does not change: addresses, the file system, and the frames of the kernel's
    own data, which are in use from the start. -/
structure Program where
  linked : Linked
  rootfs : FsInstance
  data : Nat → Prop

/-- What a step shows. -/
inductive Event
  | silent
  /-- `process_create` has been called for the program. -/
  | created (name : List Byte)
  /-- A system call has stored to these addresses through the caller's pointer. -/
  | stored (addresses : List Word)
  /-- The process enters the kernel. -/
  | entered (i : Slot) (e : Entry)
  /-- A new process enters user mode with these registers. -/
  | started (i : Slot) (r : Regs)
  /-- The process returns to user mode with these registers. -/
  | returned (i : Slot) (e : Entry) (r : Regs)

namespace State
variable (s : State)

def stack (i : Slot) : Word := (s.cpu.kernel.procs i).kernel_stack
/-- A word of the kernel stack of a process. -/
def word (i : Slot) (j : Nat) : Word := entry s.cpu.mem (s.stack i) j
def setThread (i : Slot) (t : Thread) : State := { s with thread := Function.update s.thread i t }
def setKernel (k : Kernel) : State := { s with cpu := { s.cpu with kernel := k } }
/-- Pointers go through the directory that is loaded. -/
def access : Access := paged s.cpu.kernel.cr3

/-- What `interrupt_handler` does for the devices. -/
def device (int_no : Word) (scan_code : Byte) : State :=
  if int_no = 33#32 then
    let handled := Echo.keyboard_interrupt (s.line,s.fb) scan_code
    { s with line := handled.1, fb := handled.2 }
  else s

/-! ### Creating processes -/

def create (p : Program) (name : List Byte) : Creation :=
  process_create s.access p.linked.process_start_trampoline p.rootfs name s.cpu.kernel

def afterCreate (c : Creation) : State :=
  { s.setKernel c.kernel with log := c :: s.log, thread := withNew s.thread c.slot }

/-! ### System calls -/

/-- The argument of `syscall_dispatch`. -/
def regs (i : Slot) : Word := s.word i 1011
/-- What it points to. -/
def arguments (i : Slot) : SyscallRegs :=
  ⟨read32 s.cpu.mem (s.regs i+16#32),read32 s.cpu.mem (s.regs i+20#32),read32 s.cpu.mem (s.regs i+24#32)⟩

/-- `regs->eax = v`, and the call is done. -/
def result (i : Slot) (e : Entry) (regs v : Word) : State :=
  (s.setKernel (s.cpu.kernel.setMem (write32 s.cpu.mem (regs+24#32) v))).setThread i (.inside { e with eax := v } .done)

def outcome (p : Program) (arguments : SyscallRegs) : Outcome :=
  syscall_dispatch s.access p.linked.process_start_trampoline ⟨s.cpu.kernel,p.rootfs,s.line,s.fb⟩ arguments

def finish (i : Slot) (e : Entry) (o : Outcome) : State :=
  { s.setKernel o.env.kernel with line := o.env.line, fb := o.env.fb }.result i e (s.regs i) o.eax

/-- The loop of the call is done. -/
def ready : Waiting → Bool
  | .read => keyboard_has_line s.line
  | .wait pid => !process_is_alive s.cpu.kernel pid

/-- The process marks itself dead. -/
def exit (i : Slot) : State := s.setKernel (s.cpu.kernel.setProc i { s.cpu.kernel.procs i with state := .dead })

/-- The machine executes C code for an entry of the current process. -/
def In (i : Slot) (e : Entry) (point : Point) : Prop :=
  s.mode = .kernel ∧ s.cpu.kernel.current = some i ∧ s.thread i = .inside e point

/-- The machine is in the kernel and takes interrupts, on the stack of the process. -/
def Interruptible (i : Slot) : Prop :=
  (s.mode = .launching ∧ s.cpu.kernel.current = some i) ∨ ∃ e call, s.In i e (.asleep call)

end State

/-! ### C code -/

/-- C code that has been called with its arguments and its return address from word
    `top` of the page `p` on has done some of its work. -/
structure Works (data : Nat → Prop) (p : Word) (top : Nat) (c c' : Cpu) : Prop where
  kernel : c'.kernel = c.kernel.setMem c'.mem
  cs : c'.regs.cs = KERNEL_CODE_SEGMENT
  esp : ∃ j ≤ top, c'.regs.esp = slot p j
  mem : ∀ a, c'.mem a ≠ c.mem a → data (pageOf a) ∨ (pageOf a = pageOf p ∧ wordOf a < top)

/-- C code of `kmain`, whose stack is part of the kernel's data, with the interrupts
    that come meanwhile. -/
structure Boots (data : Nat → Prop) (c c' : Cpu) : Prop where
  kernel : c'.kernel = c.kernel.setMem c'.mem
  cs : c'.regs.cs = KERNEL_CODE_SEGMENT
  mem : ∀ a, c'.mem a ≠ c.mem a → data (pageOf a)

/-- The caller of `switch_context` can go on. -/
structure Continues (p : Word) (call c : Cpu) : Prop where
  ebx : c.regs.ebx = call.regs.ebx
  esi : c.regs.esi = call.regs.esi
  edi : c.regs.edi = call.regs.edi
  ebp : c.regs.ebp = call.regs.ebp
  eflags : c.regs.eflags = call.regs.eflags
  esp : c.regs.esp = call.regs.esp+4#32
  stack : ∀ a, pageOf a = pageOf p → call.regs.esp.toNat+4 ≤ a.toNat → c.mem a = call.mem a

/-- The code that was interrupted can go on. -/
structure Undisturbed (p : Word) (c c' : Cpu) : Prop where
  regs : ∀ r, c'.regs.get r = c.regs.get r
  esp : c'.regs.esp = c.regs.esp
  eip : c'.regs.eip = c.regs.eip
  cs : c'.regs.cs = c.regs.cs
  eflags : c'.regs.eflags = c.regs.eflags
  stack : ∀ a, pageOf a = pageOf p → c.regs.esp.toNat ≤ a.toNat → c'.mem a = c.mem a

/-! ### Switching -/

/-- The stack of a process has been taken up and its registers have been restored. -/
inductive Lands (l : Linked) (s : State) (i : Slot) (c : Cpu) : Event → State → Prop
  | starts (fresh : s.thread i = .fresh) (here : c.regs.eip = l.process_start_trampoline) :
      Lands l s i c (.started i (execs l c process_start_trampoline_code).regs)
        { s.setThread i .idle with cpu := execs l c process_start_trampoline_code, mode := .user }
  | continues (e : Entry) (point : Point) (call : Cpu) (suspended : s.thread i = .suspended e point call)
      (here : c.regs.eip = l.switch_context_return) (goesOn : Continues (s.stack i) call c) :
      Lands l s i c .silent { s.setThread i (.inside e point) with cpu := c, mode := .kernel }
  | lost (notNew : ¬ (s.thread i = .fresh ∧ c.regs.eip = l.process_start_trampoline))
      (notOld : ¬ ∃ e point call, s.thread i = .suspended e point call ∧ c.regs.eip = l.switch_context_return ∧
        Continues (s.stack i) call c) :
      Lands l s i c .silent { s with cpu := c, mode := .wild }

/-- `schedule` has found the next process and has called `switch_context`. -/
def switching (l : Linked) (c : Cpu) (old next : Slot) : Cpu :=
  let k := dispatch c.kernel old next
  ({ c with kernel := k }).pushAll
    [(k.procs next).page_dir_phys,(k.procs next).esp,l.esp_field old,l.switch_context_return]

/-- The rest of `schedule` in the process `old`, which has room for it on its stack. -/
inductive Switches (l : Linked) (s : State) (old : Slot) (e : Entry) (point : Point) : Event → State → Prop
  | intro (next : Slot) (found : next_ready s.cpu.kernel.procs old = some next) (j : Nat) (room : j+9 ≤ e.bottom)
      (esp : s.cpu.regs.esp = slot (s.stack old) (j+9)) (event : Event) (s' : State)
      (lands : Lands l (s.setThread old (.suspended e point (switching l s.cpu old next))) next
        (execs l (switching l s.cpu old next) switch_context_code) event s') : Switches l s old e point event s'

/-- `schedule`, which goes on at `point` when it returns. -/
inductive Schedules (l : Linked) (s : State) (old : Slot) (e : Entry) (point : Point) : Event → State → Prop
  | stays (alone : next_ready s.cpu.kernel.procs old = none) :
      Schedules l s old e point .silent (s.setThread old (.inside e point))
  | switches (event : Event) (s' : State) (switched : Switches l s old e point event s') :
      Schedules l s old e point event s'

/-! ### Steps -/

inductive Step (p : Program) : State → Event → State → Prop
  | bootWork (s : State) (c : Cpu) (boot : s.mode = .boot) (boots : Boots p.data s.cpu c) :
      Step p s .silent { s with cpu := c }
  | bootKey (s : State) (scan_code : Byte) (boot : s.mode = .boot) : Step p s .silent (s.device 33#32 scan_code)
  | bootCreate (s : State) (name : List Byte) (boot : s.mode = .boot) :
      Step p s (.created name) (s.afterCreate (s.create p name))
  | nothingToRun (s : State) (boot : s.mode = .boot) (none : scheduler_start s.cpu.kernel = none) :
      Step p s .silent { s with mode := .halted }
  /-- `scheduler_start` calls `jump_to_process`, which leaves the boot stack. -/
  | start (s : State) (k : Kernel) (i : Slot) (after : Word) (boot : s.mode = .boot)
      (started : scheduler_start s.cpu.kernel = some k) (first : k.current = some i)
      (aligned : s.cpu.regs.esp.toNat % 4 = 0) (stack : ∀ a, ThreeWords s.cpu.regs.esp a → p.data (pageOf a)) :
      Step p s .silent
        { s with
          cpu := execs p.linked (({ s.cpu with kernel := { k with cr3 := s.cpu.kernel.cr3 } }).pushAll
            [(k.procs i).page_dir_phys,(k.procs i).esp,after]) jump_to_process_load
          mode := .launching }
  | launch (s : State) (i : Slot) (event : Event) (s' : State) (launching : s.mode = .launching)
      (current : s.cpu.kernel.current = some i) (lands : Lands p.linked s i (execs p.linked s.cpu restore) event s') :
      Step p s event s'
  /-- An interrupt of the kernel is handled on the stack below the code it interrupts. -/
  | nested (s : State) (i : Slot) (n : Vector) (error_code : Word) (scan_code : Byte) (j : Nat) (w c : Cpu)
      (interruptible : s.Interruptible i) (room : j+13 < 1024) (esp : s.cpu.regs.esp = slot (s.stack i) (j+13))
      (works : Works p.data (s.stack i) j (arrive p.linked s.cpu n error_code) w)
      (returns : w.regs.esp = slot (s.stack i) j)
      (left : leave p.linked p.linked.interrupt_return common_interrupt_return w = some c)
      (goesOn : Undisturbed (s.stack i) s.cpu c) :
      Step p s .silent (({ s with cpu := c }).device (BitVec.ofNat 32 n) scan_code)
  | nestedLost (s : State) (i : Slot) (n : Vector) (error_code : Word) (j : Nat) (w : Cpu)
      (interruptible : s.Interruptible i) (room : j+13 < 1024) (esp : s.cpu.regs.esp = slot (s.stack i) (j+13))
      (works : Works p.data (s.stack i) j (arrive p.linked s.cpu n error_code) w)
      (returns : w.regs.esp = slot (s.stack i) j)
      (lost : ¬ ∃ c, leave p.linked p.linked.interrupt_return common_interrupt_return w = some c ∧
        Undisturbed (s.stack i) s.cpu c) :
      Step p s .silent { s with cpu := w, mode := .wild }
  /-- User code does what it likes to its registers and to the pages it can reach. -/
  | userCode (s : State) (r : Regs) (m : Memory) (user : s.mode = .user) (ring3 : Ring3 r.cs)
      (mem : ∀ a, m a ≠ s.cpu.mem a →
        ∃ virt t, translate s.cpu.mem s.cpu.kernel.cr3 virt = some t ∧ t.user = true ∧ t.phys = a) :
      Step p s .silent { s with cpu := ⟨r,s.cpu.kernel.setMem m⟩ }
  | interrupt (s : State) (i : Slot) (n : Vector) (error_code : Word) (user : s.mode = .user)
      (current : s.cpu.kernel.current = some i) :
      Step p s (.entered i ⟨.interrupt n error_code,s.cpu.regs,s.cpu.regs.eax⟩)
        { s.setThread i (.inside ⟨.interrupt n error_code,s.cpu.regs,s.cpu.regs.eax⟩ .called) with
          cpu := arrive p.linked s.cpu n error_code
          mode := .kernel }
  | syscall (s : State) (i : Slot) (user : s.mode = .user) (current : s.cpu.kernel.current = some i) :
      Step p s (.entered i ⟨.syscall,s.cpu.regs,s.cpu.regs.eax⟩)
        { s.setThread i (.inside ⟨.syscall,s.cpu.regs,s.cpu.regs.eax⟩ .called) with
          cpu := arrive_syscall p.linked s.cpu
          mode := .kernel }
  | work (s : State) (i : Slot) (e : Entry) (point : Point) (c : Cpu) (inside : s.In i e point)
      (works : Works p.data (s.stack i) e.bottom s.cpu c) : Step p s .silent { s with cpu := c }
  /-- `interrupt_handler`, whose arguments `int_no` and `stack.cs` are words 1017 and 1020. -/
  | handled (s : State) (i : Slot) (e : Entry) (n : Vector) (error_code : Word) (scan_code : Byte)
      (inside : s.In i e .called) (kind : e.kind = .interrupt n error_code)
      (noTick : ¬ (s.word i 1017 = 32#32 ∧ Ring3 (s.word i 1020))) :
      Step p s .silent ((s.setThread i (.inside e .done)).device (s.word i 1017) scan_code)
  | tick (s : State) (i : Slot) (e : Entry) (n : Vector) (error_code : Word) (inside : s.In i e .called)
      (kind : e.kind = .interrupt n error_code) (timer : s.word i 1017 = 32#32 ∧ Ring3 (s.word i 1020)) (event : Event)
      (s' : State) (schedules : Schedules p.linked s i e .done event s') : Step p s event s'
  | sysExit (s : State) (i : Slot) (e : Entry) (inside : s.In i e .called) (kind : e.kind = .syscall)
      (call : (s.arguments i).eax = SYS_EXIT) (event : Event) (s' : State)
      (switched : Switches p.linked (s.exit i) i e .exited event s') : Step p s event s'
  | sysExitLast (s : State) (i : Slot) (e : Entry) (inside : s.In i e .called) (kind : e.kind = .syscall)
      (call : (s.arguments i).eax = SYS_EXIT) (alone : next_ready (s.exit i).cpu.kernel.procs i = none) :
      Step p s .silent { s.exit i with mode := .halted }
  | sysYield (s : State) (i : Slot) (e : Entry) (inside : s.In i e .called) (kind : e.kind = .syscall)
      (call : (s.arguments i).eax = SYS_YIELD) (event : Event) (s' : State)
      (schedules : Schedules p.linked s i e .done event s') : Step p s event s'
  | sysSpawn (s : State) (i : Slot) (e : Entry) (name : List Byte) (inside : s.In i e .called) (kind : e.kind = .syscall)
      (call : (s.arguments i).eax = SYS_SPAWN) (named : name = c_string (seen s.access s.cpu.mem) (s.arguments i).ebx) :
      Step p s (.created name) ((s.afterCreate (s.create p name)).result i e (s.regs i)
        (BitVec.ofInt 32 (s.create p name).result))
  | sysRead (s : State) (i : Slot) (e : Entry) (inside : s.In i e .called) (kind : e.kind = .syscall)
      (call : (s.arguments i).eax = SYS_READ) : Step p s .silent (s.setThread i (.inside e (.test .read)))
  | sysWait (s : State) (i : Slot) (e : Entry) (inside : s.In i e .called) (kind : e.kind = .syscall)
      (call : (s.arguments i).eax = SYS_WAIT) :
      Step p s .silent (s.setThread i (.inside e (.test (.wait (s.arguments i).ebx))))
  /-- The other calls. -/
  | sysAtOnce (s : State) (i : Slot) (e : Entry) (inside : s.In i e .called) (kind : e.kind = .syscall)
      (call : (s.arguments i).eax ∉ [SYS_EXIT,SYS_YIELD,SYS_SPAWN,SYS_READ,SYS_WAIT]) :
      Step p s (.stored (s.outcome p (s.arguments i)).stored) (s.finish i e (s.outcome p (s.arguments i)))
  | testReady (s : State) (i : Slot) (e : Entry) (call : Waiting) (inside : s.In i e (.test call))
      (kind : e.kind = .syscall) (isReady : s.ready call = true) (o : Outcome)
      (outcome : o = s.outcome p { s.arguments i with eax := call.number }) :
      Step p s (.stored o.stored) (s.finish i e o)
  | testNotReady (s : State) (i : Slot) (e : Entry) (call : Waiting) (inside : s.In i e (.test call))
      (notReady : s.ready call = false) (event : Event) (s' : State)
      (schedules : Schedules p.linked s i e (.scheduled call) event s') : Step p s event s'
  | scheduledReady (s : State) (i : Slot) (e : Entry) (call : Waiting) (inside : s.In i e (.scheduled call))
      (isReady : s.ready call = true) : Step p s .silent (s.setThread i (.inside e (.test call)))
  | scheduledNotReady (s : State) (i : Slot) (e : Entry) (call : Waiting) (inside : s.In i e (.scheduled call))
      (notReady : s.ready call = false) : Step p s .silent (s.setThread i (.inside e (.asleep call)))
  | wake (s : State) (i : Slot) (e : Entry) (call : Waiting) (inside : s.In i e (.asleep call)) :
      Step p s .silent (s.setThread i (.inside e (.test call)))
  /-- The C function returns to the stub, with the stack as it was called. -/
  | returns (s : State) (i : Slot) (e : Entry) (c : Cpu) (inside : s.In i e .done)
      (esp : s.cpu.regs.esp = slot (s.stack i) e.bottom)
      (left : leave p.linked (e.after p.linked) e.code_after s.cpu = some c) :
      Step p s (.returned i e c.regs) { s.setThread i .idle with cpu := c, mode := .user }
  | returnLost (s : State) (i : Slot) (e : Entry) (inside : s.In i e .done)
      (esp : s.cpu.regs.esp = slot (s.stack i) e.bottom)
      (lost : leave p.linked (e.after p.linked) e.code_after s.cpu = none) :
      Step p s .silent { s with mode := .wild }

/-- A run, in which every step is admitted where it happens, with what it shows. -/
inductive Run (p : Program) (admits : State → Event → Prop) (s : State) : List Event → State → Prop
  | refl : Run p admits s [] s
  | step {events : List Event} {t u : State} {event : Event} :
      Run p admits s events t → admits t event → Step p t event u → Run p admits s (events ++ [event]) u

theorem run_trans {p : Program} {admits : State → Event → Prop} {s t u : State} {events more : List Event}
    (first : Run p admits s events t) (second : Run p admits t more u) : Run p admits s (events ++ more) u := by
  induction second with
  | refl => rwa [List.append_nil]
  | step _ admitted step ih =>
    rw [← List.append_assoc]
    exact ih.step admitted step

/-! ### The kernel's data in a switch -/

/-- Registers are popped, and the kernel's data stays as it is. -/
theorem restore_kernel (l : Linked) (c : Cpu) : (execs l c restore).kernel = c.kernel := by
  simp only [restore,execs,List.foldl_cons,List.foldl_nil,exec]

theorem trampoline_kernel (l : Linked) (c : Cpu) : (execs l c process_start_trampoline_code).kernel = c.kernel := by
  simp only [process_start_trampoline_code,execs,List.foldl_cons,List.foldl_nil,exec,Cpu.iret]
  split <;> rfl

theorem lands_kernel {l : Linked} {s s' : State} {i : Slot} {c : Cpu} {event : Event} (lands : Lands l s i c event s') :
    s'.cpu.kernel = c.kernel := by
  cases lands with
  | starts fresh here => exact trampoline_kernel l c
  | continues e point call suspended here goesOn => rfl
  | lost notNew notOld => rfl

/-! ### Entries -/

/-- The entry that a process has not returned from. -/
def Thread.entry : Thread → Option Entry
  | .inside e _ => some e
  | .suspended e _ _ => some e
  | _ => none

/-- The last entry of a process in a history. -/
def lastEntry (i : Slot) (events : List Event) : Option Entry :=
  events.foldl (fun last event =>
    match event with
    | .entered j e => if j = i then some e else last
    | _ => last) none

/-- An entry of the process that differs in the value for `eax` at most. -/
def Pending (s : State) (i : Slot) (e : Entry) : Prop :=
  ∃ old, (s.thread i).entry = some old ∧ old.kind = e.kind ∧ old.regs = e.regs

section
variable {p : Program} {l : Linked} {s s' : State} {event : Event} {i j : Slot} {e e' : Entry} {point : Point}

theorem pending_of (on : (s.thread i).entry = some e) : Pending s i e := ⟨e,on,rfl,rfl⟩

theorem entry_setThread {t : Thread} (on : ((s.setThread j t).thread i).entry = some e) :
    (i = j ∧ t.entry = some e) ∨ (i ≠ j ∧ (s.thread i).entry = some e) := by
  by_cases same : i = j
  · subst same
    exact .inl ⟨rfl,by simpa [State.setThread] using on⟩
  · exact .inr ⟨same,by simpa [State.setThread,Function.update_of_ne same] using on⟩

/-- The C code of an entry moves on. -/
theorem entry_inside (inside : s.In j e' point) {t : Thread} (moved : t.entry = some e')
    (on : ((s.setThread j t).thread i).entry = some e) : (s.thread i).entry = some e := by
  rcases entry_setThread on with ⟨same,new⟩ | ⟨_,old⟩
  · rw [moved] at new
    cases new
    rw [same,inside.2.2]
    rfl
  · exact old

theorem lands_entry {c : Cpu} (lands : Lands l s j c event s') (on : (s'.thread i).entry = some e) :
    (∀ e', event ≠ .entered i e') ∧ (s.thread i).entry = some e := by
  cases lands with
  | starts fresh here =>
    rcases entry_setThread (s := s) on with ⟨_,none⟩ | ⟨_,old⟩
    · cases none
    · exact ⟨by simp,old⟩
  | continues e' point call suspended here goesOn =>
    rcases entry_setThread (s := s) on with ⟨same,new⟩ | ⟨_,old⟩
    · cases new
      rw [same,suspended]
      exact ⟨by simp,rfl⟩
    · exact ⟨by simp,old⟩
  | lost notNew notOld => exact ⟨by simp,on⟩

theorem switches_entry (inside : (s.thread j).entry = some e') (switched : Switches l s j e' point event s')
    (on : (s'.thread i).entry = some e) : (∀ e', event ≠ .entered i e') ∧ (s.thread i).entry = some e := by
  obtain ⟨next,found,n,room,esp,event,s',lands⟩ := switched
  obtain ⟨other,before⟩ := lands_entry lands on
  refine ⟨other,?_⟩
  rcases entry_setThread before with ⟨same,new⟩ | ⟨_,old⟩
  · cases new
    rw [same]
    exact inside
  · exact old

theorem schedules_entry (inside : s.In j e' point) {point' : Point} (schedules : Schedules l s j e' point' event s')
    (on : (s'.thread i).entry = some e) : (∀ e', event ≠ .entered i e') ∧ (s.thread i).entry = some e := by
  cases schedules with
  | stays alone => exact ⟨by simp,entry_inside inside rfl on⟩
  | switches _ _ switched => exact switches_entry (by rw [inside.2.2]; rfl) switched on

theorem device_thread {n : Word} {scan_code : Byte} : (s.device n scan_code).thread = s.thread := by
  rw [State.device]
  split <;> rfl

theorem entry_withNew {slot : Option Slot} (on : (withNew s.thread slot i).entry = some e) :
    (s.thread i).entry = some e := by
  cases slot with
  | none => exact on
  | some new =>
    rcases entry_setThread (s := s) on with ⟨_,none⟩ | ⟨_,old⟩
    · cases none
    · exact old

/-- The system call has its result. -/
theorem entry_finish (inside : s.In j e' point) {o : Outcome} (on : ((s.finish j e' o).thread i).entry = some e) :
    Pending s i e := by
  rcases entry_setThread (s := s) on with ⟨same,new⟩ | ⟨_,old⟩
  · cases new
    rw [same]
    exact ⟨e',by rw [inside.2.2]; rfl,rfl,rfl⟩
  · exact pending_of old

/-- An entry that is on a stack was there before, or has just been made. -/
theorem step_entry (step : Step p s event s') (on : (s'.thread i).entry = some e) :
    event = .entered i e ∨ ((∀ e', event ≠ .entered i e') ∧ Pending s i e) := by
  cases step with
  | bootWork c boot boots => exact .inr ⟨by simp,pending_of on⟩
  | bootKey scan_code boot =>
    rw [device_thread] at on
    exact .inr ⟨by simp,pending_of on⟩
  | bootCreate name boot => exact .inr ⟨by simp,pending_of (entry_withNew on)⟩
  | nothingToRun boot none => exact .inr ⟨by simp,pending_of on⟩
  | start k i after boot started first aligned stack => exact .inr ⟨by simp,pending_of on⟩
  | launch i _ _ launching current lands =>
    obtain ⟨other,old⟩ := lands_entry lands on
    exact .inr ⟨other,pending_of old⟩
  | nested j n error_code scan_code k w c interruptible room esp works returns left goesOn =>
    rw [device_thread] at on
    exact .inr ⟨by simp,pending_of on⟩
  | nestedLost j n error_code k w interruptible room esp works returns lost => exact .inr ⟨by simp,pending_of on⟩
  | userCode r m user ring3 mem => exact .inr ⟨by simp,pending_of on⟩
  | interrupt j n error_code user current =>
    rcases entry_setThread (s := s) on with ⟨same,new⟩ | ⟨other,old⟩
    · cases new
      exact .inl (by rw [same])
    · exact .inr ⟨by simp [other.symm],pending_of old⟩
  | syscall j user current =>
    rcases entry_setThread (s := s) on with ⟨same,new⟩ | ⟨other,old⟩
    · cases new
      exact .inl (by rw [same])
    · exact .inr ⟨by simp [other.symm],pending_of old⟩
  | work j e' point c inside works => exact .inr ⟨by simp,pending_of on⟩
  | handled j e' n error_code scan_code inside kind noTick =>
    rw [device_thread] at on
    exact .inr ⟨by simp,pending_of (entry_inside inside rfl on)⟩
  | tick j e' n error_code inside kind timer _ _ schedules =>
    obtain ⟨other,old⟩ := schedules_entry inside schedules on
    exact .inr ⟨other,pending_of old⟩
  | sysExit j e' inside kind call _ _ switched =>
    obtain ⟨other,old⟩ := switches_entry (s := s.exit j) (by rw [State.exit,State.setKernel,inside.2.2]; rfl) switched on
    exact .inr ⟨other,pending_of old⟩
  | sysExitLast j e' inside kind call alone => exact .inr ⟨by simp,pending_of on⟩
  | sysYield j e' inside kind call _ _ schedules =>
    obtain ⟨other,old⟩ := schedules_entry inside schedules on
    exact .inr ⟨other,pending_of old⟩
  | sysSpawn j e' name inside kind call named =>
    rcases entry_setThread on with ⟨same,new⟩ | ⟨_,old⟩
    · cases new
      exact .inr ⟨by simp,by rw [same]; exact ⟨e',by rw [inside.2.2]; rfl,rfl,rfl⟩⟩
    · exact .inr ⟨by simp,pending_of (entry_withNew old)⟩
  | sysRead j e' inside kind call => exact .inr ⟨by simp,pending_of (entry_inside inside rfl on)⟩
  | sysWait j e' inside kind call => exact .inr ⟨by simp,pending_of (entry_inside inside rfl on)⟩
  | sysAtOnce j e' inside kind call => exact .inr ⟨by simp,entry_finish inside on⟩
  | testReady j e' call inside kind isReady o outcome => exact .inr ⟨by simp,entry_finish inside on⟩
  | testNotReady j e' call inside notReady _ _ schedules =>
    obtain ⟨other,old⟩ := schedules_entry inside schedules on
    exact .inr ⟨other,pending_of old⟩
  | scheduledReady j e' call inside isReady => exact .inr ⟨by simp,pending_of (entry_inside inside rfl on)⟩
  | scheduledNotReady j e' call inside notReady => exact .inr ⟨by simp,pending_of (entry_inside inside rfl on)⟩
  | wake j e' call inside => exact .inr ⟨by simp,pending_of (entry_inside inside rfl on)⟩
  | returns j e' c inside esp left =>
    rcases entry_setThread (s := s) on with ⟨_,none⟩ | ⟨_,old⟩
    · cases none
    · exact .inr ⟨by simp,pending_of old⟩
  | returnLost j e' inside esp lost => exact .inr ⟨by simp,pending_of on⟩

/-- The history has the entries that the processes have not returned from. -/
def Recorded (events : List Event) (s : State) : Prop :=
  ∀ i e, (s.thread i).entry = some e →
    ∃ entered, lastEntry i events = some entered ∧ entered.kind = e.kind ∧ entered.regs = e.regs

theorem lastEntry_entered (events : List Event) : lastEntry i (events ++ [Event.entered i e]) = some e := by
  simp [lastEntry,List.foldl_append]

theorem lastEntry_other (events : List Event) (other : ∀ e, event ≠ .entered i e) :
    lastEntry i (events ++ [event]) = lastEntry i events := by
  cases event with
  | entered j e =>
    have ne : j ≠ i := fun same => other e (by rw [same])
    simp [lastEntry,List.foldl_append,ne]
  | _ => simp [lastEntry,List.foldl_append]

theorem recorded_step {events : List Event} (recorded : Recorded events s) (step : Step p s event s') :
    Recorded (events ++ [event]) s' := by
  intro i e on
  rcases step_entry step on with rfl | ⟨other,old,before,kind,regs⟩
  · exact ⟨e,lastEntry_entered events,rfl,rfl⟩
  · obtain ⟨entered,last,kind',regs'⟩ := recorded i old before
    exact ⟨entered,(lastEntry_other events other).trans last,kind'.trans kind,regs'.trans regs⟩

/-- What a switch shows. -/
theorem lands_event {c : Cpu} (lands : Lands l s i c event s') : event = .silent ∨ ∃ j r, event = .started j r := by
  cases lands with
  | starts fresh here => exact .inr ⟨_,_,rfl⟩
  | continues e point call suspended here goesOn => exact .inl rfl
  | lost notNew notOld => exact .inl rfl

theorem switches_event (switched : Switches l s i e point event s') : event = .silent ∨ ∃ j r, event = .started j r := by
  obtain ⟨next,found,n,room,esp,event,s',lands⟩ := switched
  exact lands_event lands

theorem schedules_event (schedules : Schedules l s i e point event s') : event = .silent ∨ ∃ j r, event = .started j r := by
  cases schedules with
  | stays alone => exact .inl rfl
  | switches _ _ switched => exact switches_event switched

/-- A process returns from the entry that it is in. -/
theorem returned_in {r : Regs} (step : Step p s (.returned i e r) s') : s.In i e .done := by
  have shows : ¬ (Event.returned i e r = .silent ∨ ∃ j r', Event.returned i e r = .started j r') := by simp
  cases step with
  | launch i _ _ launching current lands => exact absurd (lands_event lands) shows
  | tick i e n error_code inside kind timer _ _ schedules => exact absurd (schedules_event schedules) shows
  | sysExit i e inside kind call _ _ switched => exact absurd (switches_event switched) shows
  | sysYield i e inside kind call _ _ schedules => exact absurd (schedules_event schedules) shows
  | testNotReady i e call inside notReady _ _ schedules => exact absurd (schedules_event schedules) shows
  | returns i e c inside esp left => exact inside

theorem in_entry {point : Point} (inside : s.In i e point) : (s.thread i).entry = some e := by
  rw [inside.2.2]
  rfl

end

end SoKernel.KernelThreads
