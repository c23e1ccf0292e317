import SoKernel.Process
import SoKernel.Keyboard

/-!
The running kernel as a transition system. The processor is in user mode, or at
one of the few points of the kernel where something else can happen: in the
waiting loops of `SYS_READ` and `SYS_WAIT`, or halted. Interrupts arrive only in
user mode and at the `sti; hlt; cli` of the waiting loops, and another process
gets the processor only in `schedule`.
-/
namespace SoKernel.System
open SoKernel.Words SoKernel.Paging SoKernel.Fs SoKernel.Process SoKernel.Keyboard
set_option linter.unusedSimpArgs false

/-- A system call that waits in a loop. -/
inductive Waiting
  | read (buf max : Word)
  | wait (pid : Word)
deriving DecidableEq

/-- Where a process, or the processor, is. -/
inductive Point
  /-- In `kmain`, before `scheduler_start`. -/
  | boot
  | user
  /-- At the test of the loop. -/
  | test (call : Waiting)
  /-- In the loop, where `schedule` has returned. -/
  | scheduled (call : Waiting)
  /-- At `sti; hlt; cli`. -/
  | asleep (call : Waiting)
  /-- In the endless loop after `SYS_EXIT`, or at the end of `kmain`. -/
  | halted
deriving DecidableEq

structure State where
  kernel : Kernel
  rootfs : FsInstance
  line : Line
  console : List Byte
  cpu : Point
  saved : Slot → Point

/-- What a step shows of the life of processes. -/
inductive Event
  /-- `process_create` has returned. -/
  | created (result : Int)
  /-- The process has executed `SYS_EXIT`. -/
  | exited (pid : Word)
  /-- `SYS_WAIT` on the process has returned. -/
  | waited (pid : Word)
  /-- `SYS_READ` has returned, with this in EAX. -/
  | read (eax : Word)
  | silent
deriving DecidableEq

/-- The link-time constants and the way in which the kernel reaches memory,
    which may depend on the directory that is loaded. -/
structure Machine where
  access : Kernel → Access
  process_start_trampoline : Word

/-- The loop of the call is done. -/
def ready (s : State) : Waiting → Bool
  | .read _ _ => keyboard_has_line s.line
  | .wait pid => !process_is_alive s.kernel pid

/-- `schedule`, called at `point` with the stack at `esp`. -/
def yield (s : State) (esp : Word) (point : Point) : State :=
  match s.kernel.current with
  | none => { s with cpu := point }
  | some old =>
    match next_ready s.kernel.procs old with
    | none => { s with cpu := point }
    | some next =>
      let saved := Function.update s.saved old point
      { s with kernel := schedule s.kernel esp, saved := saved, cpu := saved next }

/-- `process_create`, called for the named program. -/
def spawn (mach : Machine) (s : State) (name : List Byte) : Creation :=
  process_create (mach.access s.kernel) mach.process_start_trampoline s.rootfs name s.kernel

def afterSpawn (s : State) (c : Creation) : State :=
  { s with
    kernel := c.kernel
    saved := match c.slot with
      | none => s.saved
      | some i => Function.update s.saved i .user }

/-- The current process is marked dead, and there is no way back to it. -/
def exit (s : State) (cur : Slot) (esp : Word) : State :=
  yield { s with kernel := s.kernel.setProc cur { s.kernel.procs cur with state := .dead } } esp .halted

/-- The waiting call returns to user mode. -/
def finish (mach : Machine) (s : State) : Waiting → State
  | .read buf max =>
    let taken := keyboard_read_line s.line max
    let m := taken.1.length.fold (fun i _ m =>
      store8 (mach.access s.kernel) m (buf+BitVec.ofNat 32 i) (taken.1[i]?.getD 0#8)) s.kernel.phys.mem
    { s with kernel := { s.kernel with phys := { s.kernel.phys with mem := m } }, line := taken.2, cpu := .user }
  | .wait _ => { s with cpu := .user }

/-- What is seen of the return. -/
def finished (s : State) : Waiting → Event
  | .read _ max => .read (BitVec.ofNat 32 (keyboard_read_line s.line max).1.length)
  | .wait pid => .waited pid

def key (s : State) (scan_code : Byte) : State :=
  let handled := keyboard_handler s.line scan_code
  { s with line := handled.1, console := s.console ++ handled.2 }

inductive Step (mach : Machine) : State → Event → State → Prop
  /-- Interrupts are on from `idt_init` on. -/
  | bootKey (s : State) (scan_code : Byte) (boot : s.cpu = .boot) : Step mach s .silent (key s scan_code)
  | bootCreate (s : State) (name : List Byte) (boot : s.cpu = .boot) :
      Step mach s (.created (spawn mach s name).result) (afterSpawn s (spawn mach s name))
  | start (s : State) (boot : s.cpu = .boot) (k : Kernel) (started : scheduler_start s.kernel = some k) :
      Step mach s .silent { s with kernel := k, cpu := .user }
  | nothingToRun (s : State) (boot : s.cpu = .boot) (none : scheduler_start s.kernel = none) :
      Step mach s .silent { s with cpu := .halted }
  /-- IRQ 0 in user mode preempts the process. -/
  | timer (s : State) (esp : Word) (user : s.cpu = .user) : Step mach s .silent (yield s esp .user)
  | keyUser (s : State) (scan_code : Byte) (user : s.cpu = .user) : Step mach s .silent (key s scan_code)
  /-- User code, the system calls that only read or write the caller's memory, and what
      the kernel does to its stacks. -/
  | work (s : State) (m : Memory) :
      Step mach s .silent { s with kernel := { s.kernel with phys := { s.kernel.phys with mem := m } } }
  | sysYield (s : State) (esp : Word) (user : s.cpu = .user) : Step mach s .silent (yield s esp .user)
  | sysSpawn (s : State) (name : List Byte) (user : s.cpu = .user) :
      Step mach s (.created (spawn mach s name).result) (afterSpawn s (spawn mach s name))
  | sysExit (s : State) (cur : Slot) (esp : Word) (user : s.cpu = .user) (current : s.kernel.current = some cur) :
      Step mach s (.exited (s.kernel.procs cur).pid) (exit s cur esp)
  | sysWaiting (s : State) (call : Waiting) (user : s.cpu = .user) : Step mach s .silent { s with cpu := .test call }
  | testReady (s : State) (call : Waiting) (here : s.cpu = .test call) (isReady : ready s call = true) :
      Step mach s (finished s call) (finish mach s call)
  | testNotReady (s : State) (call : Waiting) (esp : Word) (here : s.cpu = .test call) (notReady : ready s call = false) :
      Step mach s .silent (yield s esp (.scheduled call))
  | scheduledReady (s : State) (call : Waiting) (here : s.cpu = .scheduled call) (isReady : ready s call = true) :
      Step mach s .silent { s with cpu := .test call }
  | scheduledNotReady (s : State) (call : Waiting) (here : s.cpu = .scheduled call) (notReady : ready s call = false) :
      Step mach s .silent { s with cpu := .asleep call }
  | keyAsleep (s : State) (call : Waiting) (scan_code : Byte) (here : s.cpu = .asleep call) :
      Step mach s .silent (key s scan_code)
  /-- Any interrupt ends `hlt`; IRQ 0 does not schedule, since it came from ring 0. -/
  | wake (s : State) (call : Waiting) (here : s.cpu = .asleep call) : Step mach s .silent { s with cpu := .test call }

/-- A run with the events it shows. -/
inductive Run (mach : Machine) (s : State) : List Event → State → Prop
  | refl : Run mach s [] s
  | step {events : List Event} {t u : State} {event : Event} :
      Run mach s events t → Step mach t event u → Run mach s (events ++ [event]) u

end SoKernel.System
