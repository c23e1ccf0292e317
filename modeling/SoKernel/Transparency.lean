import SoKernel.ContextSwitch
import SoKernel.Lists

/-!
Switching between processes is transparent: a process comes back to user mode with
the registers with which it entered the kernel. Only a system call that stores through
a pointer of the caller can break that, for the pointer may lead to the caller's own
kernel stack.
-/
namespace SoKernel.Transparency
open SoKernel.Words SoKernel.Pages SoKernel.Pfa SoKernel.PfaInit SoKernel.Paging SoKernel.Stack SoKernel.Fs SoKernel.Process
  SoKernel.KernelAccess SoKernel.Worlds SoKernel.StackReach SoKernel.Kmain SoKernel.Syscalls SoKernel.Processor
  SoKernel.StackFrames SoKernel.KernelThreads SoKernel.KernelStacks SoKernel.ContextSwitch
set_option linter.unusedSimpArgs false

/-! ### Runs from boot -/

/-- The machine when `kmain` has called `process_init`. -/
def booted (k : Kernel) (r : Regs) (line : Keyboard.Line) (fb : Console.Fb) : State :=
  ⟨⟨r,k⟩,line,fb,[],fun _ => .idle,.boot⟩

/-- A process returns to where it entered the kernel last, and a new one starts as it
    should. -/
def ExactAfter (history : List Event) : Event → Prop
  | .returned i e r =>
    ∃ entered, lastEntry i history = some entered ∧ entered.kind = e.kind ∧ entered.regs = e.regs ∧ Returns e r
  | .started _ r => Starts r
  | _ => True

/-- Every step into user mode is right. -/
def Faithful (events : List Event) : Prop :=
  ∀ history event rest, events = history ++ event :: rest → ExactAfter history event

theorem booted_recorded {k : Kernel} {r : Regs} {line : Keyboard.Line} {fb : Console.Fb} :
    Recorded [] (booted k r line fb) := fun _ _ none => by cases none

theorem faithful_nil : Faithful [] := by
  intro history event rest none
  simp at none

theorem faithful_step {p : Program} {s s' : State} {events : List Event} {event : Event} (faithful : Faithful events)
    (recorded : Recorded events s) (step : KernelThreads.Step p s event s') (exact : Exact event) :
    Faithful (events ++ [event]) := by
  intro history shown rest split
  rcases Lists.split_append split with ⟨rest,earlier⟩ | ⟨rfl,rfl⟩
  · exact faithful history shown rest earlier
  · cases shown with
    | returned i e r =>
      obtain ⟨entered,found,kind,regs⟩ := recorded i e (in_entry (returned_in step))
      exact ⟨entered,found,kind,regs,exact⟩
    | started i r => exact exact
    | _ => trivial

section
variable {b : Setup} {fuel : Nat} {k : Kernel} {fs : FsInstance} (boot : kmain fuel b = some (k,fs)) {l : Linked} {r : Regs}
  (cs : r.cs = KERNEL_CODE_SEGMENT) {line : Keyboard.Line} {fb : Console.Fb} {events : List Event} {s : State}
include boot cs

theorem booted_inv : Inv l b k.phys.frames (booted k r line fb) := by
  have idle : ∀ i, (k.procs i).state = .dead := by
    obtain ⟨_,_,_,rfl⟩ := kmain_started boot
    exact fun _ => rfl
  have nothing : Worlds.Run (underPaging 0#32) fs (Fits b 0#32 fs) ⟨k,[]⟩ ⟨k,[]⟩ := .refl
  obtain ⟨⟨book,separate⟩,steady⟩ := run_steady boot nothing
  refine ⟨⟨book,separate,steady,?_,?_,?_⟩,cs⟩
  · exact fun i alive => absurd (idle i) alive
  · exact fun i alive => absurd (idle i) alive
  · intro i ready
    have dead := idle i
    change (k.procs i).state = .ready at ready
    rw [ready] at dead
    cases dead

theorem run_inv (run : KernelThreads.Run ⟨l,fs,KernelData b k.phys.frames⟩ (Admits b ⟨l,fs,KernelData b k.phys.frames⟩)
    (booted k r line fb) events s) : Inv l b k.phys.frames s ∧ Recorded events s ∧ Faithful events := by
  induction run with
  | refl => exact ⟨booted_inv boot cs,booted_recorded,faithful_nil⟩
  | step _ admits step ih =>
    obtain ⟨inv,recorded,before⟩ := ih
    obtain ⟨next,exact⟩ := step_inv (kmain_image boot bootDir_shares) rfl inv admits step
    exact ⟨next,recorded_step recorded step,faithful_step before recorded step exact⟩

end

/-! ### The machine goes on -/

section
variable {l : Linked} {s : State} {i : Slot} {c : Cpu} (found : ∀ event s', Lands l s i c event s' → s'.mode ≠ .wild)
include found

theorem lands_fresh (fresh : s.thread i = .fresh) : c.regs.eip = l.process_start_trampoline := by
  by_contra elsewhere
  refine found _ _ (.lost (fun both => elsewhere both.2) ?_) rfl
  rintro ⟨e,point,call,suspended,_⟩
  cases fresh.symm.trans suspended

theorem lands_suspended {e : Entry} {point : Point} {call : Cpu} (suspended : s.thread i = .suspended e point call) :
    c.regs.eip = l.switch_context_return ∧ Continues (s.stack i) call c := by
  by_contra elsewhere
  refine found _ _ (.lost ?_ ?_) rfl
  · rintro ⟨fresh,_⟩
    cases fresh.symm.trans suspended
  · rintro ⟨e',point',call',same,both⟩
    cases suspended.symm.trans same
    exact elsewhere both

end

/-- The process has gone to user mode, and nothing else has changed. -/
structure ToUser (s s' : State) (i : Slot) : Prop where
  user : s'.mode = .user
  kernel : s'.cpu.kernel = s.cpu.kernel
  line : s'.line = s.line
  thread : s'.thread = Function.update s.thread i .idle

/-- The process has just entered the kernel. -/
structure Arrived (s s' : State) (i : Slot) (e : Entry) : Prop where
  inside : s'.In i e .called
  stack : s'.stack i = s.stack i
  esp : s'.cpu.regs.esp = slot (s'.stack i) e.bottom

section
variable {l : Linked} {s : State} {i : Slot} {e : Entry} {c : Cpu}

theorem called_arrived (current : s.cpu.kernel.current = some i)
    (called : Called (s.stack i) e.bottom (e.frame l (s.stack i)) s.cpu c) :
    Arrived s { s.setThread i (.inside e .called) with cpu := c, mode := .kernel } i e := by
  have stack : (c.kernel.procs i).kernel_stack = s.stack i := by
    rw [called.kernel]
    rfl
  refine ⟨⟨rfl,?_,Function.update_self ..⟩,stack,?_⟩
  · change c.kernel.current = some i
    rw [called.kernel]
    exact current
  · change c.regs.esp = slot (c.kernel.procs i).kernel_stack e.bottom
    rw [stack]
    exact called.esp

end

section
variable {b : Setup} {p : Program} {start : Frames} {s : State} {i : Slot} {e : Entry} (inv : Inv p.linked b start s)
include inv

theorem syscall_arrives (user : s.mode = .user) (current : s.cpu.kernel.current = some i) :
    ∃ s', KernelThreads.Step p s (.entered i ⟨.syscall,s.cpu.regs,s.cpu.regs.eax⟩) s' ∧
      Arrived s s' i ⟨.syscall,s.cpu.regs,s.cpu.regs.eax⟩ ∧ s'.line = s.line := by
  obtain ⟨_,_,ring3,aligned,esp0⟩ := user_stack inv user current
  exact ⟨_,.syscall s i user current,called_arrived current (syscall_enters p.linked aligned ring3 esp0),rfl⟩

theorem interrupt_arrives (user : s.mode = .user) (current : s.cpu.kernel.current = some i) (n : Vector) (error_code : Word) :
    ∃ s', KernelThreads.Step p s (.entered i ⟨.interrupt n error_code,s.cpu.regs,s.cpu.regs.eax⟩) s' ∧
      Arrived s s' i ⟨.interrupt n error_code,s.cpu.regs,s.cpu.regs.eax⟩ ∧ s'.cpu.kernel.procs = s.cpu.kernel.procs ∧
      ∀ j, j ≠ i → s'.thread j = s.thread j := by
  obtain ⟨_,_,ring3,aligned,esp0⟩ := user_stack inv user current
  have called := interrupt_enters p.linked aligned ring3 esp0 n error_code
  refine ⟨_,.interrupt s i n error_code user current,called_arrived current called,?_,fun _ other => Function.update_of_ne other ..⟩
  change (arrive p.linked s.cpu n error_code).kernel.procs = s.cpu.kernel.procs
  rw [called.kernel]
  rfl

/-- When its work is done, C code goes back to the stub. -/
theorem done_returns (inside : s.In i e .done) : ∃ c r s', KernelThreads.Step p s .silent { s with cpu := c } ∧
    KernelThreads.Step p { s with cpu := c } (.returned i e r) s' ∧ ToUser s s' i := by
  obtain ⟨book,within⟩ := inside_of inv inside
  have framed := inside_framed within
  have works : Works p.data (s.stack i) e.bottom s.cpu ⟨{ s.cpu.regs with esp := slot (s.stack i) e.bottom },s.cpu.kernel⟩ :=
    ⟨rfl,within.cs,⟨e.bottom,le_refl _,rfl⟩,fun a changed => absurd rfl changed⟩
  have left := frame_leaves p.linked (c := ⟨{ s.cpu.regs with esp := slot (s.stack i) e.bottom },s.cpu.kernel⟩) framed.user rfl
    framed.stacked
  exact ⟨_,_,_,.work s i e .done _ inside works,.returns _ i e _ inside rfl left,rfl,rfl,rfl,rfl⟩

variable (bootUsed : is_used start (pageOf b.page_directory) = true)
include bootUsed

theorem step_found (data : p.data = KernelData b start) {event : Event} {s' : State} (admits : Admits b p s event)
    (step : KernelThreads.Step p s event s') : s'.mode ≠ .wild := by
  intro wild
  have positioned := (step_inv bootUsed data inv admits step).1.positioned
  simp only [Positioned,wild] at positioned

/-- `jump_to_process` takes a new process to user mode. -/
theorem launches (launching : s.mode = .launching) (current : s.cpu.kernel.current = some i) (fresh : s.thread i = .fresh) :
    ∃ r s', KernelThreads.Step p s (.started i r) s' ∧ ToUser s s' i := by
  have here := lands_fresh (l := p.linked) (c := execs p.linked s.cpu restore) (fun event s' lands => by
    have step : KernelThreads.Step ⟨p.linked,p.rootfs,KernelData b start⟩ s event s' := .launch s i _ _ launching current lands
    refine step_found (p := ⟨p.linked,p.rootfs,KernelData b start⟩) inv bootUsed rfl ?_ step
    rcases lands_event lands with rfl | ⟨_,_,rfl⟩
    · exact trivial
    · exact trivial) fresh
  refine ⟨_,_,.launch s i _ _ launching current (.starts fresh here),rfl,?_,rfl,rfl⟩
  change (execs p.linked (execs p.linked s.cpu restore) process_start_trampoline_code).kernel = s.cpu.kernel
  rw [trampoline_kernel,restore_kernel]

/-- `scheduler_start` takes the first process to user mode. -/
theorem boot_starts (within : ∀ f, p.data f → KernelData b start f) (booting : s.mode = .boot) {k : Kernel}
    (started : scheduler_start s.cpu.kernel = some k) (first : k.current = some i) (fresh : s.thread i = .fresh)
    (aligned : s.cpu.regs.esp.toNat % 4 = 0) (stack : ∀ a, ThreeWords s.cpu.regs.esp a → p.data (pageOf a)) :
    ∃ t r s', KernelThreads.Step p s .silent t ∧ t.mode = .launching ∧ t.cpu.kernel.current = some i ∧
      KernelThreads.Step p t (.started i r) s' ∧ s'.mode = .user ∧ s'.cpu.kernel.procs = k.procs ∧
      s'.cpu.kernel.current = some i ∧ s'.line = s.line ∧ s'.thread = Function.update s.thread i .idle := by
  have jumps := KernelThreads.Step.start (p := p) s k i 0#32 booting started first aligned stack
  have wider : KernelThreads.Step ⟨p.linked,p.rootfs,KernelData b start⟩ s .silent _ :=
    .start s k i 0#32 booting started first aligned (fun a inStack => within _ (stack a inStack))
  have invT := (step_inv (p := ⟨p.linked,p.rootfs,KernelData b start⟩) bootUsed rfl inv (by exact trivial) wider).1
  obtain ⟨m,loads,_⟩ := jump_loads p.linked (c := { s.cpu with kernel := { k with cr3 := s.cpu.kernel.cr3 } }) aligned
    (k.procs i).page_dir_phys (k.procs i).esp 0#32
  have kernel := congrArg Cpu.kernel loads
  have procs := congrArg Kernel.procs kernel
  have isFirst := (congrArg Kernel.current kernel).trans first
  obtain ⟨r,s',starts,toUser⟩ := launches (p := p) invT bootUsed rfl isFirst fresh
  refine ⟨_,r,s',jumps,rfl,isFirst,starts,toUser.user,?_,?_,toUser.line,toUser.thread⟩
  · rw [toUser.kernel]
    exact procs
  · rw [toUser.kernel]
    exact isFirst

end

/-! ### Switching to another process -/

/-- The processor has been given from one process to another one. -/
structure Switched (s s' : State) (i next : Slot) : Prop where
  current : s'.cpu.kernel.current = some next
  states : ∀ j, (s'.cpu.kernel.procs j).state =
    if j = next then .running else if j = i then .ready else (s.cpu.kernel.procs j).state

section
variable {b : Setup} {p : Program} {start : Frames} (bootUsed : is_used start (pageOf b.page_directory) = true)
  (data : p.data = KernelData b start) {s : State} {i next : Slot} (inv : Inv p.linked b start s) (user : s.mode = .user)
  (current : s.cpu.kernel.current = some i) (found : next_ready s.cpu.kernel.procs i = some next)
include bootUsed data inv user current found

/-- The timer interrupts a process, and `schedule` finds another one. -/
theorem tick_switches : ∃ t e, KernelThreads.Step p s (.entered i e) t ∧ e.kind = .interrupt 32 0#32 ∧
    (∀ j, j ≠ i → t.thread j = s.thread j) ∧
    ∀ event s', Lands p.linked (t.setThread i (.suspended e .done (switching p.linked t.cpu i next))) next
        (execs p.linked (switching p.linked t.cpu i next) switch_context_code) event s' →
      KernelThreads.Step p t event s' ∧ s'.mode ≠ .wild ∧ Switched s s' i next := by
  obtain ⟨t,enters,⟨atCall,stack,esp⟩,procs,others⟩ := interrupt_arrives inv user current 32 0#32
  have entered := (step_inv bootUsed data inv (by exact trivial) enters).1
  obtain ⟨book,inside⟩ := inside_of entered atCall
  have framed := inside_framed inside
  have stacked := framed.stacked
  simp only [Entry.bottom,Entry.frame,Entry.saved,Entry.pushed,List.cons_append,List.nil_append,Stacked,
    Nat.reduceAdd] at stacked
  have timer : t.word i 1017 = 32#32 ∧ Ring3 (t.word i 1020) :=
    ⟨stacked.2.2.2.2.2.2.2.2.1,by rw [State.word,stacked.2.2.2.2.2.2.2.2.2.2.2.1]; exact framed.user⟩
  have isNext : next_ready t.cpu.kernel.procs i = some next := by rw [procs]; exact found
  refine ⟨t,_,enters,rfl,others,fun event s' lands => ?_⟩
  have ticks : KernelThreads.Step p t event s' := .tick t i _ 32 0#32 atCall rfl timer event s'
    (.switches _ _ (.intro next isNext 1000 (le_refl 1009) esp _ _ lands))
  refine ⟨ticks,step_found entered bootUsed data ?_ ticks,?_⟩
  · rcases lands_event lands with rfl | ⟨_,_,rfl⟩
    · exact trivial
    · exact trivial
  · obtain ⟨m,d,executed,kernel,_⟩ := switch_machine p.linked (inside_aligned inside) atCall.2.1 isNext (by decide) esp
    obtain ⟨_,_,isCurrent,_,_,after⟩ := schedule_some (slot (t.stack i) 1000)
      (show (t.cpu.kernel.setMem m).current = some i from atCall.2.1) isNext
    have loaded : s'.cpu.kernel = schedule (t.cpu.kernel.setMem m) (slot (t.stack i) 1000) := by
      rw [lands_kernel lands,executed,restore_kernel,kernel]
    refine ⟨by rw [loaded,isCurrent],fun j => ?_⟩
    have was := (user_stack inv user current).1.running
    rw [loaded,after j]
    simp only [Kernel.setMem,procs,was,and_true]

/-- The other process is new. -/
theorem tick_starts (fresh : s.thread next = .fresh) : ∃ t e r s', KernelThreads.Step p s (.entered i e) t ∧
    KernelThreads.Step p t (.started next r) s' ∧ e.kind = .interrupt 32 0#32 ∧ s'.mode = .user ∧ Switched s s' i next ∧
    ∃ call, s'.thread i = .suspended e .done call := by
  have other : next ≠ i := by
    rintro rfl
    cases fresh.symm.trans (user_stack inv user current).2.1
  obtain ⟨t,e,enters,kind,others,lands⟩ := tick_switches bootUsed data inv user current found
  have isFresh : (t.setThread i (.suspended e .done (switching p.linked t.cpu i next))).thread next = .fresh :=
    (Function.update_of_ne other ..).trans ((others next other).trans fresh)
  have here := lands_fresh (fun event s' landed => (lands event s' landed).2.1) isFresh
  obtain ⟨starts,_,switched⟩ := lands _ _ (.starts isFresh here)
  exact ⟨t,e,_,_,enters,starts,kind,rfl,switched,_,(Function.update_of_ne other.symm ..).trans (Function.update_self ..)⟩

/-- The other process goes on. -/
theorem tick_resumes {e' : Entry} {point : Point} {call : Cpu} (suspended : s.thread next = .suspended e' point call) :
    ∃ t e s', KernelThreads.Step p s (.entered i e) t ∧ KernelThreads.Step p t .silent s' ∧ e.kind = .interrupt 32 0#32 ∧
      s'.In next e' point ∧ Switched s s' i next := by
  have other : next ≠ i := by
    rintro rfl
    cases suspended.symm.trans (user_stack inv user current).2.1
  obtain ⟨t,e,enters,kind,others,lands⟩ := tick_switches bootUsed data inv user current found
  have isSuspended : (t.setThread i (.suspended e .done (switching p.linked t.cpu i next))).thread next =
      .suspended e' point call := (Function.update_of_ne other ..).trans ((others next other).trans suspended)
  obtain ⟨here,goesOn⟩ := lands_suspended (fun event s' landed => (lands event s' landed).2.1) isSuspended
  obtain ⟨resumes,_,switched⟩ := lands _ _ (.continues e' point call isSuspended here goesOn)
  exact ⟨t,e,_,enters,resumes,kind,⟨rfl,switched.current,Function.update_self ..⟩,switched⟩

end

/-! ### The small PC -/

def pcLinked : Linked where
  interrupt_return := 0x100100#32
  syscall_return := 0x100120#32
  switch_context_return := 0x100140#32
  process_start_trampoline := 0x100010#32
  esp_field := fun i => BitVec.ofNat 32 (0x110008+56*i.val)
  distinct := by decide

def pcProgram (frames : Frames) : Program := ⟨pcLinked,pcFs,KernelData pcSetup (pcKernel frames).phys.frames⟩
def trioProgram (frames : Frames) : Program := ⟨pcLinked,pcFs,KernelData trio (trioKernel frames).phys.frames⟩

/-- In `kmain`, at the top of the boot stack. -/
def bootRegs : Regs :=
  { eax := 0#32, ebx := 0#32, ecx := 0#32, edx := 0#32, esi := 0#32, edi := 0#32, ebp := 0#32, esp := 0x121000#32,
    eip := 0x100000#32, eflags := 2#32, cs := KERNEL_CODE_SEGMENT, ss := KERNEL_DATA_SEGMENT, ds := KERNEL_DATA_SEGMENT,
    es := KERNEL_DATA_SEGMENT, fs := KERNEL_DATA_SEGMENT, gs := KERNEL_DATA_SEGMENT }

/-- The small PC when `kmain` has called `process_init`. -/
def pcBooted (frames : Frames) : State := booted (pcKernel frames) bootRegs Keyboard.empty clean

theorem boot_page {a : Word} (inStack : ThreeWords bootRegs.esp a) : pageOf a = 0x120 := by
  rcases inStack with (rfl | rfl | rfl | rfl) | (rfl | rfl | rfl | rfl) | (rfl | rfl | rfl | rfl) <;> rfl

/-- The boot stack is in the image of the kernel. -/
theorem boot_stack {b : Setup} {fuel : Nat} {k : Kernel} {fs : FsInstance} (boot : kmain fuel b = some (k,fs))
    (image : Shares 0x120 b.kernel_physical_start.toNat b.kernel_physical_end.toNat) (dir : 0x120 ≠ pageOf b.page_directory)
    {a : Word} (inStack : ThreeWords bootRegs.esp a) : KernelData b k.phys.frames (pageOf a) := by
  rw [boot_page inStack]
  exact ⟨kmain_image boot image,dir⟩

theorem image_stack : Shares 0x120 (0x100000#32).toNat (0x140000#32).toNat := ⟨0x120000,by decide,by decide,by decide,by decide⟩

section
variable {b : Setup} {fuel : Nat} {k : Kernel} {fs : FsInstance} {l : Linked} {r : Regs} (line : Keyboard.Line)
  (fb : Console.Fb)

/-- The runs from boot in which programs fit and pointers lead to memory of the caller. -/
abbrev Runs (b : Setup) (l : Linked) (fs : FsInstance) (k : Kernel) (r : Regs) (line : Keyboard.Line) (fb : Console.Fb) :
    List Event → State → Prop :=
  KernelThreads.Run ⟨l,fs,KernelData b k.phys.frames⟩ (Admits b ⟨l,fs,KernelData b k.phys.frames⟩) (booted k r line fb)

/-- Keys are pressed while `kmain` runs. -/
theorem keys_run (scan_codes : List Byte) : ∃ events, Runs b l fs k r line fb events
    (booted k r (scan_codes.foldl Echo.keyboard_interrupt (line,fb)).1
      (scan_codes.foldl Echo.keyboard_interrupt (line,fb)).2) := by
  induction scan_codes using List.reverseRecOn with
  | nil => exact ⟨[],.refl⟩
  | append_singleton before scan_code ih =>
    obtain ⟨events,run⟩ := ih
    rw [List.foldl_append]
    exact ⟨_,.step run (by exact trivial) (.bootKey _ scan_code rfl)⟩

/-- The first program is created and started. -/
theorem first_launched {data : Nat → Prop} (within : ∀ f, data f → KernelData b k.phys.frames f)
    (boot : kmain fuel b = some (k,fs)) (cs : r.cs = KERNEL_CODE_SEGMENT) {name : List Byte}
    (fits : Fits b l.process_start_trampoline fs ⟨k,[]⟩ (.create name)) {c : Creation}
    (called : process_create (paged k.cr3) l.process_start_trampoline fs name k = c) {i : Slot} (slot : c.slot = some i)
    (aligned : r.esp.toNat % 4 = 0) (stack : ∀ a, ThreeWords r.esp a → data (pageOf a)) :
    ∃ t r' s, KernelThreads.Step ⟨l,fs,data⟩ (booted k r line fb) (.created name) ((booted k r line fb).afterCreate c) ∧
      KernelThreads.Step ⟨l,fs,data⟩ ((booted k r line fb).afterCreate c) .silent t ∧ t.mode = .launching ∧
      t.cpu.kernel.current = some i ∧ KernelThreads.Step ⟨l,fs,data⟩ t (.started i r') s ∧ s.mode = .user ∧
      s.cpu.kernel.current = some i ∧ s.stack i = c.kernel_stack ∧ s.line = line := by
  have bootUsed := kmain_image boot bootDir_shares
  have table := process_create_table (paged k.cr3) l.process_start_trampoline fs name k
  rw [called] at table
  have idle : ∀ i, (k.procs i).state = .dead := by
    obtain ⟨_,_,_,rfl⟩ := kmain_started boot
    exact fun _ => rfl
  obtain ⟨k',started⟩ := Scheduler.scheduler_start_ready (Scheduler.created_ready table slot)
  have alone := Scheduler.start_alone (fun _ => Scheduler.created_alone table slot idle) started
  have creates : ∀ data, KernelThreads.Step ⟨l,fs,data⟩ (booted k r line fb) (.created name) _ :=
    fun data => .bootCreate (booted k r line fb) name rfl
  have isCall : ∀ data, (booted k r line fb).create ⟨l,fs,data⟩ name = c := fun _ => called
  simp only [isCall] at creates
  have created := (step_inv bootUsed rfl (booted_inv boot cs) (by exact fits) (creates (KernelData b k.phys.frames))).1
  have fresh : ((booted k r line fb).afterCreate c).thread i = .fresh := by
    change withNew _ c.slot i = .fresh
    rw [slot]
    exact Function.update_self ..
  obtain ⟨t,r',s,jumps,launching,isFirst,starts,user,procs,current,sameLine,_⟩ := boot_starts (p := ⟨l,fs,data⟩) created bootUsed
    within rfl started (by rw [alone]) fresh aligned stack
  refine ⟨t,r',s,creates data,jumps,launching,isFirst,starts,user,current,?_,sameLine⟩
  obtain ⟨_,_,_,_,_,_,_,_,updated⟩ := table.filled i slot
  rw [State.stack,procs,alone]
  simp [Kernel.setProc,updated]

end

/-- `hello` is launched, and the line "a" has been typed. -/
theorem hello_launched : ∃ (frames : Frames) (events : List Event) (s : State) (i : Slot),
    kmain 3 pcSetup = some (pcKernel frames,pcFs) ∧
    KernelThreads.Run (pcProgram frames) (Admits pcSetup (pcProgram frames)) (pcBooted frames) events s ∧ s.mode = .user ∧
    Running s.cpu.kernel i ∧ s.stack i = 0x1000#32 ∧
    Keyboard.keyboard_has_line s.line = true ∧ (Keyboard.keyboard_read_line s.line 1#32).1 = [0x61#8] := by
  obtain ⟨frames,ended,boot⟩ := pc_kmain
  obtain ⟨fits,filled,stack⟩ := hello_fits ended 0x100010#32
  obtain ⟨i,slot⟩ := Option.ne_none_iff_exists'.mp filled
  obtain ⟨events,typed⟩ : ∃ events, Runs pcSetup pcLinked pcFs (pcKernel frames) bootRegs Keyboard.empty clean events _ :=
    keys_run Keyboard.empty clean [0x1E#8,0x1C#8]
  obtain ⟨t,r,s,creates,jumps,_,_,starts,user,current,isStack,line⟩ := first_launched (l := pcLinked) (r := bootRegs) _ _
    (fun _ own => own) boot rfl fits rfl slot (by decide) (fun a inStack => boot_stack boot image_stack (by decide) inStack)
  have run := KernelThreads.Run.step (.step (.step typed (by exact fits) creates) (by exact trivial) jumps)
    (by exact trivial) starts
  have running := (user_stack (run_inv boot rfl run).1 user current).1
  refine ⟨frames,_,s,i,boot,run,user,running,isStack.trans stack,?_,?_⟩
  · rw [line]
    rfl
  · rw [line]
    rfl

/-- One of the three programs is created. -/
theorem stocked_creates {start : Frames} (bootUsed : is_used start (pageOf trio.page_directory) = true) (data : Nat → Prop)
    {s : State} (inv : Inv pcLinked trio start s) (booting : s.mode = .boot) {count : Nat}
    (stocked : Stocked s.cpu.kernel (count+1)) (cr3 : s.cpu.kernel.cr3 = 0x104000#32) {name : List Byte}
    (known : name ∈ [helloName,shellName,topName]) {slot : Slot} (found : free_slot s.cpu.kernel.procs = some slot) :
    ∃ c, KernelThreads.Step ⟨pcLinked,pcFs,data⟩ s (.created name) (s.afterCreate c) ∧
      Admits trio ⟨pcLinked,pcFs,data⟩ s (.created name) ∧ c.Table s.cpu.kernel ∧ c.slot = some slot ∧ Stocked c.kernel count := by
  obtain ⟨reads,fits⟩ := stocked_fits stocked cr3 known 0x100010#32 s.log
  obtain ⟨book,kept⟩ := inv.kept
  have image := (create_steady kept.separate kept.steady bootUsed fits).1
  obtain ⟨slotIs,left⟩ := stocked_create (fun a _ => reads a) known stocked image found
  exact ⟨_,.bootCreate s name booting,fits,process_create_table _ _ _ _ _,slotIs,left⟩

/-- `hello` has been launched, and `shell` has been created too. -/
theorem two_launched : ∃ (frames : Frames) (events : List Event) (s : State), kmain 3 trio = some (trioKernel frames,pcFs) ∧
    Runs trio pcLinked pcFs (trioKernel frames) bootRegs Keyboard.empty clean events s ∧ s.mode = .user ∧
    s.cpu.kernel.current = some 0 ∧ (∀ j, (s.cpu.kernel.procs j).state = .ready ↔ j = 1) ∧ s.thread 1 = .fresh := by
  obtain ⟨frames,ended,boot⟩ := trio_kmain
  have bootUsed := kmain_image boot bootDir_shares
  have inv : Inv pcLinked trio _ (booted (trioKernel frames) bootRegs Keyboard.empty clean) := booted_inv boot rfl
  obtain ⟨c,creates,fits,table,slot,left⟩ := stocked_creates bootUsed (KernelData trio (trioKernel frames).phys.frames)
    inv rfl (trio_stocked ended) rfl (show helloName ∈ _ by simp) (show free_slot (trioKernel frames).procs = some 0 from rfl)
  have invC := (step_inv bootUsed rfl inv fits creates).1
  obtain ⟨c',creates',fits',table',slot',_⟩ := stocked_creates bootUsed (KernelData trio (trioKernel frames).phys.frames)
    invC rfl left table.cr3 (show shellName ∈ _ by simp) (trio_second table slot)
  have invC' := (step_inv bootUsed rfl invC fits' creates').1
  have zero : (c'.kernel.procs 0).state = .ready := by
    rw [table_kept table' slot' (by decide)]
    exact (table_new table slot).1
  have others : ∀ j, j ≠ 0 → j ≠ 1 → (c'.kernel.procs j).state = .dead := by
    intro j notZero notOne
    rw [table_kept table' slot' notOne]
    exact congrArg Proc.state (table_kept table slot notZero)
  obtain ⟨t,r,s,jumps,_,_,starts,user,procs,current,_,thread⟩ := boot_starts (i := 0) invC' bootUsed (fun _ own => own) rfl
    (Scheduler.start_zero zero) rfl (by
      change withNew (withNew _ c.slot) c'.slot 0 = .fresh
      rw [slot',slot]
      rfl) (show (0x121000#32).toNat % 4 = 0 by decide) (fun a inStack => boot_stack boot image_stack (by decide) inStack)
  have run : Runs trio pcLinked pcFs (trioKernel frames) bootRegs Keyboard.empty clean _ s :=
    .step (.step (.step (.step .refl fits creates) fits' creates') (by exact trivial) jumps) (by exact trivial) starts
  refine ⟨frames,_,s,boot,run,user,current,fun j => ?_,?_⟩
  · rw [procs]
    change (Function.update c'.kernel.procs 0 { c'.kernel.procs 0 with state := .running } j).state = .ready ↔ j = 1
    by_cases isZero : j = 0
    · simp [isZero]
    · by_cases isOne : j = 1
      · simpa [isOne] using (table_new table' slot').1
      · simp [isZero,isOne,others j isZero isOne]
  · rw [thread,Function.update_of_ne (by decide)]
    change withNew (withNew _ c.slot) c'.slot 1 = .fresh
    rw [slot',slot]
    rfl

/-! ### A pointer to the kernel stack -/

/-- The entry as it looks when a byte has been stored over its `eip`. -/
def overwritten (e : Entry) (v : Byte) : Entry :=
  { e with regs := { e.regs with eip := e.regs.eip.extractLsb' 8 24 ++ v } }

section
variable {l : Linked} {b : Setup} {start : Frames} {s : State} {i : Slot} {e : Entry} {book : List (Creation × Ghost)}

/-- A byte stored over the saved `eip` of a system call. -/
theorem frame_overwritten {m : Memory} {p : Word} (aligned : PageAligned p) (kind : e.kind = .syscall)
    (framed : Framed l m p e) (v : Byte) :
    Framed l (write8 m (slot p 1019) v) p (overwritten e v) := by
  have stacked := framed.stacked
  refine ⟨framed.user,fun notCall => absurd kind notCall,?_⟩
  simp only [overwritten,Entry.bottom,Entry.frame,kind,Entry.saved,Entry.pushed,List.cons_append,List.nil_append,Stacked,
    Nat.reduceAdd] at stacked ⊢
  obtain ⟨w0,w1,w2,w3,w4,w5,w6,w7,w8,w9,w10,w11,w12,w13,_⟩ := stacked
  have eip : entry (write8 m (slot p 1019) v) p 1019 = e.regs.eip.extractLsb' 8 24 ++ v := by
    rw [entry,read32_write8,← entry,w9]
  simp [entry_write8 aligned,w0,w1,w2,w3,w4,w5,w6,w7,w8,eip,w10,w11,w12,w13]

/-- The arguments of a system call are the registers of the caller. -/
theorem inside_arguments (inside : Inside l b start s i e book) (kind : e.kind = .syscall) :
    s.arguments i = ⟨e.regs.ecx,e.regs.ebx,e.eax⟩ := by
  have stacked := (inside_framed inside).stacked
  simp only [Entry.bottom,Entry.frame,kind,Entry.saved,Entry.pushed,List.cons_append,List.nil_append,Stacked,entry,
    Nat.reduceAdd] at stacked
  rw [State.arguments,regs_pointer inside kind,slot_add_16,slot_add_24,show (20#32 : Word) = BitVec.ofNat 32 (4*5) from rfl,
    slot_add]
  simp only [Nat.reduceAdd,stacked]

/-- A pointer to the caller's own kernel stack leads there. -/
theorem access_stack (inside : Inside l b start s i e book) {a : Word} (inStack : pageOf a = pageOf (s.stack i)) :
    s.access s.cpu.mem a = a := by
  have found := stack_identity inside.kept (running_alive inside.running) inStack
  rw [← inside.running.cr3] at found
  rw [State.access,paged,Cpu.mem,found]
  rfl

/-- `SYS_READ` stores the byte that was typed over the saved `eip`. -/
theorem read_overwrites {p : Program} (inside : Inside p.linked b start s i e book) (kind : e.kind = .syscall)
    (buffer : e.regs.ebx = slot (s.stack i) 1019) (one : e.regs.ecx = 1#32) {v : Byte}
    (typed : (Keyboard.keyboard_read_line s.line 1#32).1 = [v]) {o : Outcome}
    (outcome : o = s.outcome p { s.arguments i with eax := SYS_READ }) :
    o.eax = 1#32 ∧ (s.finish i e o).cpu.regs = s.cpu.regs ∧
      (s.finish i e o).cpu.kernel = s.cpu.kernel.setMem (s.finish i e o).cpu.mem ∧
      Framed p.linked (s.finish i e o).cpu.mem (s.stack i) { overwritten e v with eax := 1#32 } := by
  have aligned := inside_aligned inside
  have identity := access_stack inside (a := slot (s.stack i) 1019) (pageOf_slot aligned (by decide))
  have read : o = ⟨1#32,⟨s.cpu.kernel.setMem (write8 s.cpu.mem (slot (s.stack i) 1019) v),p.rootfs,
      (Keyboard.keyboard_read_line s.line 1#32).2,s.fb⟩,[],[slot (s.stack i) 1019]⟩ := by
    rw [outcome,inside_arguments inside kind,buffer,one]
    simp only [State.outcome,syscall_dispatch,show ¬ SYS_READ = SYS_WRITE by decide,
      show ¬ (SYS_READ = SYS_EXIT ∨ SYS_READ = SYS_YIELD) by decide,show ¬ SYS_READ = SYS_SPAWN by decide,if_false,if_true,
      typed,Outcome.of,Touched.putAll,Touched.put,store8,List.length_singleton]
    rw [← Cpu.mem,identity]
  have result : s.regs i+24#32 = slot (s.stack i) 1018 := by rw [regs_pointer inside kind,slot_add_24]
  rw [read]
  refine ⟨rfl,rfl,rfl,?_⟩
  simp only [State.finish,State.result,result]
  exact frame_result (e := overwritten e v) aligned kind (frame_overwritten aligned kind (inside_framed inside) v) 1#32

end

/-- The steps in which at least the programs fit. -/
def Created (b : Setup) (p : Program) (s : State) : Event → Prop
  | .created name => Fits b p.linked.process_start_trampoline p.rootfs ⟨s.cpu.kernel,s.log⟩ (.create name)
  | _ => True

/-- More steps may be admitted. -/
theorem run_mono {p : Program} {admits wider : State → Event → Prop} (mono : ∀ s event, admits s event → wider s event)
    {s s' : State} {events : List Event} (run : KernelThreads.Run p admits s events s') :
    KernelThreads.Run p wider s events s' := by
  induction run with
  | refl => exact .refl
  | step _ admitted step ih => exact .step ih (mono _ _ admitted) step

theorem admits_created {b : Setup} {p : Program} {s : State} {event : Event} (admits : Admits b p s event) :
    Created b p s event := by
  cases event with
  | created name => exact admits
  | _ => trivial

section
variable {b : Setup} {p : Program} {start : Frames} (bootUsed : is_used start (pageOf b.page_directory) = true)
  (data : p.data = KernelData b start) {s₀ s : State} {events : List Event} {i : Slot}
include bootUsed data

/-- A process that asks for a line gets to the loop of `SYS_READ`. -/
theorem read_tests (inv : Inv p.linked b start s) (user : s.mode = .user) (current : s.cpu.kernel.current = some i)
    (number : s.cpu.regs.eax = SYS_READ) : ∃ t u, KernelThreads.Step p s (.entered i ⟨.syscall,s.cpu.regs,SYS_READ⟩) t ∧
      KernelThreads.Step p t .silent u ∧ u.In i ⟨.syscall,s.cpu.regs,SYS_READ⟩ (.test .read) ∧ u.cpu = t.cpu ∧
      u.line = s.line ∧ u.stack i = s.stack i ∧ u.cpu.regs.esp = slot (s.stack i) 1010 := by
  obtain ⟨t,enters,⟨atCall,stack,esp⟩,line⟩ := syscall_arrives (p := p) inv user current
  have entered := (step_inv bootUsed data inv (by exact trivial) enters).1
  rw [number] at enters atCall esp
  obtain ⟨_,inside⟩ := inside_of entered atCall
  have reads := KernelThreads.Step.sysRead (p := p) t i _ atCall rfl (by rw [inside_arguments inside rfl])
  exact ⟨t,_,enters,reads,⟨atCall.1,atCall.2.1,Function.update_self ..⟩,rfl,line,stack,by rw [← stack]; exact esp⟩

/-- A process that reads a line to where its `eip` is saved returns elsewhere. -/
theorem read_hijacks (run : KernelThreads.Run p (Created b p) s₀ events s) (inv : Inv p.linked b start s)
    (user : s.mode = .user) (current : s.cpu.kernel.current = some i) (line : Keyboard.keyboard_has_line s.line = true)
    {v : Byte} (typed : (Keyboard.keyboard_read_line s.line 1#32).1 = [v]) (number : s.cpu.regs.eax = SYS_READ)
    (buffer : s.cpu.regs.ebx = slot (s.stack i) 1019) (one : s.cpu.regs.ecx = 1#32) :
    ∃ (history : List Event) (s' : State) (r : Regs),
      KernelThreads.Run p (Created b p) s₀ (history ++ [.returned i ⟨.syscall,s.cpu.regs,1#32⟩ r]) s' ∧
      lastEntry i history = some ⟨.syscall,s.cpu.regs,SYS_READ⟩ ∧ r.eip = s.cpu.regs.eip.extractLsb' 8 24 ++ v := by
  obtain ⟨t,u,enters,reads,inTest,_,sameLine,sameStack,esp⟩ := read_tests bootUsed data inv user current number
  have entered := (step_inv bootUsed data inv (by exact trivial) enters).1
  have reading := (step_inv bootUsed data entered (by exact trivial) reads).1
  obtain ⟨_,inside⟩ := inside_of reading inTest
  obtain ⟨o,outcome⟩ : ∃ o, o = u.outcome p { u.arguments i with eax := SYS_READ } := ⟨_,rfl⟩
  have stores := KernelThreads.Step.testReady (p := p) u i _ .read inTest rfl (by rw [State.ready,sameLine,line]) o outcome
  obtain ⟨eax,regs,kernel,framed⟩ := read_overwrites (p := p) inside rfl (by rw [sameStack]; exact buffer) one
    (by rw [sameLine]; exact typed) outcome
  have atEnd : (u.finish i ⟨.syscall,s.cpu.regs,SYS_READ⟩ o).In i ⟨.syscall,s.cpu.regs,1#32⟩ .done := by
    refine ⟨inTest.1,by rw [kernel]; exact inTest.2.1,?_⟩
    rw [State.finish,eax]
    exact Function.update_self ..
  have endStack : (u.finish i ⟨.syscall,s.cpu.regs,SYS_READ⟩ o).stack i = u.stack i := by
    rw [State.stack,kernel]
    rfl
  have endEsp : (u.finish i ⟨.syscall,s.cpu.regs,SYS_READ⟩ o).cpu.regs.esp = slot (u.stack i) 1010 := by
    rw [regs,esp,sameStack]
  have left := frame_leaves p.linked framed.user endEsp framed.stacked
  have returns := KernelThreads.Step.returns (p := p) _ i _ _ atEnd (by rw [endStack]; exact endEsp) left
  have returned := KernelThreads.Run.step (.step (.step (.step run (by exact trivial) enters) (by exact trivial) reads)
    (by exact trivial) stores) (by exact trivial) returns
  refine ⟨_,_,_,returned,?_,rfl⟩
  simp [lastEntry,List.foldl_append]

end

/-! ### Transparency -/

/-- As long as the programs that are created fit and the system calls store only where
    user code of the caller could, the machine is never lost, and whenever a process
    enters user mode it does so with the right registers. Each kernel stack is then
    reached at its own address. -/
theorem context_switch_transparent {b : Setup} {fuel : Nat} {k : Kernel} {fs : FsInstance}
    (boot : kmain fuel b = some (k,fs)) {l : Linked} {r : Regs} (cs : r.cs = KERNEL_CODE_SEGMENT) {line : Keyboard.Line}
    {fb : Console.Fb} {events : List Event} {s : State}
    (run : KernelThreads.Run ⟨l,fs,KernelData b k.phys.frames⟩ (Admits b ⟨l,fs,KernelData b k.phys.frames⟩)
      (booted k r line fb) events s) :
    Faithful events ∧ s.mode ≠ .wild ∧
      ∀ i, (s.cpu.kernel.procs i).state ≠ .dead → ∀ a, pageOf a = pageOf (s.stack i) →
        Paging.translate s.cpu.mem (s.cpu.kernel.procs i).page_dir_phys a = some ⟨a,true,false⟩ := by
  obtain ⟨inv,_,faithful⟩ := run_inv boot cs run
  refine ⟨faithful,?_,?_⟩
  · intro wild
    have positioned := inv.positioned
    simp only [Positioned,wild] at positioned
  · intro i alive a inStack
    obtain ⟨book,kept⟩ := inv.kept
    exact stack_identity kept alive inStack

/-- The timer interrupts `hello`, and `shell` starts. When it interrupts `shell`, `hello` goes
    on where it was. -/
theorem context_switch_transparent_pc : ∃ (frames : Frames) (history : List Event) (s : State) (e : Entry) (r : Regs),
    kmain 3 trio = some (trioKernel frames,pcFs) ∧
    Runs trio pcLinked pcFs (trioKernel frames) bootRegs Keyboard.empty clean (history ++ [.returned 0 e r]) s ∧
    e.kind = .interrupt 32 0#32 ∧ (∃ r', .started 1 r' ∈ history) ∧ Faithful (history ++ [.returned 0 e r]) := by
  obtain ⟨frames,events,s,boot,run,user,current,ready,fresh⟩ := two_launched
  have bootUsed := kmain_image boot bootDir_shares
  have found : next_ready s.cpu.kernel.procs 0 = some 1 := next_ready_only ((ready 1).mpr rfl) (fun j => (ready j).mp)
  obtain ⟨t,e,r,u,enters,starts,kind,userU,switched,call,suspended⟩ := tick_starts (p := trioProgram frames) bootUsed rfl
    (run_inv boot rfl run).1 user current found fresh
  have runU := KernelThreads.Run.step (.step run (by exact trivial) enters) (by exact trivial) starts
  have back : next_ready u.cpu.kernel.procs 1 = some 0 := by
    refine next_ready_only (by rw [switched.states]; rfl) (fun j isReady => ?_)
    rw [switched.states] at isReady
    by_contra other
    by_cases isOne : j = 1
    · simp [isOne] at isReady
    · rw [if_neg isOne,if_neg other,ready j] at isReady
      exact isOne isReady
  obtain ⟨t',e',u',enters',resumes,_,inside,_⟩ := tick_resumes (p := trioProgram frames) bootUsed rfl (run_inv boot rfl runU).1
    userU switched.current back suspended
  have runV := KernelThreads.Run.step (.step runU (by exact trivial) enters') (by exact trivial) resumes
  obtain ⟨c,r',v,works,returns,_⟩ := done_returns (p := trioProgram frames) (run_inv boot rfl runV).1 inside
  have returned := KernelThreads.Run.step (.step runV (by exact trivial) works) (by exact trivial) returns
  exact ⟨frames,_,v,e,r',boot,returned,kind,⟨r,by simp⟩,(context_switch_transparent boot rfl returned).1⟩

/-- `hello` reads the line "a" to where its own `eip` is saved. -/
theorem read_breaks_return : ∃ (frames : Frames) (history : List Event) (s : State) (i : Slot) (e : Entry) (r : Regs),
    kmain 3 pcSetup = some (pcKernel frames,pcFs) ∧
    KernelThreads.Run (pcProgram frames) (Created pcSetup (pcProgram frames)) (pcBooted frames)
      (history ++ [.returned i e r]) s ∧
    lastEntry i history = some ⟨.syscall,e.regs,SYS_READ⟩ ∧ e.regs.eip = 0x11#32 ∧ e.regs.ebx = 0x1FEC#32 ∧
    r.eip = 0x61#32 := by
  obtain ⟨frames,events,s,i,boot,run,user,running,stack,line,typed⟩ := hello_launched
  have bootUsed := kmain_image boot bootDir_shares
  have inv := (run_inv boot rfl run).1
  have asks := KernelThreads.Step.userCode (p := pcProgram frames) s
    { s.cpu.regs with eax := SYS_READ, ebx := 0x1FEC#32, ecx := 1#32, eip := 0x11#32 } s.cpu.mem user
    (user_stack inv user running.current).2.2.1 (fun a ne => absurd rfl ne)
  have asked := (step_inv bootUsed rfl inv (by exact trivial) asks).1
  obtain ⟨history,s',r,returned,last,eip⟩ := read_hijacks bootUsed rfl
    (.step (run_mono (fun _ _ => admits_created) run) (by exact trivial) asks) asked user running.current line typed rfl
    (by change 0x1FEC#32 = slot (s.stack i) 1019; rw [stack]; rfl) rfl
  have joined : (0x11#32 : Word).extractLsb' 8 24 ++ 0x61#8 = 0x61#32 := by decide
  exact ⟨frames,history,s',i,_,r,boot,returned,last,rfl,rfl,eip.trans joined⟩

end SoKernel.Transparency
