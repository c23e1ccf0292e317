import SoKernel.Transparency

/-!
What a step of the machine can write to. Everything that is changed in memory belongs
to the kernel's own data, to the process that is running, or to frames that nobody had
before. Two things follow for every run. What a process sees of its memory stays as it
is while others run and while the kernel works for it. And the directory that is loaded
never changes, so that the processor may keep translations for as long as it likes:
the kernel has no need of `paging_invalidate`, which it never calls.
-/
namespace SoKernel.Footprint
open SoKernel.Words SoKernel.Pages SoKernel.Pfa SoKernel.Paging SoKernel.PageTables SoKernel.Stack SoKernel.Fs
  SoKernel.Process SoKernel.KernelAccess SoKernel.AddressSpace SoKernel.Worlds SoKernel.StackReach SoKernel.Kmain
  SoKernel.Syscalls SoKernel.Processor SoKernel.StackFrames SoKernel.KernelThreads SoKernel.KernelStacks
  SoKernel.ContextSwitch
set_option linter.unusedSimpArgs false

/-- The bytes that a step may change, where C code writes to the frames `data`. The user pages
    of the process that is running change when its code runs or when a system call stores
    through one of its pointers. -/
inductive Writes (data : Nat → Prop) (s : State) (event : Event) (a : Word) : Prop
  | data (own : data (pageOf a))
  | stack (i : Slot) (running : Running s.cpu.kernel i) (page : pageOf a = pageOf (s.stack i))
  | user (i : Slot) (running : Running s.cpu.kernel i) (reached : Reached s.cpu.kernel a)
      (how : (s.mode = .user ∧ event = .silent) ∨ ∃ addresses, event = .stored addresses)
  | fresh (free : is_used s.cpu.kernel.phys.frames (pageOf a) = false)

/-- What a step does to memory and to the directories of the processes. -/
structure Effect (data : Nat → Prop) (s : State) (event : Event) (s' : State) : Prop where
  writes : ∀ a, s'.cpu.mem a ≠ s.cpu.mem a → Writes data s event a
  dirs : ∀ i, (s.cpu.kernel.procs i).state ≠ .dead →
    (s'.cpu.kernel.procs i).page_dir_phys = (s.cpu.kernel.procs i).page_dir_phys

section
variable {b : Setup} {start : Frames} {data : Nat → Prop} {l : Linked} {s s' : State} {event : Event} {i : Slot} {e : Entry}
  {point : Point} {book : List (Creation × Ghost)}

/-- Nothing but memory has changed in the kernel. -/
theorem effect_mem {m : Memory} (kernel : s'.cpu.kernel = s.cpu.kernel.setMem m)
    (writes : ∀ a, m a ≠ s.cpu.mem a → Writes data s event a) : Effect data s event s' := by
  refine ⟨fun a changed => writes a ?_,fun i _ => ?_⟩
  · rw [Cpu.mem,kernel] at changed
    exact changed
  · rw [kernel]
    rfl

theorem effect_same (kernel : s'.cpu.kernel = s.cpu.kernel) : Effect data s event s' :=
  effect_mem (m := s.cpu.mem) kernel (fun _ changed => absurd rfl changed)

/-! ### Switching -/

/-- `schedule` writes to the stack of the process that calls it. -/
theorem switches_effect {t : State} {old : Slot} (aligned : PageAligned (s.stack old))
    (current : t.cpu.kernel.current = some old) (same : t.stack old = s.stack old) (mem : t.cpu.mem = s.cpu.mem)
    (dirs : ∀ i, (t.cpu.kernel.procs i).page_dir_phys = (s.cpu.kernel.procs i).page_dir_phys)
    (running : Running s.cpu.kernel old) (switched : KernelThreads.Switches l t old e point event s') :
    Effect data s event s' := by
  obtain ⟨next,found,j,room,esp,event,s',lands⟩ := switched
  have top := bottom_le e
  rw [same] at esp
  obtain ⟨m,d,executed,kernel,_,_,_,_,_,off⟩ := switch_machine l aligned current found (by omega) esp
  obtain ⟨phys,_,_,_,_,procs⟩ := schedule_some (slot (s.stack old) j)
    (show (t.cpu.kernel.setMem m).current = some old from current) found
  have moved : s'.cpu.kernel = schedule (t.cpu.kernel.setMem m) (slot (s.stack old) j) := by
    rw [lands_kernel lands,executed,restore_kernel,kernel]
  refine ⟨fun a changed => .stack old running ?_,fun i _ => ?_⟩
  · by_contra other
    refine changed ?_
    rw [Cpu.mem,moved,phys,← mem]
    exact off a (fun page => absurd page other)
  · rw [moved,procs i]
    exact dirs i

theorem schedules_effect (inside : Inside l b start s i e book) (schedules : Schedules l s i e point event s') :
    Effect data s event s' := by
  cases schedules with
  | stays alone => exact effect_same rfl
  | switches _ _ switched =>
    exact switches_effect (inside_aligned inside) inside.running.current rfl rfl (fun _ => rfl) inside.running switched

/-! ### System calls -/

/-- `regs->eax = v` goes to the stack of the process. -/
theorem result_effect {t : State} (inside : Inside l b start s i e book) {v : Word}
    (writes : ∀ a, t.cpu.mem a ≠ s.cpu.mem a → Writes data s event a)
    (dirs : ∀ j, (s.cpu.kernel.procs j).state ≠ .dead →
      (t.cpu.kernel.procs j).page_dir_phys = (s.cpu.kernel.procs j).page_dir_phys) :
    Effect data s event (t.result i e (slot (s.stack i) 1012) v) := by
  refine ⟨fun a changed => ?_,dirs⟩
  by_cases page : pageOf a = pageOf (s.stack i)
  · exact .stack i inside.running page
  · refine writes a (fun same => changed ?_)
    change write32 t.cpu.mem (slot (s.stack i) 1012+24#32) v a = s.cpu.mem a
    rw [slot_add_24,write_slot_off (inside_aligned inside) (by decide) page,same]

/-- A call that stores to bytes that user code of the caller reaches. -/
theorem finish_effect (bootUsed : is_used start (pageOf b.page_directory) = true) {p : Program}
    (inside : Inside p.linked b start s i e book) (kind : e.kind = .syscall) {arguments : SyscallRegs}
    (noSpawn : arguments.eax ≠ SYS_SPAWN) (polite : ∀ a ∈ (s.outcome p arguments).stored, UserByte s.cpu.kernel a) :
    Effect data s (.stored (s.outcome p arguments).stored) (s.finish i e (s.outcome p arguments)) := by
  obtain ⟨t,puts,kernel,stored⟩ := syscall_puts s.access p.linked.process_start_trampoline
    ⟨s.cpu.kernel,p.rootfs,s.line,s.fb⟩ noSpawn
  change (s.outcome p arguments).env.kernel = s.cpu.kernel.setMem t.mem at kernel
  change (s.outcome p arguments).stored = t.stored at stored
  have leads : ∀ m, (∀ a, ¬ Reached s.cpu.kernel a → m a = s.cpu.kernel.phys.mem a) → ∀ v, UserByte s.cpu.kernel v →
      Reached s.cpu.kernel (s.access m v) :=
    fun m same v user => pointers_lead inside.kept bootUsed inside.running same user
  have confined := puts_confined leads puts (fun v put => polite v (by rw [stored]; exact put))
  rw [State.finish,regs_pointer inside kind,kernel]
  refine result_effect inside (fun a changed => .user i inside.running ?_ (.inr ⟨_,rfl⟩)) (fun _ _ => rfl)
  by_contra outside
  exact changed (confined a outside)

/-- A call of `process_create` writes to frames that were free. -/
theorem create_writes {c : Creation} {k : Kernel} (image : Image c k) {a : Word} (changed : c.kernel.phys.mem a ≠ k.phys.mem a) :
    is_used k.phys.frames (pageOf a) = false := by
  by_contra used
  refine changed (image.off a (fun took => used took.1))

theorem create_dirs {c : Creation} {k : Kernel} (table : c.Table k) {j : Slot} (alive : (k.procs j).state ≠ .dead) :
    (c.kernel.procs j).page_dir_phys = (k.procs j).page_dir_phys := by
  rcases table_slots table j with ⟨_,same⟩ | ⟨_,dead,_⟩
  · rw [same]
  · exact absurd dead alive

theorem create_image {name : List Byte} {p : Program} (bootUsed : is_used start (pageOf b.page_directory) = true)
    (kept : Kept p.linked b start s.cpu.kernel s.log s.thread book)
    (fits : Fits b p.linked.process_start_trampoline p.rootfs ⟨s.cpu.kernel,s.log⟩ (.create name)) :
    Image (s.create p name) s.cpu.kernel := (create_steady kept.separate kept.steady bootUsed fits).1

/-! ### Interrupts of the kernel -/

theorem device_cpu (s : State) (int_no : Word) (scan_code : Byte) : (s.device int_no scan_code).cpu = s.cpu := by
  rw [State.device]
  split <;> rfl

/-- The handler works on the stack of the process and on the kernel's data. -/
theorem nested_writes (inv : Inv l b start s) (interruptible : s.Interruptible i) {j : Nat} (room : j+13 < 1024)
    (esp : s.cpu.regs.esp = slot (s.stack i) (j+13)) {n : Vector} {error_code : Word} {w : Cpu}
    (works : Works data (s.stack i) j (arrive l s.cpu n error_code) w) (a : Word) (changed : w.mem a ≠ s.cpu.mem a) :
    Writes data s event a := by
  obtain ⟨running,cs,_⟩ := interruptible_stack inv interruptible
  obtain ⟨⟨book,kept⟩,_⟩ := inv
  have kernelMode : ¬ Ring3 s.cpu.regs.cs := by
    rw [cs]
    decide
  have called := interrupt_nests l (stack_aligned kept (running_alive running)) kernelMode (by omega) esp n error_code
  by_cases arrived : w.mem a = (arrive l s.cpu n error_code).mem a
  · refine .stack i running ?_
    by_contra other
    exact changed (arrived.trans (called.off a (fun page => absurd page other)))
  · rcases works.mem a arrived with own | ⟨page,_⟩
    · exact .data own
    · exact .stack i running page

/-! ### All steps -/

theorem works_mono {wider : Nat → Prop} (within : ∀ f, data f → wider f) {p : Word} {top : Nat} {c c' : Cpu}
    (works : Works data p top c c') : Works wider p top c c' :=
  ⟨works.kernel,works.cs,works.esp,fun a changed => (works.mem a changed).imp_left (within _)⟩

/-- C code that writes to less is C code all the same. -/
theorem step_wider {p : Program} {wider : Nat → Prop} (within : ∀ f, p.data f → wider f)
    (step : KernelThreads.Step p s event s') : KernelThreads.Step { p with data := wider } s event s' := by
  cases step with
  | bootWork c boot boots =>
    exact .bootWork s c boot ⟨boots.kernel,boots.cs,fun a changed => within _ (boots.mem a changed)⟩
  | bootKey scan_code boot => exact .bootKey s scan_code boot
  | bootCreate name boot => exact .bootCreate s name boot
  | nothingToRun boot none => exact .nothingToRun s boot none
  | start k i after boot started first aligned stack =>
    exact .start s k i after boot started first aligned (fun a inStack => within _ (stack a inStack))
  | launch i _ _ launching current lands => exact .launch s i _ _ launching current lands
  | nested i n error_code scan_code j w c interruptible room esp works returns left goesOn =>
    exact .nested s i n error_code scan_code j w c interruptible room esp (works_mono within works) returns left goesOn
  | nestedLost i n error_code j w interruptible room esp works returns lost =>
    exact .nestedLost s i n error_code j w interruptible room esp (works_mono within works) returns lost
  | userCode r m user ring3 mem => exact .userCode s r m user ring3 mem
  | interrupt i n error_code user current => exact .interrupt s i n error_code user current
  | syscall i user current => exact .syscall s i user current
  | work i e point c inside works => exact .work s i e point c inside (works_mono within works)
  | handled i e n error_code scan_code inside kind noTick => exact .handled s i e n error_code scan_code inside kind noTick
  | tick i e n error_code inside kind timer _ _ schedules => exact .tick s i e n error_code inside kind timer _ _ schedules
  | sysExit i e inside kind call _ _ switched => exact .sysExit s i e inside kind call _ _ switched
  | sysExitLast i e inside kind call alone => exact .sysExitLast s i e inside kind call alone
  | sysYield i e inside kind call _ _ schedules => exact .sysYield s i e inside kind call _ _ schedules
  | sysSpawn i e name inside kind call named =>
    exact .sysSpawn (p := { p with data := wider }) s i e name inside kind call named
  | sysRead i e inside kind call => exact .sysRead s i e inside kind call
  | sysWait i e inside kind call => exact .sysWait s i e inside kind call
  | sysAtOnce i e inside kind call => exact .sysAtOnce (p := { p with data := wider }) s i e inside kind call
  | testReady i e call inside kind isReady o outcome => exact .testReady s i e call inside kind isReady o outcome
  | testNotReady i e call inside notReady _ _ schedules => exact .testNotReady s i e call inside notReady _ _ schedules
  | scheduledReady i e call inside isReady => exact .scheduledReady s i e call inside isReady
  | scheduledNotReady i e call inside notReady => exact .scheduledNotReady s i e call inside notReady
  | wake i e call inside => exact .wake s i e call inside
  | returns i e c inside esp left => exact .returns s i e c inside esp left
  | returnLost i e inside esp lost => exact .returnLost s i e inside esp lost

theorem admits_wider {p : Program} (wider : Nat → Prop) (admits : Admits b p s event) :
    Admits b { p with data := wider } s event := by
  cases event with
  | created name => exact admits
  | stored addresses => exact admits
  | _ => trivial

theorem step_keeps (bootUsed : is_used start (pageOf b.page_directory) = true) {p : Program}
    (within : ∀ f, p.data f → KernelData b start f) (inv : Inv p.linked b start s) (admits : Admits b p s event)
    (step : KernelThreads.Step p s event s') : Inv p.linked b start s' ∧ Exact event :=
  step_inv (p := { p with data := KernelData b start }) bootUsed rfl inv (admits_wider _ admits) (step_wider within step)

theorem step_effect (bootUsed : is_used start (pageOf b.page_directory) = true) {p : Program}
    (within : ∀ f, p.data f → KernelData b start f) (inv : Inv p.linked b start s) (admits : Admits b p s event)
    (step : KernelThreads.Step p s event s') : Effect p.data s event s' := by
  cases step with
  | bootWork c boot boots => exact effect_mem boots.kernel (fun a changed => .data (boots.mem a changed))
  | bootKey scan_code boot => exact effect_same (congrArg Cpu.kernel (device_cpu _ _ _))
  | bootCreate name boot =>
    obtain ⟨⟨book,kept⟩,_⟩ := inv
    have image := create_image bootUsed kept admits
    exact ⟨fun a changed => .fresh (create_writes image changed),fun i alive => create_dirs (process_create_table ..) alive⟩
  | nothingToRun boot none => exact effect_same rfl
  | start k i after boot started first aligned stack =>
    obtain ⟨m,loads,off⟩ := jump_loads p.linked (c := { s.cpu with kernel := { k with cr3 := s.cpu.kernel.cr3 } }) aligned
      (k.procs i).page_dir_phys (k.procs i).esp after
    have switches := start_switches started
    have dirs : ∀ j, (k.procs j).page_dir_phys = (s.cpu.kernel.procs j).page_dir_phys := by
      obtain ⟨f,_,rfl⟩ := Option.map_eq_some_iff.mp started
      intro j
      by_cases same : j = f
      · simp [same,Kernel.setProc]
      · simp [same,Kernel.setProc]
    rw [loads]
    refine ⟨fun a changed => .data (stack a ?_),fun j _ => dirs j⟩
    by_contra outside
    refine changed ?_
    change m a = s.cpu.kernel.phys.mem a
    rw [off a outside,Cpu.mem,switches.phys]
  | launch i _ _ launching current lands => exact effect_same (by rw [lands_kernel lands,restore_kernel])
  | nested i n error_code scan_code j w c interruptible room esp works returns left goesOn =>
    have kernel := (nested_left inv bootUsed interruptible room esp (works_mono within works) returns left).1
    refine effect_mem (m := w.mem) ((congrArg Cpu.kernel (device_cpu _ _ _)).trans kernel) ?_
    exact nested_writes inv interruptible room esp works
  | nestedLost i n error_code j w interruptible room esp works returns lost =>
    obtain ⟨c,_,left,goesOn,_⟩ := nested_returns inv bootUsed interruptible room esp n error_code
      (works_mono within works) returns
    exact absurd ⟨c,left,goesOn⟩ lost
  | userCode r m user ring3 mem =>
    obtain ⟨_,positioned⟩ := inv
    simp only [Positioned,user] at positioned
    obtain ⟨i,running,_⟩ := positioned
    refine effect_mem rfl (fun a changed => .user i running ?_ (.inl ⟨user,rfl⟩))
    obtain ⟨virt,t,found,isUser,phys⟩ := mem a changed
    exact ⟨virt,t,found,isUser,by rw [phys]⟩
  | interrupt i n error_code user current =>
    obtain ⟨running,_,ring3,aligned,esp0⟩ := user_stack inv user current
    have called := interrupt_enters p.linked aligned ring3 esp0 n error_code
    refine effect_mem called.kernel (fun a changed => .stack i running ?_)
    by_contra other
    exact changed (called.off a (fun page => absurd page other))
  | syscall i user current =>
    obtain ⟨running,_,ring3,aligned,esp0⟩ := user_stack inv user current
    have called := syscall_enters p.linked aligned ring3 esp0
    refine effect_mem called.kernel (fun a changed => .stack i running ?_)
    by_contra other
    exact changed (called.off a (fun page => absurd page other))
  | work i e point c inside works =>
    obtain ⟨book,inside⟩ := inside_of inv inside
    refine effect_mem works.kernel (fun a changed => ?_)
    rcases works.mem a changed with own | ⟨page,_⟩
    · exact .data own
    · exact .stack i inside.running page
  | handled i e n error_code scan_code inside kind noTick => exact effect_same (congrArg Cpu.kernel (device_cpu _ _ _))
  | tick i e n error_code inside kind timer _ _ schedules =>
    obtain ⟨book,inside⟩ := inside_of inv inside
    exact schedules_effect inside schedules
  | sysExit i e inside kind call _ _ switched =>
    obtain ⟨book,inside⟩ := inside_of inv inside
    refine switches_effect (t := s.exit i) (inside_aligned inside) inside.running.current ?_ rfl ?_ inside.running switched
    · simp [State.exit,State.setKernel,State.stack,Kernel.setProc]
    · intro j
      by_cases same : j = i
      · simp [same,State.exit,State.setKernel,Kernel.setProc]
      · simp [same,State.exit,State.setKernel,Kernel.setProc]
  | sysExitLast i e inside kind call alone =>
    refine ⟨fun a changed => absurd rfl changed,fun j _ => ?_⟩
    by_cases same : j = i
    · simp [same,State.exit,State.setKernel,Kernel.setProc]
    · simp [same,State.exit,State.setKernel,Kernel.setProc]
  | sysYield i e inside kind call _ _ schedules =>
    obtain ⟨book,inside⟩ := inside_of inv inside
    exact schedules_effect inside schedules
  | sysSpawn i e name inside kind call named =>
    obtain ⟨book,inside⟩ := inside_of inv inside
    have image := create_image bootUsed inside.kept admits
    rw [regs_pointer inside kind]
    exact result_effect inside (fun a changed => .fresh (create_writes image changed))
      (fun j alive => create_dirs (process_create_table ..) alive)
  | sysRead i e inside kind call => exact effect_same rfl
  | sysWait i e inside kind call => exact effect_same rfl
  | sysAtOnce i e inside kind call =>
    obtain ⟨book,inside⟩ := inside_of inv inside
    refine finish_effect bootUsed inside kind (fun isSpawn => call ?_) admits
    rw [isSpawn]
    decide
  | testReady i e call inside kind isReady o outcome =>
    obtain ⟨book,inside⟩ := inside_of inv inside
    subst outcome
    refine finish_effect bootUsed inside kind ?_ admits
    change call.number ≠ SYS_SPAWN
    cases call with
    | read => decide
    | wait pid => exact show SYS_WAIT ≠ SYS_SPAWN by decide
  | testNotReady i e call inside notReady _ _ schedules =>
    obtain ⟨book,inside⟩ := inside_of inv inside
    exact schedules_effect inside schedules
  | scheduledReady i e call inside isReady => exact effect_same rfl
  | scheduledNotReady i e call inside notReady => exact effect_same rfl
  | wake i e call inside => exact effect_same rfl
  | returns i e c inside esp left =>
    obtain ⟨book,inside⟩ := inside_of inv inside
    rw [inside_leaves inside esp] at left
    cases left
    exact effect_same rfl
  | returnLost i e inside esp lost => exact effect_same rfl

end

/-! ### Directories and tables -/

section
variable {b : Setup} {start : Frames} {data : Nat → Prop} {l : Linked} {s s' : State} {event : Event} {j : Slot}
  {book : List (Creation × Ghost)} (within : ∀ f, data f → KernelData b start f)
include within

/-- No step writes to a directory or a table. -/
theorem writes_noTable (kept : Kept l b start s.cpu.kernel s.log s.thread book)
    (bootUsed : is_used start (pageOf b.page_directory) = true) {a : Word} (writes : Writes data s event a) :
    (∀ e ∈ book, e.1.user_dir ≠ 0#32 → ¬ Owns e.1.user_dir e.2.tables (pageOf a)) ∧ pageOf a ≠ pageOf b.page_directory := by
  cases writes with
  | data own =>
    have apart := loose_apart kept bootUsed (.inl (within _ own))
    exact ⟨apart.1,apart.2.1⟩
  | stack i running page =>
    obtain ⟨e,member,taken,noTable⟩ := stack_target kept.separate (running_alive running) page
    refine ⟨no_table kept.separate member taken noTable,fun inDir => ?_⟩
    have fresh := taken_fresh kept member taken
    rw [inDir,bootUsed] at fresh
    cases fresh
  | user i running reached =>
    have loose : Loose b start s.cpu.kernel s.thread a := reached_loose running reached
    have apart := loose_apart kept bootUsed loose
    exact ⟨apart.1,apart.2.1⟩
  | fresh free =>
    refine ⟨fun e member nonzero owns => ?_,fun inDir => ?_⟩
    · have used := (kept.separate.taken e member _ (((kept.separate.describes e member).dir nonzero).2.owned _ owns)).2
      change is_used s.cpu.kernel.phys.frames _ = true at used
      rw [free] at used
      cases used
    · have used := kept.separate.grows _ bootUsed
      change is_used s.cpu.kernel.phys.frames _ = true at used
      rw [← inDir,free] at used
      cases used

/-- So the directory that is loaded translates as before. -/
theorem effect_walk (kept : Kept l b start s.cpu.kernel s.log s.thread book)
    (bootUsed : is_used start (pageOf b.page_directory) = true) (effect : Effect data s event s') (virt : Word) :
    translate s'.cpu.mem s.cpu.kernel.cr3 virt = translate s.cpu.mem s.cpu.kernel.cr3 virt := by
  have same : ∀ a, (pageOf a = pageOf b.page_directory ∨
      ∃ e ∈ book, e.1.user_dir ≠ 0#32 ∧ Owns e.1.user_dir e.2.tables (pageOf a)) → s'.cpu.mem a = s.cpu.mem a := by
    intro a owned
    by_contra changed
    obtain ⟨noTable,notBoot⟩ := writes_noTable within kept bootUsed (effect.writes a changed)
    rcases owned with inDir | ⟨e,member,nonzero,owns⟩
    · exact notBoot inDir
    · exact noTable e member nonzero owns
  rcases kept.steady.loaded with boot | ⟨c,logged,nonzero,loaded⟩
  · change s.cpu.kernel.cr3 = _ at boot
    have rep := represents_congr kept.steady.bootDir (n := s'.cpu.mem) (fun a owns => same a (.inl (bootDir_owns owns)))
    rw [boot,translate_correct rep]
    exact (translate_correct kept.steady.bootDir virt).symm
  · change s.cpu.kernel.cr3 = _ at loaded
    obtain ⟨g,member⟩ := mem_book kept.separate logged
    obtain ⟨_,space⟩ := (kept.separate.describes _ member).dir nonzero
    have rep := represents_congr space.rep (n := s'.cpu.mem) (fun a owns => same a (.inr ⟨_,member,nonzero,owns⟩))
    rw [loaded,translate_correct rep]
    exact (translate_correct space.rep virt).symm

/-! ### The memory of a process -/

/-- What user code finds at an address under a directory. -/
def reading (m : Memory) (dir virt : Word) : Option Byte :=
  (translate m dir virt).bind (fun t => if t.user then some (m t.phys) else none)

/-- What user code of a process finds at an address. -/
def userView (s : State) (j : Slot) (virt : Word) : Option Byte :=
  reading s.cpu.mem (s.cpu.kernel.procs j).page_dir_phys virt

/-- The process is alive, and the step neither is one of its user code nor stores through
    one of its pointers. -/
def Untouched (j : Slot) (s : State) (event : Event) : Prop :=
  (s.cpu.kernel.procs j).state ≠ .dead ∧
    (s.cpu.kernel.current = some j → ¬ (s.mode = .user ∧ event = .silent) ∧ ∀ addresses, event ≠ .stored addresses)

/-- Such a step does not write to the user pages of the process. -/
theorem writes_elsewhere (kept : Kept l b start s.cpu.kernel s.log s.thread book) (untouched : Untouched j s event)
    {a : Word} (writes : Writes data s event a) {virt : Word} {t : Translation}
    (found : translate s.cpu.mem (s.cpu.kernel.procs j).page_dir_phys virt = some t) (user : t.user = true) : a ≠ t.phys := by
  rintro rfl
  obtain ⟨e,member,slot,dir,stack,space,nonzero⟩ := created_by kept untouched.1
  rw [dir] at found
  obtain ⟨u,isUser,page⟩ := user_page (kept.separate.describes e member) nonzero found user
  have taken : e.2.taken (pageOf t.phys) := by
    rw [page]
    exact space.userTaken u isUser
  cases writes with
  | data own =>
    have fresh := taken_fresh kept member taken
    rw [(within _ own).1] at fresh
    cases fresh
  | stack i running inStack =>
    obtain ⟨e',member',_,_,stack',space',_⟩ := created_by kept (running_alive running)
    have taken' : e'.2.taken (pageOf t.phys) := by
      rw [inStack,State.stack,stack']
      exact space'.stackTaken
    have same := taken_unique kept.separate member member' taken taken'
    subst same
    rw [State.stack,stack',page] at inStack
    exact (space.userApart u isUser).2 inStack
  | user i running reached how =>
    obtain ⟨virt',t',found',user',page'⟩ := reached
    obtain ⟨e',member',slot',dir',_,space',nonzero'⟩ := created_by kept (running_alive running)
    rw [running.cr3,dir'] at found'
    obtain ⟨u',isUser',frame'⟩ := user_page (kept.separate.describes e' member') nonzero' found' user'
    have taken' : e'.2.taken (pageOf t.phys) := by
      rw [page',frame']
      exact space'.userTaken u' isUser'
    have same := taken_unique kept.separate member member' taken taken'
    rw [← same,slot] at slot'
    have isJ : j = i := Option.some.inj slot'
    obtain ⟨noCode,noStore⟩ := untouched.2 (by rw [isJ]; exact running.current)
    rcases how with code | ⟨addresses,stored⟩
    · exact noCode code
    · exact noStore addresses stored
  | fresh free =>
    have used := (kept.separate.taken e member _ taken).2
    change is_used s.cpu.kernel.phys.frames _ = true at used
    rw [free] at used
    cases used

/-- So the process sees the same afterwards. -/
theorem effect_view (kept : Kept l b start s.cpu.kernel s.log s.thread book)
    (bootUsed : is_used start (pageOf b.page_directory) = true) (effect : Effect data s event s')
    (untouched : Untouched j s event) : userView s' j = userView s j := by
  obtain ⟨e,member,_,dir,_,space,nonzero⟩ := created_by kept untouched.1
  have rep : Represents s'.cpu.mem e.1.user_dir e.2.tables e.2.map := by
    refine represents_congr space.rep (fun a owns => ?_)
    by_contra changed
    exact (writes_noTable within kept bootUsed (effect.writes a changed)).1 e member nonzero owns
  funext virt
  have walk : translate s'.cpu.mem (s'.cpu.kernel.procs j).page_dir_phys virt =
      translate s.cpu.mem (s.cpu.kernel.procs j).page_dir_phys virt := by
    rw [effect.dirs j untouched.1,dir,translate_correct rep]
    exact (translate_correct space.rep virt).symm
  rw [userView,userView,reading,reading,walk]
  cases found : translate s.cpu.mem (s.cpu.kernel.procs j).page_dir_phys virt with
  | none => rfl
  | some t =>
    by_cases user : t.user = true
    · have same : s'.cpu.mem t.phys = s.cpu.mem t.phys := by
        by_contra changed
        exact writes_elsewhere within kept untouched (effect.writes _ changed) found user rfl
      simp only [Option.bind_some,user,if_true,same]
    · simp [user]

end

/-- Whatever others do meanwhile, and whatever the kernel does for the process. -/
theorem run_view {b : Setup} {start : Frames} (bootUsed : is_used start (pageOf b.page_directory) = true) {p : Program}
    (within : ∀ f, p.data f → KernelData b start f) {s s' : State} {events : List Event} {j : Slot}
    (inv : Inv p.linked b start s)
    (away : KernelThreads.Run p (fun t event => Admits b p t event ∧ Untouched j t event) s events s') :
    Inv p.linked b start s' ∧ userView s' j = userView s j := by
  induction away with
  | refl => exact ⟨inv,rfl⟩
  | step _ both step ih =>
    obtain ⟨invT,same⟩ := ih
    obtain ⟨book,kept⟩ := invT.kept
    have effect := step_effect bootUsed within invT both.1 step
    exact ⟨(step_keeps bootUsed within invT both.1 step).1,(effect_view within kept bootUsed effect both.2).trans same⟩

end SoKernel.Footprint
