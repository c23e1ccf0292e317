import SoKernel.Footprint

/-!
What a step is to a process that does not take it. The process stays alive, and what is
on its kernel stack stays as it is, unless it is the one that is switched to: then it
starts, or it goes on where it was suspended.
-/
namespace SoKernel.Bystanders
open SoKernel.Words SoKernel.Pages SoKernel.Pfa SoKernel.Stack SoKernel.Process SoKernel.Worlds SoKernel.Kmain
  SoKernel.Syscalls SoKernel.Processor SoKernel.StackFrames SoKernel.KernelThreads SoKernel.KernelStacks
  SoKernel.ContextSwitch SoKernel.Footprint
set_option linter.unusedSimpArgs false

/-- What is on the stack of a process before and after a step that it does not take. -/
inductive Rests (i : Slot) (event : Event) : Thread → Thread → Prop
  | same (t : Thread) : Rests i event t t
  | starts (r : Regs) (shown : event = .started i r) : Rests i event .fresh .idle
  | resumes (e : Entry) (point : Point) (call : Cpu) : Rests i event (.suspended e point call) (.inside e point)

/-- A process that does not take the step. -/
structure Rested (s : State) (event : Event) (s' : State) (i : Slot) : Prop where
  alive : (s'.cpu.kernel.procs i).state ≠ .dead
  thread : Rests i event (s.thread i) (s'.thread i)

/-- The step is one of the process itself. -/
def Steps (s : State) (i : Slot) : Prop := (s.mode = .user ∧ s.cpu.kernel.current = some i) ∨ ∃ e point, s.In i e point

section
variable {b : Setup} {start : Frames} {l : Linked} {p : Program} {s s' : State} {event : Event} {i j : Slot} {e : Entry}
  {point : Point}

/-- Nothing but memory has changed in the kernel. -/
theorem rested_mem (alive : (s.cpu.kernel.procs i).state ≠ .dead) {m : Memory} (kernel : s'.cpu.kernel = s.cpu.kernel.setMem m)
    (thread : s'.thread i = s.thread i) : Rested s event s' i := by
  refine ⟨?_,by rw [thread]; exact .same _⟩
  rw [kernel]
  exact alive

theorem rested_same (alive : (s.cpu.kernel.procs i).state ≠ .dead) (kernel : s'.cpu.kernel = s.cpu.kernel)
    (thread : s'.thread i = s.thread i) : Rested s event s' i := rested_mem (m := s.cpu.mem) alive kernel thread

theorem lands_rests {c : Cpu} (lands : Lands l s j c event s') : Rests i event (s.thread i) (s'.thread i) := by
  cases lands with
  | starts fresh here =>
    by_cases same : i = j
    · subst same
      rw [fresh,show ({ s.setThread i .idle with cpu := _, mode := .user } : State).thread i = .idle from
        Function.update_self ..]
      exact .starts _ rfl
    · exact Eq.mpr (congrArg _ (Function.update_of_ne same ..)) (.same _)
  | continues e point call suspended here goesOn =>
    by_cases same : i = j
    · subst same
      rw [suspended,show ({ s.setThread i (.inside e point) with cpu := c, mode := .kernel } : State).thread i =
        .inside e point from Function.update_self ..]
      exact .resumes e point call
    · exact Eq.mpr (congrArg _ (Function.update_of_ne same ..)) (.same _)
  | lost notNew notOld => exact .same _

/-- Another process calls `schedule`. -/
theorem switches_rested (other : i ≠ j) (aligned : PageAligned (s.stack j)) (current : s.cpu.kernel.current = some j)
    (alive : (s.cpu.kernel.procs i).state ≠ .dead) (switched : KernelThreads.Switches l s j e point event s') :
    Rested s event s' i := by
  obtain ⟨next,found,n,room,esp,event,s',lands⟩ := switched
  have top := bottom_le e
  obtain ⟨m,d,executed,kernel,_⟩ := switch_machine l aligned current found (by omega) esp
  obtain ⟨_,_,_,_,_,procs⟩ := schedule_some (slot (s.stack j) n)
    (show (s.cpu.kernel.setMem m).current = some j from current) found
  refine ⟨?_,?_⟩
  · rw [lands_kernel lands,executed,restore_kernel,kernel,procs i]
    by_cases isNext : i = next
    · simp [isNext]
    · simpa [isNext,other,Kernel.setMem] using alive
  · have rests := lands_rests (i := i) lands
    rwa [show (s.setThread j _).thread i = s.thread i from Function.update_of_ne other ..] at rests

theorem schedules_rested (inv : Inv l b start s) (inside : s.In j e point) {point' : Point} (other : i ≠ j)
    (alive : (s.cpu.kernel.procs i).state ≠ .dead) (schedules : Schedules l s j e point' event s') :
    Rested s event s' i := by
  cases schedules with
  | stays alone => exact rested_same alive rfl (Function.update_of_ne other ..)
  | switches _ _ switched =>
    obtain ⟨book,inside⟩ := inside_of inv inside
    exact switches_rested other (inside_aligned inside) inside.running.current alive switched

/-- Another process makes a system call that returns at once. -/
theorem finish_rested (other : i ≠ j) (alive : (s.cpu.kernel.procs i).state ≠ .dead) {arguments : SyscallRegs}
    (noSpawn : arguments.eax ≠ SYS_SPAWN) : Rested s event (s.finish j e (s.outcome p arguments)) i := by
  obtain ⟨t,_,kernel,_⟩ := syscall_puts s.access p.linked.process_start_trampoline ⟨s.cpu.kernel,p.rootfs,s.line,s.fb⟩ noSpawn
  refine ⟨?_,?_⟩
  · change ((s.outcome p arguments).env.kernel.procs i).state ≠ .dead
    rw [State.outcome,kernel]
    exact alive
  · rw [show (s.finish j e (s.outcome p arguments)).thread i = s.thread i from Function.update_of_ne other ..]
    exact .same _

theorem create_alive (alive : (s.cpu.kernel.procs i).state ≠ .dead) (name : List Byte) :
    ((s.create p name).kernel.procs i).state ≠ .dead ∧ withNew s.thread (s.create p name).slot i = s.thread i := by
  rcases table_slots (process_create_table s.access p.linked.process_start_trampoline p.rootfs name s.cpu.kernel) i with
    ⟨notNew,same⟩ | ⟨_,dead,_⟩
  · refine ⟨?_,withNew_of_ne notNew⟩
    change ((process_create s.access p.linked.process_start_trampoline p.rootfs name s.cpu.kernel).kernel.procs i).state ≠ .dead
    rw [same]
    exact alive
  · exact absurd dead alive

/-- The other processes that are alive. -/
theorem step_rested (bootUsed : is_used start (pageOf b.page_directory) = true) (within : ∀ f, p.data f → KernelData b start f)
    (inv : Inv p.linked b start s) (alive : (s.cpu.kernel.procs i).state ≠ .dead) (step : KernelThreads.Step p s event s') :
    Rested s event s' i ∨ Steps s i := by
  -- A step of C code for a process is one of that process.
  have otherwise {j : Slot} {e : Entry} {point : Point} (inside : s.In j e point) (rested : i ≠ j → Rested s event s' i) :
      Rested s event s' i ∨ Steps s i := by
    by_cases same : i = j
    · subst same
      exact .inr (.inr ⟨e,point,inside⟩)
    · exact .inl (rested same)
  cases step with
  | bootWork c boot boots => exact .inl (rested_mem alive boots.kernel rfl)
  | bootKey scan_code boot => exact .inl (rested_same alive (congrArg Cpu.kernel (device_cpu ..)) (by rw [device_thread]))
  | bootCreate name boot =>
    obtain ⟨alive',same⟩ := create_alive (p := p) alive name
    exact .inl ⟨alive',by rw [show (s.afterCreate (s.create p name)).thread i = s.thread i from same]; exact .same _⟩
  | nothingToRun boot none => exact .inl (rested_same alive rfl rfl)
  | start k j after boot started first aligned stack =>
    obtain ⟨m,loads,_⟩ := jump_loads p.linked (c := { s.cpu with kernel := { k with cr3 := s.cpu.kernel.cr3 } }) aligned
      (k.procs j).page_dir_phys (k.procs j).esp after
    refine .inl ⟨?_,.same _⟩
    rw [loads]
    change (k.procs i).state ≠ .dead
    obtain ⟨f,_,rfl⟩ := Option.map_eq_some_iff.mp started
    by_cases isFirst : i = f
    · simp [isFirst,Kernel.setProc]
    · simpa [isFirst,Kernel.setProc] using alive
  | launch j _ _ launching current lands =>
    refine .inl ⟨?_,lands_rests lands⟩
    rw [lands_kernel lands,restore_kernel]
    exact alive
  | nested j n error_code scan_code m w c interruptible room esp works returns left goesOn =>
    have kernel := (nested_left inv bootUsed interruptible room esp (works_mono within works) returns left).1
    exact .inl (rested_mem alive ((congrArg Cpu.kernel (device_cpu ..)).trans kernel) (by rw [device_thread]))
  | nestedLost j n error_code m w interruptible room esp works returns lost =>
    obtain ⟨c,_,left,goesOn,_⟩ := nested_returns inv bootUsed interruptible room esp n error_code
      (works_mono within works) returns
    exact absurd ⟨c,left,goesOn⟩ lost
  | userCode r m user ring3 mem => exact .inl (rested_mem alive rfl rfl)
  | interrupt j n error_code user current =>
    by_cases same : i = j
    · exact .inr (.inl ⟨user,by rw [same]; exact current⟩)
    · obtain ⟨_,_,ring3,aligned,esp0⟩ := user_stack inv user current
      exact .inl (rested_mem alive (interrupt_enters p.linked aligned ring3 esp0 n error_code).kernel
        (Function.update_of_ne same ..))
  | syscall j user current =>
    by_cases same : i = j
    · exact .inr (.inl ⟨user,by rw [same]; exact current⟩)
    · obtain ⟨_,_,ring3,aligned,esp0⟩ := user_stack inv user current
      exact .inl (rested_mem alive (syscall_enters p.linked aligned ring3 esp0).kernel (Function.update_of_ne same ..))
  | work j e point c inside works => exact .inl (rested_mem alive works.kernel rfl)
  | handled j e n error_code scan_code inside kind noTick =>
    refine otherwise inside (fun other => rested_same alive (congrArg Cpu.kernel (device_cpu ..)) ?_)
    rw [device_thread]
    exact Function.update_of_ne other ..
  | tick j e n error_code inside kind timer _ _ schedules =>
    exact otherwise inside (fun other => schedules_rested inv inside other alive schedules)
  | sysExit j e inside kind call _ _ switched =>
    refine otherwise inside (fun other => ?_)
    obtain ⟨book,inside⟩ := inside_of inv inside
    have rested := switches_rested (s := s.exit j) other
      (by simpa [State.exit,State.setKernel,State.stack,Kernel.setProc] using inside_aligned inside) inside.running.current
      (by simpa [State.exit,State.setKernel,Kernel.setProc,other] using alive) switched
    exact ⟨rested.alive,rested.thread⟩
  | sysExitLast j e inside kind call alone =>
    refine otherwise inside (fun other => ⟨?_,.same _⟩)
    simpa [State.exit,State.setKernel,Kernel.setProc,other] using alive
  | sysYield j e inside kind call _ _ schedules =>
    exact otherwise inside (fun other => schedules_rested inv inside other alive schedules)
  | sysSpawn j e name inside kind call named =>
    refine otherwise inside (fun other => ?_)
    obtain ⟨alive',same⟩ := create_alive (p := p) alive name
    refine ⟨alive',?_⟩
    change Rests i _ _ (Function.update (withNew s.thread (s.create p name).slot) j _ i)
    rw [Function.update_of_ne other,same]
    exact .same _
  | sysRead j e inside kind call => exact otherwise inside (fun other => rested_same alive rfl (Function.update_of_ne other ..))
  | sysWait j e inside kind call => exact otherwise inside (fun other => rested_same alive rfl (Function.update_of_ne other ..))
  | sysAtOnce j e inside kind call =>
    refine otherwise inside (fun other => finish_rested other alive (fun isSpawn => call ?_))
    rw [isSpawn]
    decide
  | testReady j e call inside kind isReady o outcome =>
    subst outcome
    refine otherwise inside (fun other => finish_rested other alive ?_)
    cases call with
    | read => exact show SYS_READ ≠ SYS_SPAWN by decide
    | wait pid => exact show SYS_WAIT ≠ SYS_SPAWN by decide
  | testNotReady j e call inside notReady _ _ schedules =>
    exact otherwise inside (fun other => schedules_rested inv inside other alive schedules)
  | scheduledReady j e call inside isReady =>
    exact otherwise inside (fun other => rested_same alive rfl (Function.update_of_ne other ..))
  | scheduledNotReady j e call inside notReady =>
    exact otherwise inside (fun other => rested_same alive rfl (Function.update_of_ne other ..))
  | wake j e call inside => exact otherwise inside (fun other => rested_same alive rfl (Function.update_of_ne other ..))
  | returns j e c inside esp left =>
    refine otherwise inside (fun other => ?_)
    obtain ⟨book,inside⟩ := inside_of inv inside
    rw [inside_leaves inside esp] at left
    cases left
    exact rested_same alive rfl (Function.update_of_ne other ..)
  | returnLost j e inside esp lost => exact .inl (rested_same alive rfl rfl)

/-- A system call stores in the process that has made it. -/
theorem stored_inside {addresses : List Word} (step : KernelThreads.Step p s (.stored addresses) s') :
    ∃ j e point, s.In j e point := by
  have shows : ¬ (Event.stored addresses = .silent ∨ ∃ j r, Event.stored addresses = .started j r) := by simp
  cases step with
  | launch j _ _ launching current lands => exact absurd (lands_event lands) shows
  | tick j e n error_code inside kind timer _ _ schedules => exact absurd (schedules_event schedules) shows
  | sysExit j e inside kind call _ _ switched => exact absurd (switches_event switched) shows
  | sysYield j e inside kind call _ _ schedules => exact absurd (schedules_event schedules) shows
  | sysAtOnce j e inside kind call => exact ⟨j,e,_,inside⟩
  | testReady j e call inside kind isReady o outcome => exact ⟨j,e,_,inside⟩
  | testNotReady j e call inside notReady _ _ schedules => exact absurd (schedules_event schedules) shows

/-! ### The caller of `schedule` -/

/-- The process is at a point of the kernel's code, whether it has the processor or not. -/
def At (s : State) (i : Slot) (e : Entry) (point : Point) : Prop :=
  s.thread i = .inside e point ∨ ∃ call, s.thread i = .suspended e point call

theorem rests_at (rests : Rests i event (s.thread i) (s'.thread i)) (before : At s i e point) : At s' i e point := by
  rcases before with inside | ⟨call,suspended⟩
  · rw [inside] at rests
    generalize after : s'.thread i = t at rests
    cases rests
    exact .inl after
  · rw [suspended] at rests
    generalize after : s'.thread i = t at rests
    cases rests with
    | same => exact .inr ⟨call,after⟩
    | resumes => exact .inl after

theorem switches_self (aligned : PageAligned (s.stack j)) (running : Running s.cpu.kernel j)
    (switched : KernelThreads.Switches l s j e point event s') :
    (s'.cpu.kernel.procs j).state ≠ .dead ∧ At s' j e point := by
  obtain ⟨next,found,n,room,esp,event,s',lands⟩ := switched
  have top := bottom_le e
  obtain ⟨m,d,executed,kernel,_⟩ := switch_machine l aligned running.current found (by omega) esp
  obtain ⟨_,_,_,_,_,procs⟩ := schedule_some (slot (s.stack j) n)
    (show (s.cpu.kernel.setMem m).current = some j from running.current) found
  refine ⟨?_,rests_at (lands_rests lands) (.inr ⟨_,Function.update_self ..⟩)⟩
  rw [lands_kernel lands,executed,restore_kernel,kernel,procs j]
  by_cases isNext : j = next
  · simp [isNext]
  · simp [isNext,Kernel.setMem,running.running]

/-- `schedule` returns to where it was called, now or later. -/
theorem schedules_self (inv : Inv l b start s) (inside : s.In j e point) {point' : Point}
    (schedules : Schedules l s j e point' event s') : (s'.cpu.kernel.procs j).state ≠ .dead ∧ At s' j e point' := by
  obtain ⟨book,inside⟩ := inside_of inv inside
  cases schedules with
  | stays alone => exact ⟨running_alive inside.running,.inl (Function.update_self ..)⟩
  | switches _ _ switched => exact switches_self (inside_aligned inside) inside.running switched

/-! ### Dead slots -/

theorem switches_dead (aligned : PageAligned (s.stack j)) (current : s.cpu.kernel.current = some j)
    (dead : (s.cpu.kernel.procs i).state = .dead) (switched : KernelThreads.Switches l s j e point event s') :
    (s'.cpu.kernel.procs i).state = .dead := by
  obtain ⟨next,found,n,room,esp,event,s',lands⟩ := switched
  have top := bottom_le e
  obtain ⟨m,d,executed,kernel,_⟩ := switch_machine l aligned current found (by omega) esp
  obtain ⟨_,_,_,_,_,procs⟩ := schedule_some (slot (s.stack j) n)
    (show (s.cpu.kernel.setMem m).current = some j from current) found
  have ready := next_ready_some found
  have notNext : i ≠ next := by
    rintro rfl
    rw [ready] at dead
    cases dead
  rw [lands_kernel lands,executed,restore_kernel,kernel,procs i]
  by_cases isOld : i = j
  · subst isOld
    simp [notNext,Kernel.setMem,dead]
  · simpa [notNext,isOld,Kernel.setMem] using dead

theorem schedules_dead (inv : Inv l b start s) (inside : s.In j e point) {point' : Point}
    (dead : (s.cpu.kernel.procs i).state = .dead) (schedules : Schedules l s j e point' event s') :
    (s'.cpu.kernel.procs i).state = .dead := by
  cases schedules with
  | stays alone => exact dead
  | switches _ _ switched =>
    obtain ⟨book,inside⟩ := inside_of inv inside
    exact switches_dead (inside_aligned inside) inside.running.current dead switched

theorem finish_dead (dead : (s.cpu.kernel.procs i).state = .dead) {arguments : SyscallRegs}
    (noSpawn : arguments.eax ≠ SYS_SPAWN) : ((s.finish j e (s.outcome p arguments)).cpu.kernel.procs i).state = .dead := by
  obtain ⟨t,_,kernel,_⟩ := syscall_puts s.access p.linked.process_start_trampoline ⟨s.cpu.kernel,p.rootfs,s.line,s.fb⟩ noSpawn
  change ((s.outcome p arguments).env.kernel.procs i).state = .dead
  rw [State.outcome,kernel]
  exact dead

/-- After `process_create` a dead slot is dead, or it has a new process. -/
theorem create_dead (dead : (s.cpu.kernel.procs i).state = .dead) (name : List Byte) :
    ((s.create p name).kernel.procs i).state = .dead ∨ withNew s.thread (s.create p name).slot i = .fresh := by
  rcases table_slots (process_create_table s.access p.linked.process_start_trampoline p.rootfs name s.cpu.kernel) i with
    ⟨_,same⟩ | ⟨filled,_⟩
  · refine .inl ?_
    change ((process_create s.access p.linked.process_start_trampoline p.rootfs name s.cpu.kernel).kernel.procs i).state = .dead
    rw [same]
    exact dead
  · refine .inr ?_
    rw [show (s.create p name).slot = some i from filled]
    exact Function.update_self ..

/-- A slot stays dead until a process is created there. -/
theorem step_dead (bootUsed : is_used start (pageOf b.page_directory) = true) (within : ∀ f, p.data f → KernelData b start f)
    (inv : Inv p.linked b start s) (dead : (s.cpu.kernel.procs i).state = .dead) (step : KernelThreads.Step p s event s') :
    (s'.cpu.kernel.procs i).state = .dead ∨ s'.thread i = .fresh := by
  have worked {c : Cpu} {m : Memory} (kernel : c.kernel = s.cpu.kernel.setMem m) : (c.kernel.procs i).state = .dead := by
    rw [kernel]
    exact dead
  cases step with
  | bootWork c boot boots => exact .inl (worked boots.kernel)
  | bootKey scan_code boot => exact .inl (by rw [device_cpu]; exact dead)
  | bootCreate name boot => exact create_dead dead name
  | start k j after boot started first aligned stack =>
    obtain ⟨m,loads,_⟩ := jump_loads p.linked (c := { s.cpu with kernel := { k with cr3 := s.cpu.kernel.cr3 } }) aligned
      (k.procs j).page_dir_phys (k.procs j).esp after
    refine .inl ?_
    rw [loads]
    change (k.procs i).state = .dead
    obtain ⟨f,found,rfl⟩ := Option.map_eq_some_iff.mp started
    have ready : (s.cpu.kernel.procs f).state = .ready := by simpa using List.find?_some found
    have other : i ≠ f := by
      rintro rfl
      rw [ready] at dead
      cases dead
    simpa [other,Kernel.setProc] using dead
  | launch j _ _ launching current lands => exact .inl (by rw [lands_kernel lands,restore_kernel]; exact dead)
  | nested j n error_code scan_code m w c interruptible room esp works returns left goesOn =>
    have kernel := (nested_left inv bootUsed interruptible room esp (works_mono within works) returns left).1
    exact .inl (by rw [device_cpu]; exact worked kernel)
  | nestedLost j n error_code m w interruptible room esp works returns lost =>
    obtain ⟨c,_,left,goesOn,_⟩ := nested_returns inv bootUsed interruptible room esp n error_code
      (works_mono within works) returns
    exact absurd ⟨c,left,goesOn⟩ lost
  | interrupt j n error_code user current =>
    obtain ⟨_,_,ring3,aligned,esp0⟩ := user_stack inv user current
    exact .inl (worked (interrupt_enters p.linked aligned ring3 esp0 n error_code).kernel)
  | syscall j user current =>
    obtain ⟨_,_,ring3,aligned,esp0⟩ := user_stack inv user current
    exact .inl (worked (syscall_enters p.linked aligned ring3 esp0).kernel)
  | work j e point c inside works => exact .inl (worked works.kernel)
  | handled j e n error_code scan_code inside kind noTick => exact .inl (by rw [device_cpu]; exact dead)
  | tick j e n error_code inside kind timer _ _ schedules => exact .inl (schedules_dead inv inside dead schedules)
  | sysExit j e inside kind call _ _ switched =>
    obtain ⟨book,isInside⟩ := inside_of inv inside
    refine .inl (switches_dead (s := s.exit j) ?_ inside.2.1 ?_ switched)
    · simpa [State.exit,State.setKernel,State.stack,Kernel.setProc] using inside_aligned isInside
    · by_cases same : i = j
      · simp [State.exit,State.setKernel,Kernel.setProc,same]
      · simpa [State.exit,State.setKernel,Kernel.setProc,same] using dead
  | sysExitLast j e inside kind call alone =>
    refine .inl ?_
    by_cases same : i = j
    · simp [State.exit,State.setKernel,Kernel.setProc,same]
    · simpa [State.exit,State.setKernel,Kernel.setProc,same] using dead
  | sysYield j e inside kind call _ _ schedules => exact .inl (schedules_dead inv inside dead schedules)
  | sysSpawn j e name inside kind call named =>
    obtain ⟨book,isInside⟩ := inside_of inv inside
    have other : i ≠ j := by
      rintro rfl
      exact running_alive isInside.running dead
    refine (create_dead (p := p) dead name).imp id (fun fresh => ?_)
    change Function.update (withNew s.thread (s.create p name).slot) j _ i = .fresh
    rwa [Function.update_of_ne other]
  | sysAtOnce j e inside kind call =>
    refine .inl (finish_dead dead (fun isSpawn => call ?_))
    rw [isSpawn]
    decide
  | testReady j e call inside kind isReady o outcome =>
    subst outcome
    refine .inl (finish_dead dead ?_)
    cases call with
    | read => exact show SYS_READ ≠ SYS_SPAWN by decide
    | wait pid => exact show SYS_WAIT ≠ SYS_SPAWN by decide
  | testNotReady j e call inside notReady _ _ schedules => exact .inl (schedules_dead inv inside dead schedules)
  | returns j e c inside esp left =>
    obtain ⟨book,isInside⟩ := inside_of inv inside
    rw [inside_leaves isInside esp] at left
    cases left
    exact .inl dead
  | _ => exact .inl dead

end
end SoKernel.Bystanders
