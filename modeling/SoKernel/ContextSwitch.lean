import SoKernel.KernelStacks

/-!
What every step of the machine keeps: the processor is where its mode says, and what
the processes have on their kernel stacks is in order. So a process that is switched to
goes on where it was, and one that leaves the kernel finds its registers.
-/
namespace SoKernel.ContextSwitch
open SoKernel.Words SoKernel.Pages SoKernel.Pfa SoKernel.Paging SoKernel.PageTables SoKernel.Stack SoKernel.Fs
  SoKernel.Process SoKernel.KernelAccess SoKernel.AddressSpace SoKernel.Worlds SoKernel.StackReach SoKernel.Kmain
  SoKernel.Syscalls SoKernel.Processor SoKernel.StackFrames SoKernel.KernelThreads SoKernel.KernelStacks
set_option linter.unusedSimpArgs false

/-! ### Where the machine is -/

/-- The processor has been told about the current process. -/
structure Running (k : Kernel) (i : Slot) : Prop where
  current : k.current = some i
  running : (k.procs i).state = .running
  cr3 : k.cr3 = (k.procs i).page_dir_phys
  esp0 : k.esp0 = (k.procs i).kernel_stack_top

def Positioned (s : State) : Prop :=
  match s.mode with
  | .boot => s.cpu.regs.cs = KERNEL_CODE_SEGMENT
  | .launching => ∃ i, Running s.cpu.kernel i ∧ Parked (s.thread i) ∧ s.cpu.regs.esp = (s.cpu.kernel.procs i).esp ∧
      s.cpu.regs.cs = KERNEL_CODE_SEGMENT
  | .user => ∃ i, Running s.cpu.kernel i ∧ s.thread i = .idle ∧ Ring3 s.cpu.regs.cs
  | .kernel => ∃ i e point, Running s.cpu.kernel i ∧ s.thread i = .inside e point ∧
      s.cpu.regs.cs = KERNEL_CODE_SEGMENT ∧ ∃ j ≤ e.bottom, s.cpu.regs.esp = slot (s.stack i) j
  | .halted => True
  | .wild => False

structure Inv (l : Linked) (b : Setup) (start : Frames) (s : State) : Prop where
  kept : ∃ book, Kept l b start s.cpu.kernel s.log s.thread book
  positioned : Positioned s

/-- The process has come back with the registers it had, except that a system call may
    have left a result in `eax`. -/
structure Returns (e : Entry) (r : Regs) : Prop where
  eip : r.eip = e.regs.eip
  cs : r.cs = e.regs.cs
  eflags : r.eflags = e.regs.eflags
  esp : r.esp = e.regs.esp
  ss : r.ss = e.regs.ss
  ebx : r.ebx = e.regs.ebx
  ecx : r.ecx = e.regs.ecx
  edx : r.edx = e.regs.edx
  esi : r.esi = e.regs.esi
  edi : r.edi = e.regs.edi
  ebp : r.ebp = e.regs.ebp
  eax : r.eax = e.eax
  interrupt : e.kind ≠ .syscall → r.eax = e.regs.eax

/-- What a step into user mode should show. -/
def Exact : Event → Prop
  | .started _ r => Starts r
  | .returned _ e r => Returns e r
  | _ => True

section
variable {l : Linked} {b : Setup} {start : Frames} {s s' : State} {event : Event} {book : List (Creation × Ghost)}

theorem running_alive {k : Kernel} {i : Slot} (running : Running k i) : (k.procs i).state ≠ .dead := by
  rw [running.running]
  decide

theorem running_notReady {k : Kernel} {i : Slot} (running : Running k i) : (k.procs i).state ≠ .ready := by
  rw [running.running]
  decide

theorem running_setMem {k : Kernel} {i : Slot} (running : Running k i) (m : Memory) : Running (k.setMem m) i :=
  ⟨running.current,running.running,running.cr3,running.esp0⟩

theorem running_unique {k : Kernel} {i j : Slot} (running : Running k i) (current : k.current = some j) : i = j :=
  Option.some.inj (running.current.symm.trans current)

section
variable {c : Cpu} {i : Slot} (kept : Kept l b start c.kernel s.log s.thread book) (running : Running c.kernel i)
  (esp : c.regs.esp = (c.kernel.procs i).esp) (lands : Lands l s i (execs l c restore) event s')
include kept running esp lands

/-- A new process is switched to: the trampoline takes it to user mode. -/
theorem lands_fresh (thread : s.thread i = .fresh) : Inv l b start s' ∧ Exact event := by
  have holds := kept.holds i (running_alive running)
  rw [thread] at holds
  obtain ⟨pointer,stacked⟩ := holds
  rw [initial_stack_frame,stacked_append] at stacked
  have restored := switch_restores l (r := { c.regs with eflags := 2#32, edi := 0#32, esi := 0#32, ebx := 0#32, ebp := 0#32 })
    (esp.trans pointer) stacked.1
  obtain ⟨kernel,starts⟩ := trampoline_enters l (c := execs l c restore) (p := (c.kernel.procs i).kernel_stack)
    (by rw [restored]) (by rw [restored]; exact stacked.2)
  have sameKernel : (execs l (execs l c restore) process_start_trampoline_code).kernel = c.kernel := by
    rw [kernel,restored]
  cases lands with
  | starts fresh here =>
    refine ⟨⟨⟨book,?_⟩,i,?_,Function.update_self ..,?_⟩,starts⟩
    · change Kept l b start (execs l (execs l c restore) process_start_trampoline_code).kernel _ _ book
      rw [sameKernel]
      exact kept_thread kept (fun _ => trivial) (fun ready => absurd ready (running_notReady running))
    · change Running (execs l (execs l c restore) process_start_trampoline_code).kernel i
      rw [sameKernel]
      exact running
    · rw [starts.cs]
      decide
  | continues e point call suspended => rw [thread] at suspended; cases suspended
  | lost notNew => exact absurd ⟨thread,by rw [restored]⟩ notNew

/-- A process is switched to that has called `switch_context` itself: the call returns. -/
theorem lands_suspended (cs : c.regs.cs = KERNEL_CODE_SEGMENT) (stack : s.stack i = (c.kernel.procs i).kernel_stack)
    {e : Entry} {point : Point} {call : Cpu} (thread : s.thread i = .suspended e point call) :
    Inv l b start s' ∧ Exact event := by
  have alive := running_alive running
  have holds := kept.holds i alive
  rw [thread] at holds
  obtain ⟨j,suspended⟩ := holds
  have room := suspended.room
  have top := bottom_le e
  have restored := switch_restores l (esp.trans suspended.esp) suspended.saved
  have goesOn : Continues (s.stack i) call (execs l c restore) := by
    rw [restored]
    refine ⟨rfl,rfl,rfl,rfl,rfl,?_,?_⟩
    · rw [suspended.callEsp,slot_add_4]
    · intro a page above
      rw [stack] at page
      rw [suspended.callEsp] at above
      exact suspended.stack a page (le_wordOf (stack_aligned kept alive) (by omega) page (n := 1) above)
  cases lands with
  | starts fresh => rw [thread] at fresh; cases fresh
  | lost _ notOld => exact absurd ⟨e,point,call,thread,by rw [restored],goesOn⟩ notOld
  | continues e' point' call' suspended' =>
    rw [thread] at suspended'
    cases suspended'
    refine ⟨⟨⟨book,?_⟩,i,e,point,?_,Function.update_self ..,?_,j+6,room,?_⟩,trivial⟩
    · change Kept l b start (execs l c restore).kernel _ _ book
      rw [restored]
      exact kept_thread kept (fun _ => suspended.framed) (fun ready => absurd ready (running_notReady running))
    · change Running (execs l c restore).kernel i
      rw [restored]
      exact running
    · rw [restored]
      exact cs
    · change (execs l c restore).regs.esp = slot ((execs l c restore).kernel.procs i).kernel_stack (j+6)
      rw [restored]

/-- The process that is switched to goes on where it was. -/
theorem lands_inv (parked : Parked (s.thread i)) (cs : c.regs.cs = KERNEL_CODE_SEGMENT)
    (stack : s.stack i = (c.kernel.procs i).kernel_stack) : Inv l b start s' ∧ Exact event := by
  cases thread : s.thread i with
  | idle => rw [thread] at parked; cases parked
  | inside e point => rw [thread] at parked; cases parked
  | fresh => exact lands_fresh kept running esp lands thread
  | suspended e point call => exact lands_suspended kept running esp lands cs stack thread

end

end

/-! ### Switching -/

theorem dispatch_setMem (k : Kernel) (m : Memory) (old next : Slot) :
    dispatch (k.setMem m) old next = (dispatch k old next).setMem m := by
  by_cases running : (k.procs old).state = .running
  · simp only [dispatch,Kernel.setMem,running,if_true]
    rfl
  · simp only [dispatch,Kernel.setMem,running,if_false]
    rfl

theorem dispatch_esp (k : Kernel) (old next i : Slot) : ((dispatch k old next).procs i).esp = (k.procs i).esp := by
  have set : ∀ (k : Kernel) (j : Slot) (state : ProcState),
      ((k.setProc j { k.procs j with state := state }).procs i).esp = (k.procs i).esp := by
    intro k j state
    by_cases same : i = j
    · simp [same,Kernel.setProc]
    · simp [same,Kernel.setProc]
  simp only [dispatch]
  split
  · exact (set _ next .running).trans (set k old .ready)
  · exact set k next .running

/-- `schedule` on the machine: memory is as before except for nine words on top of the
    old stack, where all is saved that the caller needs. -/
theorem switch_machine (l : Linked) {c : Cpu} {p : Word} (aligned : PageAligned p) {old next : Slot}
    (current : c.kernel.current = some old) (found : next_ready c.kernel.procs old = some next) {j : Nat}
    (fits : j+9 ≤ 1024) (esp : c.regs.esp = slot p (j+9)) :
    ∃ m d, execs l (switching l c old next) switch_context_code = execs l d restore ∧
      d.kernel = schedule (c.kernel.setMem m) (slot p j) ∧ d.regs.esp = (c.kernel.procs next).esp ∧
      d.regs.cs = c.regs.cs ∧ (switching l c old next).regs.esp = slot p (j+5) ∧
      Stacked m p j (switch_frame (switching l c old next).regs ++ [l.switch_context_return]) ∧
      (∀ a, pageOf a = pageOf p → j+6 ≤ wordOf a → m a = (switching l c old next).mem a) ∧
      ∀ a, Apart p j (j+9) a → m a = c.mem a := by
  obtain ⟨callEsp,arguments,callOff⟩ := pushAll_slot (c := { c with kernel := dispatch c.kernel old next }) aligned
    [((dispatch c.kernel old next).procs next).page_dir_phys,((dispatch c.kernel old next).procs next).esp,l.esp_field old,
      l.switch_context_return] (j := j+5) (by simp; omega) esp
  obtain ⟨m,saves,saved,off⟩ := switch_saves l (c := switching l c old next) aligned fits callEsp arguments
  have mem : ∀ a, (({ c with kernel := dispatch c.kernel old next } : Cpu).mem) a = c.mem a := by
    intro a
    change (dispatch c.kernel old next).phys.mem a = c.kernel.phys.mem a
    simp only [dispatch]
    split <;> rfl
  refine ⟨m,_,by rw [switch_context_code,execs,List.foldl_append]; rfl,?_,?_,?_,callEsp,?_,?_,?_⟩
  · rw [← execs,saves]
    change switch_context (((dispatch c.kernel old next).setMem _).setMem m) old (slot p j) _ = _
    have scheduled : schedule (c.kernel.setMem m) (slot p j) = switch_context (dispatch (c.kernel.setMem m) old next) old
        (slot p j) ((dispatch (c.kernel.setMem m) old next).procs next).page_dir_phys := by
      have current' : (c.kernel.setMem m).current = some old := current
      have found' : next_ready (c.kernel.setMem m).procs old = some next := found
      simp only [schedule,current',found']
    rw [scheduled,dispatch_setMem]
    rfl
  · rw [← execs,saves]
    exact dispatch_esp c.kernel old next next
  · rw [← execs,saves]
    rfl
  · rw [stacked_append]
    refine ⟨saved,?_,trivial⟩
    have kept := stacked_congr (n := m) aligned (by simp; omega) (fun a page low _ => off a (fun _ => .inr low)) arguments
    exact kept.1
  · exact fun a page from_ => off a (fun _ => .inr (by omega))
  · intro a apart
    rw [off a (fun page => (apart page).imp_right (by omega)),← mem a]
    exact callOff a (fun page => (apart page).imp (by omega) (by simp))

section
variable {l : Linked} {b : Setup} {start : Frames} {s s' : State} {event : Event} {old : Slot} {e : Entry} {point : Point}

/-- A process calls `schedule`, and another one goes on. -/
theorem switches_inv (aligned : PageAligned (s.stack old)) (current : s.cpu.kernel.current = some old)
    (cs : s.cpu.regs.cs = KERNEL_CODE_SEGMENT) (notReady : (s.cpu.kernel.procs old).state ≠ .ready)
    (framed : (s.cpu.kernel.procs old).state ≠ .dead → Framed l s.cpu.mem (s.stack old) e)
    (kept : ∀ m, (∀ a, m a ≠ s.cpu.mem a → pageOf a = pageOf (s.stack old) ∧ wordOf a < e.bottom) →
      ∃ book, Kept l b start (s.cpu.kernel.setMem m) s.log s.thread book)
    (switched : KernelThreads.Switches l s old e point event s') : Inv l b start s' ∧ Exact event := by
  obtain ⟨next,found,j,room,esp,event,s',lands⟩ := switched
  have top := bottom_le e
  obtain ⟨m,d,executed,kernel,pointer,sameCs,callEsp,saved,stack,off⟩ :=
    switch_machine l aligned current found (by omega) esp
  have changed : ∀ a, m a ≠ s.cpu.mem a → pageOf a = pageOf (s.stack old) ∧ wordOf a < e.bottom := by
    intro a ne
    by_contra outside
    refine ne (off a (fun page => ?_))
    have := not_and.mp outside page
    omega
  have other : next ≠ old := fun same => notReady (same ▸ next_ready_some found)
  obtain ⟨book,keptM⟩ := kept m changed
  have parkedNext : Parked (s.thread next) := keptM.parked next (next_ready_some found)
  have scheduled : Kept l b start d.kernel s.log
      (Function.update s.thread old (.suspended e point (switching l s.cpu old next))) book := by
    rw [kernel]
    refine kept_schedule keptM current found trivial (fun alive => ⟨j,by omega,rfl,callEsp,?_,saved,stack⟩)
    refine framed_congr aligned (framed alive) (fun a page from_ => ?_)
    by_contra ne
    have := (changed a ne).2
    omega
  obtain ⟨_,_,currentNext,esp0,cr3,procs⟩ := schedule_some (slot (s.stack old) j)
    (show (s.cpu.kernel.setMem m).current = some old from current) found
  rw [← kernel] at currentNext esp0 cr3 procs
  have running : Running d.kernel next := by
    refine ⟨currentNext,?_,?_,?_⟩
    · rw [procs next]
      simp
    · rw [cr3,procs next]
    · rw [esp0,procs next]
  rw [executed] at lands
  refine lands_inv (s := s.setThread old _) scheduled running ?_ lands ?_ (sameCs.trans cs) ?_
  · rw [procs next,if_neg other]
    exact pointer
  · simpa only [State.setThread,Function.update_of_ne other] using parkedNext
  · rw [procs next]
    rfl

end

/-! ### In the kernel -/

/-- The machine executes C code for an entry of the process, whose frame is on the stack. -/
structure Inside (l : Linked) (b : Setup) (start : Frames) (s : State) (i : Slot) (e : Entry)
    (book : List (Creation × Ghost)) : Prop where
  kept : Kept l b start s.cpu.kernel s.log s.thread book
  mode : s.mode = .kernel
  running : Running s.cpu.kernel i
  thread : ∃ point, s.thread i = .inside e point
  cs : s.cpu.regs.cs = KERNEL_CODE_SEGMENT
  esp : ∃ j ≤ e.bottom, s.cpu.regs.esp = slot (s.stack i) j

section
variable {l : Linked} {b : Setup} {start : Frames} {s s' : State} {event : Event} {i : Slot} {e : Entry} {point : Point}
  {book : List (Creation × Ghost)}

theorem inside_of (inv : Inv l b start s) (inside : s.In i e point) : ∃ book, Inside l b start s i e book := by
  obtain ⟨⟨book,kept⟩,positioned⟩ := inv
  obtain ⟨mode,current,thread⟩ := inside
  simp only [Positioned,mode] at positioned
  obtain ⟨i',e',point',running,thread',cs,esp⟩ := positioned
  have same := running_unique running current
  subst same
  have entry : Thread.inside e' point' = .inside e point := thread'.symm.trans thread
  cases entry
  exact ⟨book,kept,mode,running,⟨point,thread⟩,cs,esp⟩

theorem inside_framed (inside : Inside l b start s i e book) : Framed l s.cpu.mem (s.stack i) e := by
  have holds := inside.kept.holds i (running_alive inside.running)
  obtain ⟨point,thread⟩ := inside.thread
  rw [thread] at holds
  exact holds

theorem inside_aligned (inside : Inside l b start s i e book) : PageAligned (s.stack i) :=
  stack_aligned inside.kept (running_alive inside.running)

/-- The stub finds the frame of the entry when the C code has returned. -/
theorem inside_leaves (inside : Inside l b start s i e book) (esp : s.cpu.regs.esp = slot (s.stack i) e.bottom) :
    leave l (e.after l) e.code_after s.cpu = some { s.cpu with regs := e.restored s.cpu.regs } := by
  have framed := inside_framed inside
  exact frame_leaves l framed.user esp framed.stacked

/-- The C code goes on elsewhere. -/
theorem inside_inv (inside : Inside l b start s i e book) (point : Point) :
    Inv l b start (s.setThread i (.inside e point)) := by
  refine ⟨⟨book,kept_thread inside.kept (fun _ => inside_framed inside) (fun ready => ?_)⟩,?_⟩
  · exact absurd ready (running_notReady inside.running)
  · have mode : (s.setThread i (.inside e point)).mode = .kernel := inside.mode
    simp only [Positioned,mode]
    exact ⟨i,e,point,inside.running,Function.update_self ..,inside.cs,inside.esp⟩

/-- C code may write to its part of the stack. -/
theorem own_loose (inside : Inside l b start s i e book) {a : Word} (page : pageOf a = pageOf (s.stack i))
    (below : wordOf a < e.bottom) : Loose b start s.cpu.kernel s.thread a :=
  .inr ⟨i,running_alive inside.running,.inl ⟨page,by obtain ⟨_,thread⟩ := inside.thread; rw [thread]; exact below⟩⟩

theorem schedules_inv (bootUsed : is_used start (pageOf b.page_directory) = true) (inside : Inside l b start s i e book)
    (schedules : Schedules l s i e point event s') : Inv l b start s' ∧ Exact event := by
  cases schedules with
  | stays alone => exact ⟨inside_inv inside point,trivial⟩
  | switches _ _ switched =>
    refine switches_inv (inside_aligned inside) inside.running.current inside.cs (running_notReady inside.running)
      (fun _ => inside_framed inside) (fun m changed => ⟨book,?_⟩) switched
    exact kept_mem inside.kept bootUsed (fun a ne => own_loose inside (changed a ne).1 (changed a ne).2)

/-- `SYS_EXIT`: the process is dead when it calls `schedule`. -/
theorem exit_inv (bootUsed : is_used start (pageOf b.page_directory) = true) (inside : Inside l b start s i e book)
    (switched : KernelThreads.Switches l (s.exit i) i e point event s') : Inv l b start s' ∧ Exact event := by
  have dead : ((s.exit i).cpu.kernel.procs i).state = .dead := by simp [State.exit,State.setKernel,Kernel.setProc]
  have stack : (s.exit i).stack i = s.stack i := by simp [State.exit,State.setKernel,State.stack,Kernel.setProc]
  refine switches_inv (s := s.exit i) (by rw [stack]; exact inside_aligned inside) inside.running.current inside.cs
    (by rw [dead]; decide) (fun alive => absurd dead alive) (fun m changed => ⟨book,?_⟩) switched
  rw [stack] at changed
  exact kept_dead (kept_mem inside.kept bootUsed (fun a ne => own_loose inside (changed a ne).1 (changed a ne).2)) i

/-! ### Results of system calls -/

/-- `regs->eax = v` changes one word of the frame. -/
theorem frame_result {m : Memory} {p : Word} (aligned : PageAligned p) (kind : e.kind = .syscall) (framed : Framed l m p e)
    (v : Word) : Framed l (write32 m (slot p 1018) v) p { e with eax := v } := by
  have stacked := framed.stacked
  refine ⟨framed.user,fun notCall => absurd kind notCall,?_⟩
  simp only [Entry.bottom,Entry.frame,kind,Entry.saved,Entry.pushed,List.cons_append,List.nil_append,Stacked,
    Nat.reduceAdd] at stacked ⊢
  obtain ⟨w0,w1,w2,w3,w4,w5,w6,w7,_,w9,w10,w11,w12,w13,_⟩ := stacked
  simp [entry_write aligned aligned,w0,w1,w2,w3,w4,w5,w6,w7,w9,w10,w11,w12,w13]

/-- Where the arguments are. -/
theorem regs_pointer (inside : Inside l b start s i e book) (kind : e.kind = .syscall) :
    s.regs i = slot (s.stack i) 1012 := by
  have stacked := (inside_framed inside).stacked
  simp only [Entry.bottom,Entry.frame,kind,Stacked] at stacked
  exact stacked.2.1

theorem result_inv (bootUsed : is_used start (pageOf b.page_directory) = true) (inside : Inside l b start s i e book)
    (kind : e.kind = .syscall) (v : Word) : Inv l b start (s.result i e (slot (s.stack i) 1012) v) := by
  have aligned := inside_aligned inside
  have alive := running_alive inside.running
  have notReady := running_notReady inside.running
  have pointer : slot (s.stack i) 1012+24#32 = slot (s.stack i) 1018 := slot_add_24 ..
  -- Meanwhile nothing is known of the stack.
  have kept := kept_thread inside.kept (t := .idle) (fun _ => trivial) (fun ready => absurd ready notReady)
  have written : Kept l b start (s.cpu.kernel.setMem (write32 s.cpu.mem (slot (s.stack i) 1018) v)) s.log
      (Function.update s.thread i .idle) book := by
    refine kept_mem kept bootUsed (fun a ne => .inr ⟨i,alive,.inl ⟨?_,?_⟩⟩)
    · by_contra other
      exact ne (write_slot_off aligned (by decide) other)
    · rw [Function.update_self,low,wordOf]
      omega
  refine ⟨⟨book,?_⟩,?_⟩
  · have again := kept_thread written (i := i) (t := .inside { e with eax := v } .done)
      (fun _ => frame_result aligned kind (inside_framed inside) v) (fun ready => absurd ready notReady)
    rw [Function.update_idem] at again
    rw [State.result,pointer]
    exact again
  · have mode : (s.result i e (slot (s.stack i) 1012) v).mode = .kernel := inside.mode
    simp only [Positioned,mode]
    obtain ⟨j,below,esp⟩ := inside.esp
    refine ⟨i,{ e with eax := v },.done,running_setMem inside.running _,Function.update_self ..,inside.cs,j,?_,esp⟩
    simpa [Entry.bottom] using below

/-- The bytes that user code of the process that is running can reach. -/
def Reached (k : Kernel) (a : Word) : Prop :=
  ∃ virt t, Paging.translate k.phys.mem k.cr3 virt = some t ∧ t.user = true ∧ pageOf a = pageOf t.phys

theorem reached_loose {k : Kernel} {thread : Slot → Thread} (running : Running k i) {a : Word} (reached : Reached k a) :
    Loose b start k thread a := by
  rw [Reached,running.cr3] at reached
  exact .inr ⟨i,running_alive running,.inr reached⟩

/-- Whatever is written there, the process has the same address space. -/
theorem translate_kept {k : Kernel} {log : List Creation} {thread : Slot → Thread} (kept : Kept l b start k log thread book)
    (bootUsed : is_used start (pageOf b.page_directory) = true) (running : Running k i) {m : Memory}
    (same : ∀ a, ¬ Reached k a → m a = k.phys.mem a) (v : Word) :
    Paging.translate m k.cr3 v = Paging.translate k.phys.mem k.cr3 v := by
  obtain ⟨e,member,_,dir,_,space,nonzero⟩ := created_by kept (running_alive running)
  have tables : ∀ a, Owns e.1.user_dir e.2.tables (pageOf a) → m a = k.phys.mem a := by
    intro a owns
    refine same a (fun reached => ?_)
    exact (loose_apart kept bootUsed (reached_loose running reached)).1 e member nonzero owns
  rw [running.cr3,dir,translate_correct (represents_congr space.rep tables),translate_correct space.rep]

/-- Pointers to such bytes lead to such bytes. -/
theorem pointers_lead {k : Kernel} {log : List Creation} {thread : Slot → Thread} (kept : Kept l b start k log thread book)
    (bootUsed : is_used start (pageOf b.page_directory) = true) (running : Running k i) {m : Memory}
    (same : ∀ a, ¬ Reached k a → m a = k.phys.mem a) {v : Word} (user : UserByte k v) : Reached k (paged k.cr3 m v) := by
  obtain ⟨t,found,isUser⟩ := user
  refine ⟨v,t,found,isUser,?_⟩
  rw [paged,translate_kept kept bootUsed running same,found]
  rfl

/-- A system call that stores only where user code of the caller could. -/
theorem served_inside (bootUsed : is_used start (pageOf b.page_directory) = true) {p : Program}
    (inside : Inside p.linked b start s i e book) {arguments : SyscallRegs} (noSpawn : arguments.eax ≠ SYS_SPAWN)
    (polite : ∀ a ∈ (s.outcome p arguments).stored, UserByte s.cpu.kernel a) :
    Inside p.linked b start { s.setKernel (s.outcome p arguments).env.kernel with
      line := (s.outcome p arguments).env.line, fb := (s.outcome p arguments).env.fb } i e book := by
  obtain ⟨t,puts,kernel,stored⟩ := syscall_puts s.access p.linked.process_start_trampoline
    ⟨s.cpu.kernel,p.rootfs,s.line,s.fb⟩ noSpawn
  change (s.outcome p arguments).env.kernel = s.cpu.kernel.setMem t.mem at kernel
  change (s.outcome p arguments).stored = t.stored at stored
  have leads : ∀ m, (∀ a, ¬ Reached s.cpu.kernel a → m a = s.cpu.kernel.phys.mem a) → ∀ v, UserByte s.cpu.kernel v →
      Reached s.cpu.kernel (s.access m v) :=
    fun m same v user => pointers_lead inside.kept bootUsed inside.running same user
  have confined := puts_confined leads puts (fun v put => polite v (by rw [stored]; exact put))
  have kept : Kept p.linked b start (s.cpu.kernel.setMem t.mem) s.log s.thread book := by
    refine kept_mem inside.kept bootUsed (fun a ne => reached_loose inside.running ?_)
    by_contra outside
    exact ne (confined a outside)
  rw [kernel]
  exact ⟨kept,inside.mode,running_setMem inside.running _,inside.thread,inside.cs,inside.esp⟩

/-- Its result goes to the stack of the caller. -/
theorem served_stack {p : Program} {arguments : SyscallRegs} (noSpawn : arguments.eax ≠ SYS_SPAWN) :
    (s.setKernel (s.outcome p arguments).env.kernel).stack i = s.stack i := by
  obtain ⟨t,_,kernel,_⟩ := syscall_puts s.access p.linked.process_start_trampoline ⟨s.cpu.kernel,p.rootfs,s.line,s.fb⟩ noSpawn
  change ((s.outcome p arguments).env.kernel.procs i).kernel_stack = _
  rw [State.outcome,kernel]
  rfl

theorem finish_inv (bootUsed : is_used start (pageOf b.page_directory) = true) {p : Program}
    (inside : Inside p.linked b start s i e book) (kind : e.kind = .syscall) {arguments : SyscallRegs}
    (noSpawn : arguments.eax ≠ SYS_SPAWN)
    (polite : ∀ a ∈ (s.outcome p arguments).stored, UserByte s.cpu.kernel a) :
    Inv p.linked b start (s.finish i e (s.outcome p arguments)) := by
  have finished := result_inv bootUsed (served_inside bootUsed inside noSpawn polite) kind (s.outcome p arguments).eax
  change Inv p.linked b start (State.result _ i e (slot ((s.setKernel (s.outcome p arguments).env.kernel).stack i) 1012) _)
    at finished
  rw [served_stack noSpawn,← regs_pointer inside kind] at finished
  exact finished

/-- `SYS_SPAWN`. -/
theorem spawn_inv (bootUsed : is_used start (pageOf b.page_directory) = true) {p : Program}
    (inside : Inside p.linked b start s i e book) (kind : e.kind = .syscall) {name : List Byte}
    (fits : Fits b p.linked.process_start_trampoline p.rootfs ⟨s.cpu.kernel,s.log⟩ (.create name)) (v : Word) :
    Inv p.linked b start ((s.afterCreate (s.create p name)).result i e (s.regs i) v) := by
  obtain ⟨book',kept⟩ := kept_create inside.kept bootUsed fits rfl
  change Kept p.linked b start (s.create p name).kernel (s.create p name :: s.log) (withNew s.thread (s.create p name).slot)
    book' at kept
  have table : (s.create p name).Table s.cpu.kernel := process_create_table ..
  generalize s.create p name = c at kept table
  -- The caller is alive, so its slot was not free.
  obtain ⟨other,same⟩ : c.slot ≠ some i ∧ c.kernel.procs i = s.cpu.kernel.procs i := by
    rcases table_slots table i with old | ⟨_,dead,_⟩
    · exact old
    · exact absurd dead (running_alive inside.running)
  have stack : (s.afterCreate c).stack i = s.stack i := by
    change (c.kernel.procs i).kernel_stack = (s.cpu.kernel.procs i).kernel_stack
    rw [same]
  have running : Running c.kernel i := by
    refine ⟨table.current.trans inside.running.current,?_,?_,?_⟩
    · rw [same]
      exact inside.running.running
    · rw [same]
      exact table.cr3.trans inside.running.cr3
    · rw [same]
      exact table.esp0.trans inside.running.esp0
  have moved : Inside p.linked b start (s.afterCreate c) i e book' := by
    obtain ⟨point,thread⟩ := inside.thread
    refine ⟨kept,inside.mode,running,⟨point,(withNew_of_ne other).trans thread⟩,inside.cs,?_⟩
    rw [stack]
    exact inside.esp
  rw [regs_pointer inside kind,← stack]
  exact result_inv bootUsed moved kind v

end

/-! ### Into the kernel and out of it -/

section
variable {l : Linked} {b : Setup} {start : Frames} {s s' : State} {i : Slot} {book : List (Creation × Ghost)}

/-- Where the machine is does not depend on memory, nor on most registers. -/
theorem positioned_congr (positioned : Positioned s) {c : Cpu} {m : Memory} (kernel : c.kernel = s.cpu.kernel.setMem m)
    (esp : c.regs.esp = s.cpu.regs.esp) (cs : c.regs.cs = s.cpu.regs.cs) : Positioned { s with cpu := c } := by
  have running : ∀ i, Running s.cpu.kernel i → Running c.kernel i := by
    intro i running
    rw [kernel]
    exact running_setMem running m
  have procs : c.kernel.procs = s.cpu.kernel.procs := by
    rw [kernel]
    rfl
  cases mode : s.mode with
  | boot =>
    simp only [Positioned,mode] at positioned ⊢
    rw [cs]
    exact positioned
  | launching =>
    simp only [Positioned,mode] at positioned ⊢
    obtain ⟨i,isRunning,parked,pointer,selector⟩ := positioned
    exact ⟨i,running i isRunning,parked,by rw [esp,procs]; exact pointer,cs.trans selector⟩
  | user =>
    simp only [Positioned,mode] at positioned ⊢
    obtain ⟨i,isRunning,idle,ring3⟩ := positioned
    exact ⟨i,running i isRunning,idle,by rw [cs]; exact ring3⟩
  | kernel =>
    simp only [Positioned,mode] at positioned ⊢
    obtain ⟨i,e,point,isRunning,thread,selector,j,below,pointer⟩ := positioned
    refine ⟨i,e,point,running i isRunning,thread,cs.trans selector,j,below,?_⟩
    rw [esp,State.stack,procs]
    exact pointer
  | halted => simp only [Positioned,mode]
  | wild => simp only [Positioned,mode] at positioned

/-- In user mode, the stack of the process is ready for an entry. -/
theorem user_stack (inv : Inv l b start s) (user : s.mode = .user) (current : s.cpu.kernel.current = some i) :
    Running s.cpu.kernel i ∧ s.thread i = .idle ∧ Ring3 s.cpu.regs.cs ∧ PageAligned (s.stack i) ∧
      s.cpu.kernel.esp0 = slot (s.stack i) 1024 := by
  obtain ⟨⟨book,kept⟩,positioned⟩ := inv
  simp only [Positioned,user] at positioned
  obtain ⟨i',running,idle,ring3⟩ := positioned
  have same := running_unique running current
  subst same
  have alive := running_alive running
  exact ⟨running,idle,ring3,stack_aligned kept alive,running.esp0.trans (kept.tops i' alive)⟩

/-- An interrupt or a system call of user code. -/
theorem entered_inv (inv : Inv l b start s) (bootUsed : is_used start (pageOf b.page_directory) = true)
    (user : s.mode = .user) (current : s.cpu.kernel.current = some i) {e : Entry} (regs : e.regs = s.cpu.regs)
    (eax : e.eax = e.regs.eax) {c : Cpu}
    (called : PageAligned (s.stack i) → Ring3 s.cpu.regs.cs → s.cpu.kernel.esp0 = slot (s.stack i) 1024 →
      Called (s.stack i) e.bottom (e.frame l (s.stack i)) s.cpu c) (point : Point) :
    Inv l b start { s.setThread i (.inside e point) with cpu := c, mode := .kernel } := by
  obtain ⟨running,idle,ring3,aligned,esp0⟩ := user_stack inv user current
  obtain ⟨⟨book,kept⟩,_⟩ := inv
  have alive := running_alive running
  obtain ⟨kernel,cs,esp,stacked,off⟩ := called aligned ring3 esp0
  have written : Kept l b start c.kernel s.log s.thread book := by
    rw [kernel]
    refine kept_mem kept bootUsed (fun a ne => .inr ⟨i,alive,.inl ⟨?_,?_⟩⟩)
    · by_contra other
      exact ne (off a (fun page => absurd page other))
    · rw [idle,low,wordOf]
      omega
  have stack : (c.kernel.procs i).kernel_stack = s.stack i := by
    rw [kernel]
    rfl
  refine ⟨⟨book,kept_thread written (fun _ => ?_) (fun ready => ?_)⟩,i,e,point,?_,Function.update_self ..,cs,e.bottom,
    le_refl _,?_⟩
  · rw [stack]
    exact ⟨by rw [regs]; exact ring3,fun _ => eax,stacked⟩
  · rw [kernel] at ready
    exact absurd ready (running_notReady (running_setMem running _))
  · change Running c.kernel i
    rw [kernel]
    exact running_setMem running _
  · change c.regs.esp = slot (c.kernel.procs i).kernel_stack e.bottom
    rw [stack]
    exact esp

/-- The frames of the kernel's own data. -/
def KernelData (b : Setup) (start : Frames) (f : Nat) : Prop := is_used start f = true ∧ f ≠ pageOf b.page_directory

/-- The kernel stack of a process is not part of the kernel's data. -/
theorem stack_notData {k : Kernel} {log : List Creation} {thread : Slot → Thread} (kept : Kept l b start k log thread book)
    (alive : (k.procs i).state ≠ .dead) : ¬ KernelData b start (pageOf (k.procs i).kernel_stack) := by
  rintro ⟨used,_⟩
  obtain ⟨e,member,_,_,stack,space,_⟩ := created_by kept alive
  have fresh := taken_fresh kept member space.stackTaken
  rw [← stack,used] at fresh
  cases fresh

/-- C code works on the kernel's data and its part of the stack. -/
theorem work_inv (bootUsed : is_used start (pageOf b.page_directory) = true) {e : Entry} {c : Cpu}
    (inside : Inside l b start s i e book)
    (works : Works (KernelData b start) (s.stack i) e.bottom s.cpu c) : Inv l b start { s with cpu := c } := by
  refine ⟨⟨book,?_⟩,?_⟩
  · change Kept l b start c.kernel s.log s.thread book
    rw [works.kernel]
    refine kept_mem inside.kept bootUsed (fun a ne => ?_)
    rcases works.mem a ne with own | ⟨page,below⟩
    · exact .inl own
    · exact own_loose inside page below
  · obtain ⟨point,thread⟩ := inside.thread
    obtain ⟨j,below,esp⟩ := works.esp
    simp only [Positioned,inside.mode]
    refine ⟨i,e,point,?_,thread,works.cs,j,below,?_⟩
    · rw [works.kernel]
      exact running_setMem inside.running _
    · rw [State.stack,works.kernel]
      exact esp

/-- The code that is interrupted has its stack below what the process relies on. -/
theorem interruptible_stack (inv : Inv l b start s) (interruptible : s.Interruptible i) :
    Running s.cpu.kernel i ∧ s.cpu.regs.cs = KERNEL_CODE_SEGMENT ∧
      ∃ j ≤ low (s.thread i), j < 1024 ∧ s.cpu.regs.esp = slot (s.stack i) j := by
  rcases interruptible with ⟨mode,current⟩ | ⟨e,call,inside⟩
  · obtain ⟨⟨book,kept⟩,positioned⟩ := inv
    simp only [Positioned,mode] at positioned
    obtain ⟨i',running,parked,pointer,cs⟩ := positioned
    have same := running_unique running current
    subst same
    have alive := running_alive running
    obtain ⟨esp,top⟩ := parked_esp (stack_aligned kept alive) (kept.holds i' alive) parked
    exact ⟨running,cs,_,le_refl _,by omega,pointer.trans esp⟩
  · obtain ⟨_,inside⟩ := inside_of inv inside
    obtain ⟨point,thread⟩ := inside.thread
    obtain ⟨j,below,pointer⟩ := inside.esp
    have top := bottom_le e
    rw [thread]
    exact ⟨inside.running,inside.cs,j,below,by omega,pointer⟩

/-- An interrupt of the kernel returns to what it interrupted. -/
theorem nested_returns (inv : Inv l b start s) (bootUsed : is_used start (pageOf b.page_directory) = true)
    (interruptible : s.Interruptible i) {j : Nat} (room : j+13 < 1024) (esp : s.cpu.regs.esp = slot (s.stack i) (j+13))
    (n : Vector) (error_code : Word) {w : Cpu}
    (works : Works (KernelData b start) (s.stack i) j (arrive l s.cpu n error_code) w)
    (returns : w.regs.esp = slot (s.stack i) j) :
    ∃ c book, leave l l.interrupt_return common_interrupt_return w = some c ∧ Undisturbed (s.stack i) s.cpu c ∧
      c.kernel = s.cpu.kernel.setMem w.mem ∧ Kept l b start c.kernel s.log s.thread book := by
  obtain ⟨running,cs,j',below,inPage,pointer⟩ := interruptible_stack inv interruptible
  obtain ⟨⟨book,kept⟩,_⟩ := inv
  have alive := running_alive running
  have aligned : PageAligned (s.stack i) := stack_aligned kept alive
  have isTop : j+13 = j' := ((slot_inj aligned aligned room inPage).mp (esp.symm.trans pointer)).2
  have kernelMode : ¬ Ring3 s.cpu.regs.cs := by
    rw [cs]
    decide
  obtain ⟨kernel,_,_,stacked,off⟩ := interrupt_nests l aligned kernelMode (by omega) esp n error_code
  -- The handler has not touched what was on the stack when it was called.
  have above : ∀ a, pageOf a = pageOf (s.stack i) → j ≤ wordOf a → w.mem a = (arrive l s.cpu n error_code).mem a := by
    intro a page from_
    by_contra ne
    rcases works.mem a ne with data | ⟨_,under⟩
    · rw [page] at data
      exact stack_notData kept alive data
    · omega
  have framed : Stacked w.mem (s.stack i) j (nested_frame l s.cpu.regs n error_code) :=
    stacked_congr aligned (by simp [nested_frame]; omega) (fun a page from_ _ => above a page from_) stacked
  have left := nested_leaves l kernelMode returns esp framed
  have sameKernel : w.kernel = s.cpu.kernel.setMem w.mem := by
    rw [works.kernel,kernel]
    rfl
  refine ⟨_,book,left,⟨fun r => by cases r <;> rfl,rfl,rfl,rfl,rfl,?_⟩,sameKernel,?_⟩
  · intro a page from_
    rw [esp] at from_
    have word := le_wordOf aligned room page (n := 0) from_
    change w.mem a = s.cpu.mem a
    rw [above a page (by omega)]
    exact off a (fun _ => .inr word)
  · change Kept l b start w.kernel s.log s.thread book
    rw [sameKernel]
    refine kept_mem kept bootUsed (fun a ne => ?_)
    by_cases unchanged : w.mem a = (arrive l s.cpu n error_code).mem a
    · have inFrame : ¬ Apart (s.stack i) j (j+13) a := fun apart => ne (unchanged.trans (off a apart))
      simp only [Apart,Classical.not_imp,not_or,not_lt,not_le] at inFrame
      exact .inr ⟨i,alive,.inl ⟨inFrame.1,by omega⟩⟩
    · rcases works.mem a unchanged with data | ⟨page,under⟩
      · exact .inl data
      · exact .inr ⟨i,alive,.inl ⟨page,by omega⟩⟩

theorem nested_left (inv : Inv l b start s) (bootUsed : is_used start (pageOf b.page_directory) = true)
    (interruptible : s.Interruptible i) {j : Nat} (room : j+13 < 1024) (esp : s.cpu.regs.esp = slot (s.stack i) (j+13))
    {n : Vector} {error_code : Word} {w c : Cpu}
    (works : Works (KernelData b start) (s.stack i) j (arrive l s.cpu n error_code) w)
    (returns : w.regs.esp = slot (s.stack i) j) (left : leave l l.interrupt_return common_interrupt_return w = some c) :
    c.kernel = s.cpu.kernel.setMem w.mem ∧ ∃ book, Kept l b start c.kernel s.log s.thread book := by
  obtain ⟨c',book,left',_,kernel,kept⟩ := nested_returns inv bootUsed interruptible room esp n error_code works returns
  rw [left] at left'
  cases left'
  exact ⟨kernel,book,kept⟩

/-- The devices are of no importance here. -/
theorem device_inv (inv : Inv l b start s) (int_no : Word) (scan_code : Byte) :
    Inv l b start (s.device int_no scan_code) := by
  rw [State.device]
  split
  · exact ⟨inv.kept,inv.positioned⟩
  · exact inv

/-- The process that `scheduler_start` has chosen. -/
theorem started_running {k k' : Kernel} (started : scheduler_start k = some k') (first : k'.current = some i) :
    (k.procs i).state = .ready ∧ Running k' i := by
  obtain ⟨f,found,rfl⟩ := Option.map_eq_some_iff.mp started
  have same : f = i := Option.some.inj first
  subst same
  exact ⟨by simpa using List.find?_some found,rfl,by simp [Kernel.setProc],rfl,rfl⟩

/-- `scheduler_start` and `jump_to_process` take up the stack of the first process. -/
theorem start_inv (inv : Inv l b start s) (bootUsed : is_used start (pageOf b.page_directory) = true)
    (boot : s.mode = .boot) {k : Kernel} (started : scheduler_start s.cpu.kernel = some k) (first : k.current = some i)
    (aligned : s.cpu.regs.esp.toNat % 4 = 0) (stack : ∀ a, ThreeWords s.cpu.regs.esp a → KernelData b start (pageOf a))
    (after : Word) :
    Inv l b start { s with
      cpu := execs l (({ s.cpu with kernel := { k with cr3 := s.cpu.kernel.cr3 } }).pushAll
        [(k.procs i).page_dir_phys,(k.procs i).esp,after]) jump_to_process_load
      mode := .launching } := by
  obtain ⟨⟨book,kept⟩,positioned⟩ := inv
  simp only [Positioned,boot] at positioned
  have keptStart := kept_start kept started
  obtain ⟨ready,running⟩ := started_running started first
  obtain ⟨m,loads,off⟩ := jump_loads l (c := { s.cpu with kernel := { k with cr3 := s.cpu.kernel.cr3 } }) aligned
    (k.procs i).page_dir_phys (k.procs i).esp after
  have sameMem : k.phys.mem = s.cpu.mem := by rw [(start_switches started).phys]; rfl
  rw [loads]
  refine ⟨⟨book,?_⟩,?_⟩
  · have written : Kept l b start (k.setMem m) s.log s.thread book := by
      refine kept_mem keptStart bootUsed (fun a ne => .inl (stack a ?_))
      by_contra outside
      exact ne (off a outside)
    have loaded : ({ k.setMem m with cr3 := (k.procs i).page_dir_phys } : Kernel) = k.setMem m := by
      rw [← running.cr3]
      rfl
    change Kept l b start { k.setMem m with cr3 := (k.procs i).page_dir_phys } s.log s.thread book
    rw [loaded]
    exact written
  · exact ⟨i,⟨running.current,running.running,rfl,running.esp0⟩,kept.parked i ready,rfl,positioned⟩

end

/-- The steps that are admitted: programs that are created fit, and system calls store
    only to bytes that user code of the caller reaches. -/
def Admits (b : Setup) (p : Program) (s : State) : Event → Prop
  | .created name => Fits b p.linked.process_start_trampoline p.rootfs ⟨s.cpu.kernel,s.log⟩ (.create name)
  | .stored addresses => ∀ a ∈ addresses, UserByte s.cpu.kernel a
  | _ => True

theorem step_inv {b : Setup} {start : Frames} (bootUsed : is_used start (pageOf b.page_directory) = true) {p : Program}
    (data : p.data = KernelData b start) {s s' : State} {event : Event} (inv : Inv p.linked b start s)
    (admits : Admits b p s event) (step : KernelThreads.Step p s event s') : Inv p.linked b start s' ∧ Exact event := by
  cases step with
  | bootWork c boot boots =>
    obtain ⟨⟨book,kept⟩,positioned⟩ := inv
    refine ⟨⟨⟨book,?_⟩,?_⟩,trivial⟩
    · change Kept p.linked b start c.kernel s.log s.thread book
      rw [boots.kernel]
      exact kept_mem kept bootUsed (fun a ne => .inl (by rw [← KernelData,← data]; exact boots.mem a ne))
    · simp only [Positioned,boot]
      exact boots.cs
  | bootKey scan_code boot => exact ⟨device_inv inv _ _,trivial⟩
  | bootCreate name boot =>
    obtain ⟨⟨book,kept⟩,positioned⟩ := inv
    refine ⟨⟨kept_create kept bootUsed admits rfl,?_⟩,trivial⟩
    simp only [Positioned,boot] at positioned
    simp only [Positioned,State.afterCreate,State.setKernel,boot]
    exact positioned
  | nothingToRun boot none => exact ⟨⟨inv.kept,trivial⟩,trivial⟩
  | start k i after boot started first aligned stack =>
    rw [data] at stack
    exact ⟨start_inv inv bootUsed boot started first aligned stack after,trivial⟩
  | launch i _ _ launching current lands =>
    obtain ⟨⟨book,kept⟩,positioned⟩ := inv
    simp only [Positioned,launching] at positioned
    obtain ⟨i',running,parked,esp,cs⟩ := positioned
    have same := running_unique running current
    subst same
    exact lands_inv kept running esp lands parked cs rfl
  | nested i n error_code scan_code j w c interruptible room esp works returns left goesOn =>
    rw [data] at works
    obtain ⟨kernel,book,kept⟩ := nested_left inv bootUsed interruptible room esp works returns left
    exact ⟨device_inv ⟨⟨book,kept⟩,positioned_congr inv.positioned kernel goesOn.esp goesOn.cs⟩ _ _,trivial⟩
  | nestedLost i n error_code j w interruptible room esp works returns lost =>
    rw [data] at works
    obtain ⟨c,_,left,goesOn,_⟩ := nested_returns inv bootUsed interruptible room esp n error_code works returns
    exact absurd ⟨c,left,goesOn⟩ lost
  | userCode r m user ring3 mem =>
    obtain ⟨⟨book,kept⟩,positioned⟩ := inv
    simp only [Positioned,user] at positioned
    obtain ⟨i,running,idle,_⟩ := positioned
    refine ⟨⟨⟨book,kept_mem kept bootUsed (fun a ne => reached_loose running ?_)⟩,?_⟩,trivial⟩
    · obtain ⟨virt,t,found,isUser,phys⟩ := mem a ne
      exact ⟨virt,t,found,isUser,by rw [phys]⟩
    · simp only [Positioned,user]
      exact ⟨i,running_setMem running m,idle,ring3⟩
  | interrupt i n error_code user current =>
    refine ⟨entered_inv inv bootUsed user current rfl rfl (fun aligned ring3 esp0 => ?_) .called,trivial⟩
    exact interrupt_enters p.linked aligned ring3 esp0 n error_code
  | syscall i user current =>
    refine ⟨entered_inv inv bootUsed user current rfl rfl (fun aligned ring3 esp0 => ?_) .called,trivial⟩
    exact syscall_enters p.linked aligned ring3 esp0
  | work i e point c inside works =>
    rw [data] at works
    obtain ⟨book,inside⟩ := inside_of inv inside
    exact ⟨work_inv bootUsed inside works,trivial⟩
  | handled i e n error_code scan_code inside kind noTick =>
    obtain ⟨book,inside⟩ := inside_of inv inside
    exact ⟨device_inv (inside_inv inside .done) _ _,trivial⟩
  | tick i e n error_code inside kind timer _ _ schedules =>
    obtain ⟨book,inside⟩ := inside_of inv inside
    exact schedules_inv bootUsed inside schedules
  | sysExit i e inside kind call _ _ switched =>
    obtain ⟨book,inside⟩ := inside_of inv inside
    exact exit_inv bootUsed inside switched
  | sysExitLast i e inside kind call alone =>
    obtain ⟨book,inside⟩ := inside_of inv inside
    exact ⟨⟨⟨book,kept_dead inside.kept i⟩,trivial⟩,trivial⟩
  | sysYield i e inside kind call _ _ schedules =>
    obtain ⟨book,inside⟩ := inside_of inv inside
    exact schedules_inv bootUsed inside schedules
  | sysSpawn i e name inside kind call named =>
    obtain ⟨book,inside⟩ := inside_of inv inside
    exact ⟨spawn_inv bootUsed inside kind admits _,trivial⟩
  | sysRead i e inside kind call =>
    obtain ⟨book,inside⟩ := inside_of inv inside
    exact ⟨inside_inv inside _,trivial⟩
  | sysWait i e inside kind call =>
    obtain ⟨book,inside⟩ := inside_of inv inside
    exact ⟨inside_inv inside _,trivial⟩
  | sysAtOnce i e inside kind call =>
    obtain ⟨book,inside⟩ := inside_of inv inside
    refine ⟨finish_inv bootUsed inside kind (fun isSpawn => call ?_) admits,trivial⟩
    rw [isSpawn]
    decide
  | testReady i e call inside kind isReady o outcome =>
    obtain ⟨book,inside⟩ := inside_of inv inside
    subst outcome
    refine ⟨finish_inv bootUsed inside kind ?_ admits,trivial⟩
    change call.number ≠ SYS_SPAWN
    cases call with
    | read => decide
    | wait pid => exact show SYS_WAIT ≠ SYS_SPAWN by decide
  | testNotReady i e call inside notReady _ _ schedules =>
    obtain ⟨book,inside⟩ := inside_of inv inside
    exact schedules_inv bootUsed inside schedules
  | scheduledReady i e call inside isReady =>
    obtain ⟨book,inside⟩ := inside_of inv inside
    exact ⟨inside_inv inside _,trivial⟩
  | scheduledNotReady i e call inside notReady =>
    obtain ⟨book,inside⟩ := inside_of inv inside
    exact ⟨inside_inv inside _,trivial⟩
  | wake i e call inside =>
    obtain ⟨book,inside⟩ := inside_of inv inside
    exact ⟨inside_inv inside _,trivial⟩
  | returns i e c inside esp left =>
    obtain ⟨book,inside⟩ := inside_of inv inside
    have framed := inside_framed inside
    rw [inside_leaves inside esp] at left
    cases left
    refine ⟨⟨⟨book,kept_thread inside.kept (fun _ => trivial) (fun ready => ?_)⟩,i,inside.running,Function.update_self ..,
      framed.user⟩,⟨rfl,rfl,rfl,rfl,rfl,rfl,rfl,rfl,rfl,rfl,rfl,rfl,framed.eax⟩⟩
    exact absurd ready (running_notReady inside.running)
  | returnLost i e inside esp lost =>
    obtain ⟨book,inside⟩ := inside_of inv inside
    rw [inside_leaves inside esp] at lost
    cases lost

end SoKernel.ContextSwitch
