import SoKernel.CallerBuffers
import SoKernel.LineInput
import SoKernel.PidLife
import SoKernel.Transparency

/-!
The machine and the kernel. `System` has the kernel's decisions without its stacks, and
`KernelThreads` has the machine with its registers and stacks. As long as the machine
keeps its invariant, it does nothing that the other one cannot do: a step of the machine
is a few steps there, and what the machine does on its stacks is the step `work`. So
what holds over every run of `System` holds for the machine.
-/
namespace SoKernel.Simulation
open SoKernel.Words SoKernel.Pages SoKernel.Pfa SoKernel.Paging SoKernel.PageTables SoKernel.Stack SoKernel.Fs SoKernel.Process
  SoKernel.Keyboard SoKernel.AddressSpace SoKernel.Worlds SoKernel.StackReach SoKernel.Kmain SoKernel.Syscalls
  SoKernel.Processor SoKernel.StackFrames SoKernel.KernelThreads SoKernel.KernelStacks SoKernel.ContextSwitch
  SoKernel.LineInput
set_option linter.unusedSimpArgs false

/-! ### What the machine looks like -/

/-- The machine's pointers go through the directory that is loaded. -/
def machine (p : Program) : System.Machine := ⟨fun k => paged k.cr3,p.linked.process_start_trampoline⟩

def waiting (e : Entry) : Waiting → System.Waiting
  | .read => .read e.regs.ebx e.regs.ecx
  | .wait pid => .wait pid

/-- Before the call has been looked at and when it is done, the process could as well be
    in user mode. -/
def spotOf (e : Entry) : Point → System.Point
  | .called => .user
  | .test call => .test (waiting e call)
  | .scheduled call => .scheduled (waiting e call)
  | .asleep call => .asleep (waiting e call)
  | .exited => .halted
  | .done => .user

def spot : Thread → System.Point
  | .idle => .user
  | .fresh => .user
  | .inside e point => spotOf e point
  | .suspended e point _ => spotOf e point

/-- Where the processor is. -/
def place (s : State) : System.Point :=
  match s.mode with
  | .boot => .boot
  | .launching => .user
  | .user => .user
  | .kernel => (s.cpu.kernel.current.map (fun i => spot (s.thread i))).getD .halted
  | .halted => .halted
  | .wild => .halted

/-- The kernel has the same data and the processor is at the same place. A process that
    is ready goes on where it was, and none has been in the kernel before the first one
    has been launched. -/
structure Matches (p : Program) (s : State) (a : System.State) : Prop where
  kernel : a.kernel = s.cpu.kernel
  rootfs : a.rootfs = p.rootfs
  line : a.line = s.line
  cpu : a.cpu = place s
  saved : ∀ i, (s.cpu.kernel.procs i).state = .ready → a.saved i = spot (s.thread i)
  early : s.mode = .boot ∨ s.mode = .launching → ∀ i, s.thread i = .idle ∨ s.thread i = .fresh

/-! ### Runs -/

/-- A run in which lines are read into ordinary memory only. -/
inductive PlainRun (mach : System.Machine) (a : System.State) : List System.Event → System.State → Prop
  | refl : PlainRun mach a [] a
  | step {events : List System.Event} {event : System.Event} {b c : System.State} :
      PlainRun mach a events b → System.Step mach b event c →
      (∀ buf max eax, event = .read eax → b.cpu = .test (.read buf max) →
        Plain (mach.access b.kernel) b.kernel.phys.mem buf eax.toNat) → PlainRun mach a (events ++ [event]) c

section
variable {mach : System.Machine} {a b c : System.State} {events more : List System.Event}

theorem plainRun_trans (first : PlainRun mach a events b) (second : PlainRun mach b more c) :
    PlainRun mach a (events ++ more) c := by
  induction second with
  | refl => rwa [List.append_nil]
  | step _ step plain ih =>
    rw [← List.append_assoc]
    exact ih.step step plain

theorem plainRun_run (run : PlainRun mach a events b) : System.Run mach a events b := by
  induction run with
  | refl => exact .refl
  | step _ step _ ih => exact ih.step step

/-- Such a run has a history in which every line was read into ordinary memory. -/
theorem plainRun_observed (run : PlainRun mach a events b) :
    ∃ history, Observed mach a history b ∧ ∀ call ∈ reads history, call.plain := by
  induction run with
  | refl => exact ⟨[],.refl,by simp [reads]⟩
  | step _ step plain ih =>
    obtain ⟨history,observed,before⟩ := ih
    obtain ⟨seen,sees,new⟩ := step_seen step
    refine ⟨_,observed.step sees,fun call member => ?_⟩
    rw [reads,List.filterMap_append,List.mem_append] at member
    rcases member with old | last
    · exact before call old
    · obtain ⟨buf,here,shows,isPlain⟩ := new call last
      rw [isPlain]
      exact plain buf call.max call.eax shows here

end

/-- The results of `process_create` in a history. -/
def results (events : List System.Event) : List Int :=
  events.filterMap (fun event => match event with
    | .created result => some result
    | _ => none)

theorem pids_results (events : List System.Event) : PidLife.pids events = (results events).filter (· ≠ -1) := by
  rw [PidLife.pids,results,List.filter_filterMap]
  congr 1
  funext event
  cases event with
  | created result => by_cases failed : result = -1 <;> simp [failed,Option.filter]
  | _ => rfl

/-- The kernel can get to where the machine is, with these new results. -/
def Reaches (p : Program) (s : State) (a : System.State) (new : List Int) : Prop :=
  ∃ events b, PlainRun (machine p) a events b ∧ Matches p s b ∧ results events = new

section
variable {p : Program} {s s' : State} {a b : System.State} {new : List Int}

theorem reaches_here (here : Matches p s a) : Reaches p s a [] := ⟨[],a,.refl,here,rfl⟩

theorem reaches_step {event : System.Event} (step : System.Step (machine p) a event b)
    (plain : ∀ buf max eax, event = .read eax → a.cpu = .test (.read buf max) →
      Plain ((machine p).access a.kernel) a.kernel.phys.mem buf eax.toNat)
    (rest : Reaches p s b new) : Reaches p s a (results [event] ++ new) := by
  obtain ⟨events,c,run,here,rfl⟩ := rest
  refine ⟨_,c,plainRun_trans (.step .refl step plain) run,here,?_⟩
  rw [List.nil_append,results,List.filterMap_append]
  rfl

/-- A step of which nothing is seen. -/
theorem reaches_silent (step : System.Step (machine p) a .silent b) (rest : Reaches p s b new) : Reaches p s a new :=
  reaches_step step (by simp) rest

/-- Memory in the kernel changes. -/
theorem reaches_work (m : Memory) (rest : Reaches p s { a with kernel := a.kernel.setMem m } new) : Reaches p s a new :=
  reaches_silent (.work a m) rest

/-- The process that has the processor is not ready. -/
theorem running_other {k : Kernel} {i j : Slot} (running : Running k i) (ready : (k.procs j).state = .ready) : j ≠ i := by
  rintro rfl
  exact running_notReady running ready

theorem thread_self (i : Slot) (t : Thread) : (s.setThread i t).thread i = t := Function.update_self ..

theorem thread_of_ne {i j : Slot} {t : Thread} (other : j ≠ i) : (s.setThread i t).thread j = s.thread j :=
  Function.update_of_ne other ..

/-- The machine has worked in its memory. -/
theorem matches_work (before : Matches p s a) {m : Memory} (kernel : s'.cpu.kernel = s.cpu.kernel.setMem m)
    (line : s'.line = s.line) (cpu : place s' = place s)
    (threads : ∀ i, (s.cpu.kernel.procs i).state = .ready → spot (s'.thread i) = spot (s.thread i))
    (early : s'.mode = .boot ∨ s'.mode = .launching → ∀ i, s'.thread i = .idle ∨ s'.thread i = .fresh) :
    Matches p s' { a with kernel := a.kernel.setMem m } := by
  refine ⟨?_,before.rootfs,before.line.trans line.symm,before.cpu.trans cpu.symm,?_,early⟩
  · rw [kernel,before.kernel]
  · intro i ready
    rw [kernel] at ready
    exact (before.saved i ready).trans (threads i ready).symm

/-- A key, wherever the kernel takes it. -/
theorem reaches_key (here : a.cpu = .boot ∨ a.cpu = .user ∨ ∃ call, a.cpu = .asleep call) (scan_code : Byte)
    (rest : Reaches p s (System.key a scan_code) new) : Reaches p s a new := by
  rcases here with boot | user | ⟨call,asleep⟩
  · exact reaches_silent (.bootKey a scan_code boot) rest
  · exact reaches_silent (.keyUser a scan_code user) rest
  · exact reaches_silent (.keyAsleep a call scan_code asleep) rest

/-- A device has interrupted. -/
theorem reaches_device (before : Matches p s a) (here : a.cpu = .boot ∨ a.cpu = .user ∨ ∃ call, a.cpu = .asleep call)
    (int_no : Word) (scan_code : Byte) : Reaches p (s.device int_no scan_code) a [] := by
  rw [State.device]
  split
  · refine reaches_key here scan_code (reaches_here ⟨before.kernel,before.rootfs,?_,before.cpu,before.saved,before.early⟩)
    change (keyboard_handler a.line scan_code).1 = (keyboard_handler s.line scan_code).1
    rw [before.line]
  · exact reaches_here before

/-! ### Switching -/

/-- A process has been switched to. -/
theorem lands_matches {l : Linked} {event : Event} {i : Slot} {c : Cpu} (lands : Lands l s i c event s')
    (found : s'.mode ≠ .wild) (kernel : a.kernel = c.kernel) (rootfs : a.rootfs = p.rootfs) (line : a.line = s.line)
    (cpu : a.cpu = spot (s.thread i)) (current : c.kernel.current = some i)
    (saved : ∀ j, (c.kernel.procs j).state = .ready → j ≠ i ∧ a.saved j = spot (s.thread j)) : Matches p s' a := by
  have others : ∀ t : Thread, ∀ j, (c.kernel.procs j).state = .ready → a.saved j = spot ((s.setThread i t).thread j) := by
    intro t j ready
    obtain ⟨other,same⟩ := saved j ready
    rw [thread_of_ne other]
    exact same
  cases lands with
  | starts fresh here =>
    rw [fresh] at cpu
    refine ⟨?_,rootfs,line,cpu,?_,by simp⟩
    · rw [trampoline_kernel]
      exact kernel
    · rw [trampoline_kernel]
      exact others .idle
  | continues e point call suspended here goesOn =>
    rw [suspended] at cpu
    refine ⟨kernel,rootfs,line,?_,others _,by simp⟩
    simp only [place,current,Option.map_some,Option.getD_some,thread_self]
    exact cpu
  | lost notNew notOld => exact absurd rfl found

/-- `schedule` in the process `old`, which is running or has just died. -/
theorem switches_matches {l : Linked} {event : Event} {old : Slot} {e : Entry} {point : Point}
    (switched : KernelThreads.Switches l s old e point event s') (found : s'.mode ≠ .wild)
    (aligned : PageAligned (s.stack old)) (current : s.cpu.kernel.current = some old)
    (notReady : (s.cpu.kernel.procs old).state ≠ .ready) (kernel : a.kernel = s.cpu.kernel) (rootfs : a.rootfs = p.rootfs)
    (line : a.line = s.line) (saved : ∀ j, (s.cpu.kernel.procs j).state = .ready → a.saved j = spot (s.thread j)) :
    ∃ m esp, Matches p s' (System.yield { a with kernel := a.kernel.setMem m } esp (spotOf e point)) := by
  obtain ⟨next,isNext,j,room,esp,event,s',lands⟩ := switched
  have top := bottom_le e
  obtain ⟨m,d,executed,scheduled,_⟩ := switch_machine l aligned current isNext (by omega) esp
  have other : next ≠ old := fun same => notReady (same ▸ next_ready_some isNext)
  refine ⟨m,slot (s.stack old) j,?_⟩
  have yields : System.yield { a with kernel := a.kernel.setMem m } (slot (s.stack old) j) (spotOf e point) =
      { a with
        kernel := d.kernel
        saved := Function.update a.saved old (spotOf e point)
        cpu := a.saved next } := by
    have currentA : (a.kernel.setMem m).current = some old := by rw [kernel]; exact current
    have nextA : next_ready (a.kernel.setMem m).procs old = some next := by rw [kernel]; exact isNext
    simp only [System.yield,currentA,nextA,Function.update_of_ne other]
    rw [scheduled,kernel]
  obtain ⟨_,_,currentAfter,_,_,procs⟩ := schedule_some (slot (s.stack old) j)
    (show (s.cpu.kernel.setMem m).current = some old from current) isNext
  rw [← scheduled] at currentAfter procs
  rw [yields]
  rw [executed] at lands
  refine lands_matches lands found (by rw [restore_kernel]) rootfs line ?_ (by rw [restore_kernel]; exact currentAfter) ?_
  · rw [thread_of_ne other]
    exact saved next (next_ready_some isNext)
  · intro i ready
    rw [restore_kernel,procs i] at ready
    have notNext : i ≠ next := by
      rintro rfl
      simp at ready
    refine ⟨notNext,?_⟩
    by_cases isOld : i = old
    · subst isOld
      rw [thread_self]
      exact Function.update_self ..
    · have before : (s.cpu.kernel.procs i).state = .ready := by simpa [notNext,isOld,Kernel.setMem] using ready
      rw [thread_of_ne isOld]
      exact (Function.update_of_ne isOld ..).trans (saved i before)

end

/-! ### The caller's memory -/

section
variable {l : Linked} {b : Setup} {start : Frames} {k : Kernel} {log : List Creation} {thread : Slot → Thread}
  {book : List (Creation × Ghost)} {i : Slot}

/-- Different bytes of user code are different bytes in memory. -/
theorem user_bytes_apart (kept : Kept l b start k log thread book) (running : Running k i) {v w : Word}
    (ownV : UserByte k v) (ownW : UserByte k w) (same : paged k.cr3 k.phys.mem v = paged k.cr3 k.phys.mem w) : v = w := by
  obtain ⟨e,_,_,dir,_,space,_⟩ := created_by kept (running_alive running)
  have mapped : ∀ v, UserByte k v → ∃ phys flags, e.2.map (pageOf v) = some (phys,flags) ∧ PageAligned phys ∧
      paged k.cr3 k.phys.mem v = phys &&& 0xFFFFF000#32 ||| v &&& 0xFFF#32 := by
    rintro v ⟨t,found,user⟩
    rw [paged,found,Option.map_some,Option.getD_some]
    rw [running.cr3,dir,translate_correct space.rep,Option.some_inj] at found
    subst found
    cases target : e.2.map (pageOf v) with
    | none => simp [view,target] at user
    | some pair =>
      obtain ⟨phys,flags⟩ := pair
      refine ⟨phys,flags,rfl,space.aligned _ (space.mapped _ _ _ target).1,?_⟩
      simp only [view,target]
  obtain ⟨phys,flags,targetV,alignedV,atV⟩ := mapped v ownV
  obtain ⟨phys',flags',targetW,alignedW,atW⟩ := mapped w ownW
  rw [atV,atW] at same
  -- The frames are the same, so the pages are, and so are the offsets.
  have frame : phys = phys' := by
    refine page_ext alignedV alignedW ?_
    rw [← pageOf_join phys v,same,pageOf_join]
  subst frame
  have page : pageOf v = pageOf w := space.once _ _ _ _ _ targetV targetW
  have offset : v &&& 0xFFF#32 = w &&& 0xFFF#32 := by
    have low := congrArg (· &&& 0xFFF#32) same
    simp only [or_flags_and (and_page_aligned phys) (show (0xFFF#32 : Word).toNat < 4096 by decide)] at low
    rwa [BitVec.and_assoc,BitVec.and_assoc,BitVec.and_self] at low
  rw [← page_or_offset v,page,offset,page_or_offset]

/-- The caller's own pages are ordinary memory. -/
theorem plain_user (kept : Kept l b start k log thread book) (bootUsed : is_used start (pageOf b.page_directory) = true)
    (running : Running k i) {buf : Word} {n : Nat} (short : n ≤ 2^32)
    (own : ∀ j < n, UserByte k (buf+BitVec.ofNat 32 j)) : Plain (paged k.cr3) k.phys.mem buf n := by
  refine ⟨fun m off j below => ?_,fun j below j' below' same => ?_⟩
  · have unreached : ∀ a, ¬ Reached k a → m a = k.phys.mem a := by
      intro a outside
      refine off a (fun j below here => outside ?_)
      obtain ⟨t,found,user⟩ := own j below
      refine ⟨_,t,found,user,?_⟩
      rw [here,paged,found]
      rfl
    rw [paged,translate_kept kept bootUsed running unreached]
    rfl
  · exact offset_inj (by omega) (by omega) (user_bytes_apart kept running (own j below) (own j' below') same)

end

/-! ### System calls -/

theorem putAll_mem (x : Access) (t : Touched) (buf : Word) (bytes : List Byte) :
    (t.putAll x buf bytes).mem = stores x t.mem buf bytes bytes.length := by
  induction bytes using List.reverseRecOn generalizing t buf with
  | nil => rfl
  | append_singleton bytes b ih =>
    have before : ∀ n ≤ bytes.length, stores x t.mem buf (bytes++[b]) n = stores x t.mem buf bytes n := by
      intro n within
      induction n with
      | zero => rfl
      | succ n step =>
        have here : (bytes++[b])[n]? = bytes[n]? := List.getElem?_append_left (by omega)
        rw [stores,stores,Nat.fold_succ,Nat.fold_succ,← stores,← stores,step (by omega),here]
    rw [putAll_append,List.length_append,List.length_singleton,stores,Nat.fold_succ,← stores,before _ (le_refl _),
      ← ih,List.getElem?_concat_length,Option.getD_some]
    rfl

section
variable {p : Program} {s : State} {a : System.State}

/-- Only one call takes the line. -/
theorem outcome_line (p : Program) (s : State) (arguments : SyscallRegs) (noRead : arguments.eax ≠ SYS_READ) :
    (s.outcome p arguments).env.line = s.line := by
  apply syscall_dispatch_cases (P := fun o => o.env.line = s.line)
  case read => exact fun isRead => absurd isRead noRead
  all_goals intros; rfl

/-- Only one call changes more of the kernel than memory. -/
theorem outcome_memory (p : Program) (s : State) (arguments : SyscallRegs) (noSpawn : arguments.eax ≠ SYS_SPAWN) :
    ∃ m, (s.outcome p arguments).env.kernel = s.cpu.kernel.setMem m := by
  obtain ⟨t,_,kernel,_⟩ := syscall_puts s.access p.linked.process_start_trampoline ⟨s.cpu.kernel,p.rootfs,s.line,s.fb⟩ noSpawn
  exact ⟨t.mem,kernel⟩

/-- `SYS_READ` in the two models of the kernel. -/
theorem outcome_read (before : Matches p s a) (buf max : Word) :
    let o := s.outcome p ⟨max,buf,SYS_READ⟩
    (System.finish (machine p) a (.read buf max)).kernel = o.env.kernel ∧
      (System.finish (machine p) a (.read buf max)).line = o.env.line ∧
      System.finished a (.read buf max) = .read o.eax ∧
      ∀ j < o.eax.toNat, buf+BitVec.ofNat 32 j ∈ o.stored := by
  have memory := putAll_mem s.access ⟨s.cpu.mem,[],[]⟩ buf (keyboard_read_line s.line max).1
  have short := read_line_length s.line max
  have bound := max.isLt
  refine ⟨?_,?_,?_,?_⟩
  · change a.kernel.setMem (stores (paged a.kernel.cr3) a.kernel.phys.mem buf (keyboard_read_line a.line max).1
        (keyboard_read_line a.line max).1.length) =
      s.cpu.kernel.setMem (Touched.putAll s.access ⟨s.cpu.mem,[],[]⟩ buf (keyboard_read_line s.line max).1).mem
    rw [before.kernel,before.line,memory]
    rfl
  · change (keyboard_read_line a.line max).2 = (keyboard_read_line s.line max).2
    rw [before.line]
  · change System.Event.read _ = System.Event.read (BitVec.ofNat 32 (keyboard_read_line s.line max).1.length)
    rw [before.line]
  · intro j below
    change j < (BitVec.ofNat 32 (keyboard_read_line s.line max).1.length).toNat at below
    rw [BitVec.toNat_ofNat,Nat.mod_eq_of_lt (by omega)] at below
    exact CallerBuffers.stored_putAll _ _ _ _ below

end

/-! ### One step -/

/-- The results of the calls of `process_create`, the oldest first. -/
def logged (s : State) : List Int := s.log.reverse.map Creation.result

/-- The kernel can follow the machine. -/
def Followed (p : Program) (s s' : State) (a : System.State) : Prop := ∃ new, Reaches p s' a new ∧ logged s' = logged s ++ new

section
variable {p : Program} {b : Setup} {start : Frames} {s s' : State} {a : System.State} {event : Event} {i : Slot} {e : Entry}
  {point : Point} {book : List (Creation × Ghost)}

theorem followed_of (reaches : Reaches p s' a []) (log : s'.log = s.log) : Followed p s s' a :=
  ⟨[],reaches,by rw [logged,logged,log,List.append_nil]⟩

theorem place_in (inside : s.In i e point) : place s = spotOf e point := by
  obtain ⟨mode,current,thread⟩ := inside
  simp only [place,mode,current,Option.map_some,Option.getD_some,thread,spot]

theorem place_set {mode : Mode} (inKernel : mode = .kernel) (current : s.cpu.kernel.current = some i) (e : Entry)
    (point : Point) : place { s.setThread i (.inside e point) with mode := mode } = spotOf e point :=
  place_in ⟨inKernel,current,thread_self i _⟩

theorem inv_notWild {l : Linked} (inv : Inv l b start s) : s.mode ≠ .wild := by
  intro wild
  have positioned := inv.positioned
  simp only [Positioned,wild] at positioned

theorem lands_log {l : Linked} {c : Cpu} (lands : Lands l s i c event s') : s'.log = s.log := by
  cases lands <;> rfl

theorem switches_log {l : Linked} (switched : KernelThreads.Switches l s i e point event s') : s'.log = s.log := by
  obtain ⟨next,_,_,_,_,_,_,lands⟩ := switched
  exact (lands_log lands).trans rfl

/-- The C code of an entry moves on, and the kernel with it. -/
theorem matches_moved (before : Matches p s a) (inside : s.In i e point) (running : Running s.cpu.kernel i) (next : Point) :
    Matches p (s.setThread i (.inside e next)) { a with cpu := spotOf e next } := by
  refine ⟨before.kernel,before.rootfs,before.line,?_,?_,?_⟩
  · exact (place_set inside.1 inside.2.1 e next).symm
  · intro j ready
    rw [thread_of_ne (running_other running ready)]
    exact before.saved j ready
  · intro earlier
    have mode : (s.setThread i (.inside e next)).mode = .kernel := inside.1
    simp [mode] at earlier

/-- `schedule`, however it was called. -/
theorem schedules_reaches (before : Matches p s a) (inside : Inside p.linked b start s i e book) (found : s'.mode ≠ .wild)
    {now : Point} (here : s.In i e now) (schedules : Schedules p.linked s i e point event s')
    (calls : ∀ m esp, System.Step (machine p) { a with kernel := a.kernel.setMem m } .silent
      (System.yield { a with kernel := a.kernel.setMem m } esp (spotOf e point))) : Followed p s s' a := by
  cases schedules with
  | stays alone =>
    refine followed_of (reaches_work a.kernel.phys.mem (reaches_silent (calls _ 0#32) (reaches_here ?_))) rfl
    have stays : System.yield { a with kernel := a.kernel.setMem a.kernel.phys.mem } 0#32 (spotOf e point) =
        { a with cpu := spotOf e point } := by
      have current : (a.kernel.setMem a.kernel.phys.mem).current = some i := by rw [before.kernel]; exact here.2.1
      have none : next_ready (a.kernel.setMem a.kernel.phys.mem).procs i = none := by rw [before.kernel]; exact alone
      simp only [System.yield,current,none]
      rfl
    rw [stays]
    exact matches_moved before here inside.running point
  | switches _ _ switched =>
    obtain ⟨m,esp,after⟩ := switches_matches switched found (inside_aligned inside) here.2.1
      (running_notReady inside.running) before.kernel before.rootfs before.line before.saved
    exact followed_of (reaches_work m (reaches_silent (calls m esp) (reaches_here after))) (switches_log switched)

/-- The machine has done nothing but work in its memory. -/
theorem followed_work (before : Matches p s a) {m : Memory} (kernel : s'.cpu.kernel = s.cpu.kernel.setMem m)
    (line : s'.line = s.line) (cpu : place s' = place s)
    (threads : ∀ j, (s.cpu.kernel.procs j).state = .ready → spot (s'.thread j) = spot (s.thread j))
    (early : s'.mode = .boot ∨ s'.mode = .launching → ∀ j, s'.thread j = .idle ∨ s'.thread j = .fresh)
    (log : s'.log = s.log) : Followed p s s' a :=
  followed_of (reaches_work m (reaches_here (matches_work before kernel line cpu threads early))) log

/-- `process_create`, with what is left in memory when its caller goes on. -/
theorem create_reaches (before : Matches p s a) {name : List Byte} (calls : a.cpu = .boot ∨ a.cpu = .user) (m : Memory)
    (kernel : s'.cpu.kernel = (s.create p name).kernel.setMem m) (line : s'.line = s.line)
    (cpu : place s' = place s)
    (threads : ∀ j, ((s.create p name).kernel.procs j).state = .ready →
      spot (s'.thread j) = spot (withNew s.thread (s.create p name).slot j))
    (early : s'.mode = .boot ∨ s'.mode = .launching → ∀ j, s'.thread j = .idle ∨ s'.thread j = .fresh)
    (log : s'.log = s.create p name :: s.log) : Followed p s s' a := by
  have same : System.spawn (machine p) a name = s.create p name := by
    rw [System.spawn,before.kernel,before.rootfs]
    rfl
  have table : (s.create p name).Table s.cpu.kernel := process_create_table ..
  have step : System.Step (machine p) a (.created (s.create p name).result) (System.afterSpawn a (s.create p name)) := by
    rcases calls with boot | user
    · rw [← same]
      exact .bootCreate a name boot
    · rw [← same]
      exact .sysSpawn a name user
  refine ⟨_,reaches_step step (by simp) (reaches_work m (reaches_here ⟨?_,?_,?_,?_,?_,early⟩)),?_⟩
  · rw [kernel]
    rfl
  · exact before.rootfs
  · exact before.line.trans line.symm
  · exact before.cpu.trans cpu.symm
  · intro j ready
    rw [kernel] at ready
    have isReady : ((s.create p name).kernel.procs j).state = .ready := ready
    rw [threads j isReady]
    rcases table_slots table j with ⟨other,old⟩ | ⟨slot,_⟩
    · rw [old] at isReady
      rw [withNew_of_ne other]
      refine Eq.trans ?_ (before.saved j isReady)
      cases filled : (s.create p name).slot with
      | none => simp only [System.afterSpawn,filled]
      | some new =>
        have ne : j ≠ new := fun same => other (by rw [filled,same])
        simp only [System.afterSpawn,filled,Function.update_of_ne ne]
    · simp only [System.afterSpawn,slot,withNew,Function.update_self,spot]
  · rw [logged,logged,log,List.reverse_cons,List.map_append]
    rfl

/-- The C code of an entry moves on, but the kernel is not told. -/
theorem matches_stays (before : Matches p s a) (inside : s.In i e point) (running : Running s.cpu.kernel i) {next : Point}
    (same : spotOf e next = spotOf e point) : Matches p (s.setThread i (.inside e next)) a := by
  have moved := matches_moved before inside running next
  rw [same,← place_in inside,← before.cpu] at moved
  exact moved

/-- An entry from user mode. -/
theorem entered_followed (before : Matches p s a) (user : s.mode = .user) (running : Running s.cpu.kernel i) {c : Cpu}
    (kernel : c.kernel = s.cpu.kernel.setMem c.mem) (e : Entry) :
    Followed p s { s.setThread i (.inside e .called) with cpu := c, mode := .kernel } a := by
  refine followed_work before kernel rfl ?_ (fun j ready => ?_) (by simp) rfl
  · have current : c.kernel.current = some i := by
      rw [kernel]
      exact running.current
    simp only [place,user,current,Option.map_some,Option.getD_some,thread_self,spot,spotOf]
  · exact congrArg spot (thread_of_ne (running_other running ready))

/-- The first process. -/
theorem started_other {k k' : Kernel} (started : scheduler_start k = some k') {j : Slot}
    (ready : (k'.procs j).state = .ready) : (k.procs j).state = .ready := by
  obtain ⟨f,_,rfl⟩ := Option.map_eq_some_iff.mp started
  by_cases same : j = f
  · subst same
    simp [Kernel.setProc] at ready
  · simpa [Kernel.setProc,Function.update_of_ne same] using ready

/-- The system call leaves its result and is done. -/
theorem matches_finished (before : Matches p s a) (inside : s.In i e point) (running : Running s.cpu.kernel i) {o : Outcome}
    {m : Memory} (kernel : o.env.kernel = s.cpu.kernel.setMem m) {b : System.State} (same : b.kernel = o.env.kernel)
    (rootfs : b.rootfs = a.rootfs) (line : b.line = o.env.line) (user : b.cpu = .user) (saved : b.saved = a.saved) :
    ∃ m, Matches p (s.finish i e o) { b with kernel := b.kernel.setMem m } := by
  refine ⟨_,⟨congrArg (Kernel.setMem · _) same,rootfs.trans before.rootfs,line,?_,fun j ready => ?_,?_⟩⟩
  · have here : (s.finish i e o).In i { e with eax := o.eax } .done := by
      refine ⟨inside.1,?_,Function.update_self ..⟩
      change o.env.kernel.current = some i
      rw [kernel]
      exact inside.2.1
    rw [place_in here]
    exact user
  · have isReady : (o.env.kernel.procs j).state = .ready := ready
    rw [kernel] at isReady
    have other := running_other running isReady
    rw [show b.saved j = a.saved j by rw [saved],before.saved j isReady]
    exact (congrArg spot (Function.update_of_ne other ..)).symm
  · have mode : (s.finish i e o).mode = .kernel := inside.1
    simp [mode]

theorem ready_matches (before : Matches p s a) (e : Entry) (call : Waiting) :
    System.ready a (waiting e call) = s.ready call := by
  cases call with
  | read => exact congrArg keyboard_has_line before.line
  | wait pid =>
    change (!process_is_alive a.kernel pid) = (!process_is_alive s.cpu.kernel pid)
    rw [before.kernel]

/-- A process that is ready has not exited. -/
theorem exit_ready {j : Slot} (ready : ((s.exit i).cpu.kernel.procs j).state = .ready) :
    j ≠ i ∧ (s.cpu.kernel.procs j).state = .ready := by
  by_cases same : j = i
  · subst same
    simp [State.exit,State.setKernel,Kernel.setProc] at ready
  · exact ⟨same,by simpa [State.exit,State.setKernel,Kernel.setProc,Function.update_of_ne same] using ready⟩

/-- `SYS_EXIT` with another process to go on with. -/
theorem exit_matches (before : Matches p s a) (running : Running s.cpu.kernel i) (aligned : PageAligned (s.stack i))
    (switched : KernelThreads.Switches p.linked (s.exit i) i e .exited event s') (found : s'.mode ≠ .wild) :
    ∃ m esp, Matches p s' (System.exit { a with kernel := a.kernel.setMem m } i esp) := by
  have dead : ((s.exit i).cpu.kernel.procs i).state = .dead := by simp [State.exit,State.setKernel,Kernel.setProc]
  have stack : (s.exit i).stack i = s.stack i := by simp [State.exit,State.setKernel,State.stack,Kernel.setProc]
  refine switches_matches (a := { a with kernel := a.kernel.setProc i { a.kernel.procs i with state := .dead } }) switched found
    (by rw [stack]; exact aligned) running.current (by rw [dead]; decide) ?_ before.rootfs before.line
    (fun j ready => before.saved j (exit_ready ready).2)
  rw [before.kernel]
  rfl

/-- `SYS_EXIT` of the last process. -/
theorem exit_alone (before : Matches p s a) (current : s.cpu.kernel.current = some i)
    (alone : next_ready (s.exit i).cpu.kernel.procs i = none) :
    System.exit a i 0#32 = { a with kernel := (s.exit i).cpu.kernel, cpu := .halted } := by
  have same : (s.exit i).cpu.kernel = a.kernel.setProc i { a.kernel.procs i with state := .dead } := by
    rw [before.kernel]
    rfl
  rw [same] at alone ⊢
  have currentA : (a.kernel.setProc i { a.kernel.procs i with state := .dead }).current = some i := by
    rw [before.kernel]
    exact current
  simp only [System.exit,System.yield,currentA,alone]

/-- The code between two steps of the kernel that both models make moves on. -/
theorem moved_followed (before : Matches p s a) (inside : s.In i e point) (running : Running s.cpu.kernel i) {next : Point}
    (step : System.Step (machine p) a .silent { a with cpu := spotOf e next }) :
    Followed p s (s.setThread i (.inside e next)) a :=
  followed_of (reaches_silent step (reaches_here (matches_moved before inside running next))) rfl

theorem device_log (s : State) (int_no : Word) (scan_code : Byte) : (s.device int_no scan_code).log = s.log := by
  rw [State.device]
  split <;> rfl

/-- `kmain` creates a process: nobody has been in the kernel yet. -/
theorem bootCreate_followed (before : Matches p s a) (name : List Byte) (boot : s.mode = .boot) :
    Followed p s (s.afterCreate (s.create p name)) a := by
  refine create_reaches before (.inl ?_) _ rfl rfl ?_ (fun _ _ => rfl) (fun _ j => ?_) rfl
  · rw [before.cpu,place,boot]
  · simp only [place,boot,State.afterCreate,State.setKernel]
  · by_cases new : (s.create p name).slot = some j
    · have isNew : (s.afterCreate (s.create p name)).thread j = .fresh := by
        simp only [State.afterCreate,new,withNew,Function.update_self]
      exact .inr isNew
    · have old : (s.afterCreate (s.create p name)).thread j = s.thread j := withNew_of_ne new
      rw [old]
      exact before.early (.inl boot) j

/-- `jump_to_process`, up to the load of the new stack. -/
theorem start_followed (before : Matches p s a) {k : Kernel} (after : Word) (boot : s.mode = .boot)
    (started : scheduler_start s.cpu.kernel = some k) (first : k.current = some i) (aligned : s.cpu.regs.esp.toNat % 4 = 0) :
    Followed p s { s with
      cpu := execs p.linked (({ s.cpu with kernel := { k with cr3 := s.cpu.kernel.cr3 } }).pushAll
        [(k.procs i).page_dir_phys,(k.procs i).esp,after]) jump_to_process_load
      mode := .launching } a := by
  obtain ⟨m,loads,_⟩ := jump_loads p.linked (c := { s.cpu with kernel := { k with cr3 := s.cpu.kernel.cr3 } }) aligned
    (k.procs i).page_dir_phys (k.procs i).esp after
  have running := (started_running started first).2
  have step : System.Step (machine p) a .silent { a with kernel := k, cpu := .user } :=
    .start a (by rw [before.cpu,place,boot]) k (by rw [before.kernel]; exact started)
  refine followed_of (reaches_silent step (reaches_work m (reaches_here ?_))) rfl
  rw [loads]
  refine ⟨?_,before.rootfs,before.line,rfl,fun j ready => before.saved j (started_other started ready),fun _ =>
    before.early (.inl boot)⟩
  change k.setMem m = { k.setMem m with cr3 := (k.procs i).page_dir_phys }
  rw [← running.cr3]
  rfl

/-- The first process starts. -/
theorem launch_followed (inv : Inv p.linked b start s) (before : Matches p s a) (found : s'.mode ≠ .wild)
    (launching : s.mode = .launching) (current : s.cpu.kernel.current = some i)
    (lands : Lands p.linked s i (execs p.linked s.cpu restore) event s') : Followed p s s' a := by
  have positioned := inv.positioned
  simp only [Positioned,launching] at positioned
  obtain ⟨i',running,parked,_⟩ := positioned
  have same := running_unique running current
  subst same
  -- Nobody has been in the kernel so far.
  have fresh : s.thread i' = .fresh := by
    rcases before.early (.inr launching) i' with idle | fresh
    · rw [idle] at parked
      exact parked.elim
    · exact fresh
  refine followed_of (reaches_here (lands_matches lands found ?_ before.rootfs before.line ?_ ?_ fun j ready => ?_))
    (lands_log lands)
  · rw [restore_kernel,before.kernel]
  · rw [fresh,before.cpu,place,launching]
    rfl
  · rw [restore_kernel]
    exact current
  · rw [restore_kernel] at ready
    exact ⟨running_other running ready,before.saved j ready⟩

/-- An interrupt of the kernel that has left memory alone. -/
theorem nested_followed (before : Matches p s a) (interruptible : s.Interruptible i) {c : Cpu} {m : Memory}
    (kernel : c.kernel = s.cpu.kernel.setMem m) (int_no : Word) (scan_code : Byte) :
    Followed p s (({ s with cpu := c }).device int_no scan_code) a := by
  have current : c.kernel.current = s.cpu.kernel.current := by
    rw [kernel]
    rfl
  have cpu : place { s with cpu := c } = place s := by simp only [place,current]
  have after : Matches p { s with cpu := c } _ := matches_work before kernel rfl cpu (fun _ _ => rfl) before.early
  refine followed_of (reaches_work m (reaches_device after ?_ _ _)) (device_log ..)
  change a.cpu = .boot ∨ a.cpu = .user ∨ ∃ call, a.cpu = .asleep call
  rw [before.cpu]
  rcases interruptible with ⟨launching,_⟩ | ⟨e,call,asleep⟩
  · exact .inr (.inl (by rw [place,launching]))
  · exact .inr (.inr ⟨_,place_in asleep⟩)

theorem sysExit_followed (before : Matches p s a) (isInside : Inside p.linked b start s i e book) (found : s'.mode ≠ .wild)
    (inside : s.In i e .called) (switched : KernelThreads.Switches p.linked (s.exit i) i e .exited event s') :
    Followed p s s' a := by
  have user : a.cpu = .user := before.cpu.trans (place_in inside)
  have log : s'.log = (s.exit i).log := switches_log switched
  obtain ⟨m,esp,after⟩ := exit_matches before isInside.running (inside_aligned isInside) switched found
  have current : (a.kernel.setMem m).current = some i := by
    rw [before.kernel]
    exact inside.2.1
  have step : System.Step (machine p) { a with kernel := a.kernel.setMem m } (.exited _) _ := .sysExit _ i esp user current
  exact followed_of (reaches_work m (reaches_step step (by simp) (reaches_here after))) log

theorem sysExitLast_followed (before : Matches p s a) (inside : s.In i e .called)
    (alone : next_ready (s.exit i).cpu.kernel.procs i = none) : Followed p s { s.exit i with mode := .halted } a := by
  have user : a.cpu = .user := before.cpu.trans (place_in inside)
  have current : a.kernel.current = some i := by
    rw [before.kernel]
    exact inside.2.1
  refine followed_of (reaches_step (.sysExit a i 0#32 user current) (by simp) (reaches_here ?_)) rfl
  rw [exit_alone before inside.2.1 alone]
  exact ⟨rfl,before.rootfs,before.line,rfl,fun j ready => before.saved j (exit_ready ready).2,by simp⟩

/-- `SYS_SPAWN` leaves the caller's own slot as it is. -/
theorem sysSpawn_followed (before : Matches p s a) (running : Running s.cpu.kernel i) (inside : s.In i e .called)
    (name : List Byte) :
    Followed p s ((s.afterCreate (s.create p name)).result i e (s.regs i) (BitVec.ofInt 32 (s.create p name).result)) a := by
  have table : (s.create p name).Table s.cpu.kernel := process_create_table ..
  have same : (s.create p name).kernel.procs i = s.cpu.kernel.procs i := by
    rcases table_slots table i with old | ⟨_,dead,_⟩
    · exact old.2
    · exact absurd dead (running_alive running)
  have here : ((s.afterCreate (s.create p name)).result i e (s.regs i) (BitVec.ofInt 32 (s.create p name).result)).In i
      { e with eax := BitVec.ofInt 32 (s.create p name).result } .done :=
    ⟨inside.1,table.current.trans inside.2.1,Function.update_self ..⟩
  refine create_reaches before (.inr (before.cpu.trans (place_in inside))) _ rfl rfl ?_ (fun j ready => ?_) ?_ rfl
  · rw [place_in here,place_in inside]
    rfl
  · have other : j ≠ i := by
      rintro rfl
      rw [same] at ready
      exact running_notReady running ready
    exact congrArg spot (Function.update_of_ne other ..)
  · simp [here.1]

/-- A call that neither creates a process nor takes the line. -/
theorem matches_quiet (before : Matches p s a) (inside : s.In i e point) (running : Running s.cpu.kernel i)
    (arguments : SyscallRegs) (noSpawn : arguments.eax ≠ SYS_SPAWN) (noRead : arguments.eax ≠ SYS_READ) :
    ∃ m m', Matches p (s.finish i e (s.outcome p arguments))
      { a with kernel := (a.kernel.setMem m).setMem m', cpu := .user } := by
  have line := outcome_line p s arguments noRead
  obtain ⟨m,kernel⟩ := outcome_memory p s arguments noSpawn
  obtain ⟨m',after⟩ := matches_finished (b := { a with kernel := a.kernel.setMem m, cpu := .user }) before inside running
    kernel (by rw [kernel,before.kernel]) rfl (by rw [line]; exact before.line) rfl rfl
  exact ⟨m,m',after⟩

/-- `SYS_READ` with a line there is: the line is stored where the caller has room for it. -/
theorem read_followed (bootUsed : is_used start (pageOf b.page_directory) = true) (before : Matches p s a)
    (isInside : Inside p.linked b start s i e book) (inside : s.In i e (.test .read)) (isReady : s.ready .read = true)
    {o : Outcome} (outcome : s.outcome p ⟨e.regs.ecx,e.regs.ebx,SYS_READ⟩ = o)
    (own : ∀ virt ∈ o.stored, UserByte s.cpu.kernel virt) : Followed p s (s.finish i e o) a := by
  have test : a.cpu = .test (waiting e .read) := before.cpu.trans (place_in inside)
  have step : System.Step (machine p) a _ _ :=
    .testReady a (waiting e .read) test ((ready_matches before e .read).trans isReady)
  obtain ⟨kernel,line,shows,stored⟩ := outcome_read before e.regs.ebx e.regs.ecx
  obtain ⟨_,memory⟩ := outcome_memory p s ⟨e.regs.ecx,e.regs.ebx,SYS_READ⟩ (show SYS_READ ≠ SYS_SPAWN by decide)
  rw [outcome] at kernel line shows stored memory
  obtain ⟨m,after⟩ := matches_finished before inside isInside.running memory kernel rfl line rfl rfl
  refine followed_of (reaches_step step (fun buf max eax event here => ?_) (reaches_work m (reaches_here after))) rfl
  cases shows.symm.trans event
  cases test.symm.trans here
  rw [before.kernel]
  exact plain_user isInside.kept bootUsed isInside.running o.eax.isLt.le (fun j below => own _ (stored j below))

theorem wait_followed (before : Matches p s a) (running : Running s.cpu.kernel i) {pid : Word}
    (inside : s.In i e (.test (.wait pid))) (isReady : s.ready (.wait pid) = true) :
    Followed p s (s.finish i e (s.outcome p ⟨e.regs.ecx,e.regs.ebx,SYS_WAIT⟩)) a := by
  have test : a.cpu = .test (waiting e (.wait pid)) := before.cpu.trans (place_in inside)
  have step : System.Step (machine p) a _ _ :=
    .testReady a (waiting e (.wait pid)) test ((ready_matches before e (.wait pid)).trans isReady)
  obtain ⟨m,m',after⟩ := matches_quiet before inside running ⟨e.regs.ecx,e.regs.ebx,SYS_WAIT⟩
    (show SYS_WAIT ≠ SYS_SPAWN by decide) (show SYS_WAIT ≠ SYS_READ by decide)
  exact followed_of (reaches_step step (by simp [waiting,System.finished])
    (reaches_work m (reaches_work m' (reaches_here after)))) rfl

/-- The way back to user mode: the trampoline of the entry finds its frame. -/
theorem returns_followed (before : Matches p s a) (isInside : Inside p.linked b start s i e book) (inside : s.In i e .done)
    {c : Cpu} (esp : s.cpu.regs.esp = slot (s.stack i) e.bottom)
    (left : leave p.linked (e.after p.linked) e.code_after s.cpu = some c) :
    Followed p s { s.setThread i .idle with cpu := c, mode := .user } a := by
  rw [inside_leaves isInside esp] at left
  cases left
  refine followed_of (reaches_here ⟨before.kernel,before.rootfs,before.line,before.cpu.trans (place_in inside),
    fun j ready => ?_,by simp⟩) rfl
  have other := running_other isInside.running ready
  exact (before.saved j ready).trans (congrArg spot (thread_of_ne other).symm)

/-- Every step of the machine can be followed. -/
theorem step_followed (bootUsed : is_used start (pageOf b.page_directory) = true) (data : p.data = KernelData b start)
    (inv : Inv p.linked b start s) (admits : Admits b p s event) (step : KernelThreads.Step p s event s')
    (before : Matches p s a) : Followed p s s' a := by
  have found : s'.mode ≠ .wild := inv_notWild (step_inv bootUsed data inv admits step).1
  cases step with
  | bootWork c boot boots =>
    exact followed_work before boots.kernel rfl (by simp only [place,boot]) (fun _ _ => rfl) before.early rfl
  | bootKey scan_code boot =>
    refine followed_of (reaches_device before (.inl ?_) _ _) (device_log ..)
    rw [before.cpu,place,boot]
  | bootCreate name boot => exact bootCreate_followed before name boot
  | nothingToRun boot none =>
    refine followed_of (reaches_silent (.nothingToRun a ?_ ?_) (reaches_here ⟨before.kernel,before.rootfs,before.line,rfl,
      before.saved,by simp⟩)) rfl
    · rw [before.cpu,place,boot]
    · rw [before.kernel]
      exact none
  | start k i after boot started first aligned stack => exact start_followed before after boot started first aligned
  | launch i _ _ launching current lands => exact launch_followed inv before found launching current lands
  | nested i n error_code scan_code j w c interruptible room esp works returns left goesOn =>
    rw [data] at works
    have kernel := (nested_left inv bootUsed interruptible room esp works returns left).1
    exact nested_followed before interruptible kernel _ _
  | nestedLost i n error_code j w interruptible room esp works returns lost => exact absurd rfl found
  | userCode r m user ring3 mem =>
    exact followed_work before rfl rfl (by simp only [place,user]) (fun _ _ => rfl) (by simp [user]) rfl
  | interrupt i n error_code user current =>
    obtain ⟨running,_,ring3,aligned,esp0⟩ := user_stack inv user current
    exact entered_followed before user running (interrupt_enters p.linked aligned ring3 esp0 n error_code).kernel _
  | syscall i user current =>
    obtain ⟨running,_,ring3,aligned,esp0⟩ := user_stack inv user current
    exact entered_followed before user running (syscall_enters p.linked aligned ring3 esp0).kernel _
  | work i e point c inside works =>
    have current : c.kernel.current = s.cpu.kernel.current := by
      rw [works.kernel]
      rfl
    exact followed_work before works.kernel rfl (by simp only [place,current]) (fun _ _ => rfl) before.early rfl
  | handled i e n error_code scan_code inside kind noTick =>
    obtain ⟨book,isInside⟩ := inside_of inv inside
    have after : Matches p (s.setThread i (.inside e .done)) a := matches_stays before inside isInside.running rfl
    exact followed_of (reaches_device after (.inr (.inl (before.cpu.trans (place_in inside)))) _ _) (device_log ..)
  | tick i e n error_code inside kind timer _ _ schedules =>
    obtain ⟨book,isInside⟩ := inside_of inv inside
    exact schedules_reaches before isInside found inside schedules
      (fun m esp => .timer _ esp (before.cpu.trans (place_in inside)))
  | sysExit i e inside kind call _ _ switched =>
    obtain ⟨book,isInside⟩ := inside_of inv inside
    exact sysExit_followed before isInside found inside switched
  | sysExitLast i e inside kind call alone => exact sysExitLast_followed before inside alone
  | sysYield i e inside kind call _ _ schedules =>
    obtain ⟨book,isInside⟩ := inside_of inv inside
    exact schedules_reaches before isInside found inside schedules
      (fun m esp => .sysYield _ esp (before.cpu.trans (place_in inside)))
  | sysSpawn i e name inside kind call named =>
    obtain ⟨book,isInside⟩ := inside_of inv inside
    exact sysSpawn_followed before isInside.running inside name
  | sysRead i e inside kind call =>
    obtain ⟨book,isInside⟩ := inside_of inv inside
    exact moved_followed before inside isInside.running (.sysWaiting a _ (before.cpu.trans (place_in inside)))
  | sysWait i e inside kind call =>
    obtain ⟨book,isInside⟩ := inside_of inv inside
    exact moved_followed before inside isInside.running (.sysWaiting a _ (before.cpu.trans (place_in inside)))
  | sysAtOnce i e inside kind call =>
    obtain ⟨book,isInside⟩ := inside_of inv inside
    simp only [List.mem_cons,List.not_mem_nil,or_false,not_or] at call
    obtain ⟨m,m',after⟩ := matches_quiet before inside isInside.running _ call.2.2.1 call.2.2.2.1
    have user : a.cpu = .user := before.cpu.trans (place_in inside)
    rw [← user] at after
    exact followed_of (reaches_work m (reaches_work m' (reaches_here after))) rfl
  | testReady i e call inside kind isReady o outcome =>
    obtain ⟨book,isInside⟩ := inside_of inv inside
    rw [Transparency.inside_arguments isInside kind] at outcome
    cases call with
    | read => exact read_followed bootUsed before isInside inside isReady outcome.symm admits
    | wait pid =>
      rw [outcome]
      exact wait_followed before isInside.running inside isReady
  | testNotReady i e call inside notReady _ _ schedules =>
    obtain ⟨book,isInside⟩ := inside_of inv inside
    refine schedules_reaches before isInside found inside schedules
      (fun m esp => .testNotReady _ (waiting e call) esp (before.cpu.trans (place_in inside)) ?_)
    cases call <;> exact (ready_matches before e _).trans notReady
  | scheduledReady i e call inside isReady =>
    obtain ⟨book,isInside⟩ := inside_of inv inside
    exact moved_followed before inside isInside.running (.scheduledReady a (waiting e call)
      (before.cpu.trans (place_in inside)) ((ready_matches before e call).trans isReady))
  | scheduledNotReady i e call inside notReady =>
    obtain ⟨book,isInside⟩ := inside_of inv inside
    exact moved_followed before inside isInside.running (.scheduledNotReady a (waiting e call)
      (before.cpu.trans (place_in inside)) ((ready_matches before e call).trans notReady))
  | wake i e call inside =>
    obtain ⟨book,isInside⟩ := inside_of inv inside
    exact moved_followed before inside isInside.running (.wake a (waiting e call) (before.cpu.trans (place_in inside)))
  | returns i e c inside esp left =>
    obtain ⟨book,isInside⟩ := inside_of inv inside
    exact returns_followed before isInside inside esp left
  | returnLost i e inside esp lost => exact absurd rfl found

end

/-! ### Whole runs -/

section
variable {b : Setup} {fuel : Nat} {k : Kernel} {fs : FsInstance} (boot : kmain fuel b = some (k,fs)) {l : Linked} {r : Regs}
  (cs : r.cs = KERNEL_CODE_SEGMENT) {line : Line} {fb : Console.Fb} {events : List Event} {s : State}

/-- `System` when `kmain` has called `process_init`. -/
def initial (k : Kernel) (fs : FsInstance) (line : Line) : System.State := ⟨k,fs,line,[],.boot,fun _ => .user⟩

include boot cs

/-- Whatever the machine does from boot on, the kernel's model can do, and creates the
    same processes. -/
theorem run_simulated (run : KernelThreads.Run ⟨l,fs,KernelData b k.phys.frames⟩
    (Admits b ⟨l,fs,KernelData b k.phys.frames⟩) (Transparency.booted k r line fb) events s) :
    Reaches ⟨l,fs,KernelData b k.phys.frames⟩ s (initial k fs line) (logged s) := by
  induction run with
  | refl => exact reaches_here ⟨rfl,rfl,rfl,rfl,fun _ _ => rfl,fun _ _ => .inl rfl⟩
  | step run admits step ih =>
    obtain ⟨before,a,first,here,same⟩ := ih
    obtain ⟨new,⟨more,c,second,there,rfl⟩,log⟩ := step_followed (kmain_image boot bootDir_shares) rfl
      (Transparency.run_inv boot cs run).1 admits step here
    refine ⟨_,c,plainRun_trans first second,there,?_⟩
    rw [log,← same,results,List.filterMap_append]
    rfl

/-- The machine numbers its processes from one on, and no two that are alive have the
    same number. -/
theorem machine_pids (run : KernelThreads.Run ⟨l,fs,KernelData b k.phys.frames⟩
    (Admits b ⟨l,fs,KernelData b k.phys.frames⟩) (Transparency.booted k r line fb) events s) :
    (∃ n, (logged s).filter (· ≠ -1) = (List.range n).map (fun i : Nat => ((i+1 : Nat) : Int))) ∧
      ∀ i j, (s.cpu.kernel.procs i).state ≠ .dead → (s.cpu.kernel.procs j).state ≠ .dead →
        (s.cpu.kernel.procs i).pid = (s.cpu.kernel.procs j).pid → i = j := by
  obtain ⟨shown,a,simulated,here,same⟩ := run_simulated boot cs run
  have accounts := PidLife.run_accounts (s := initial k fs line) ⟨rfl,boot⟩ (plainRun_run simulated)
  have distinct := accounts.distinct
  rw [here.kernel] at distinct
  refine ⟨⟨(PidLife.pids shown).length,?_⟩,distinct⟩
  rw [← same,← pids_results]
  exact accounts.numbers

/-- The lines that the machine has delivered: there is a history of keys and reads that
    leads to the line it holds, in which each read has found the bytes of its line in the
    caller's buffer. -/
theorem machine_lines (run : KernelThreads.Run ⟨l,fs,KernelData b k.phys.frames⟩
    (Admits b ⟨l,fs,KernelData b k.phys.frames⟩) (Transparency.booted k r line fb) events s) :
    ∃ history a, Observed (machine ⟨l,fs,KernelData b k.phys.frames⟩) (initial k fs line) history a ∧
      Matches ⟨l,fs,KernelData b k.phys.frames⟩ s a ∧ (∀ call ∈ reads history, call.plain) ∧
      Delivered (reads history) s.line (history.foldl Editor.see (editor line)) := by
  obtain ⟨shown,a,simulated,here,_⟩ := run_simulated boot cs run
  obtain ⟨history,observed,plain⟩ := plainRun_observed simulated
  refine ⟨history,a,observed,here,plain,?_⟩
  rw [← here.line]
  exact observed_delivered observed

end

end SoKernel.Simulation
