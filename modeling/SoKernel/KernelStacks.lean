import SoKernel.KernelThreads
import SoKernel.StackReach

/-!
The kernel stacks of the processes. What is on the stack of a process depends on
where the process is; it is kept because all that is written is written elsewhere.
-/
namespace SoKernel.KernelStacks
open SoKernel.Words SoKernel.Pages SoKernel.Pfa SoKernel.Paging SoKernel.PageTables SoKernel.Stack SoKernel.Fs
  SoKernel.Process SoKernel.KernelAccess SoKernel.AddressSpace SoKernel.Worlds SoKernel.StackReach SoKernel.Kmain
  SoKernel.Syscalls SoKernel.Processor SoKernel.StackFrames SoKernel.KernelThreads
set_option linter.unusedSimpArgs false

/-! ### What is on a stack -/

/-- The lowest word of the stack that the process relies on. -/
def low : Thread → Nat
  | .idle => 1024
  | .fresh => 1013
  | .inside e _ => e.bottom
  | .suspended _ _ call => wordOf call.regs.esp-5

/-- The frame of the entry is at the end of the stack. -/
structure Framed (l : Linked) (m : Memory) (p : Word) (e : Entry) : Prop where
  user : Ring3 e.regs.cs
  eax : e.kind ≠ .syscall → e.eax = e.regs.eax
  stacked : Stacked m p e.bottom (e.frame l p)

/-- The caller of `switch_context` is in its frames from word `j` of the stack on. -/
structure Suspended (l : Linked) (m : Memory) (p esp : Word) (e : Entry) (call : Cpu) (j : Nat) : Prop where
  room : j+6 ≤ e.bottom
  esp : esp = slot p j
  callEsp : call.regs.esp = slot p (j+5)
  framed : Framed l m p e
  saved : Stacked m p j (switch_frame call.regs ++ [l.switch_context_return])
  stack : ∀ a, pageOf a = pageOf p → j+6 ≤ wordOf a → m a = call.mem a

/-- What is on the stack `p` of a process whose saved stack pointer is `esp`. -/
def Holds (l : Linked) (m : Memory) (p esp : Word) : Thread → Prop
  | .idle => True
  | .fresh => esp = slot p 1013 ∧ Stacked m p 1013 (initial_stack l.process_start_trampoline).reverse
  | .inside e _ => Framed l m p e
  | .suspended e _ call => ∃ j, Suspended l m p esp e call j

/-- The process can be switched to. -/
def Parked : Thread → Prop
  | .fresh => True
  | .suspended _ _ _ => True
  | _ => False

theorem bottom_le (e : Entry) : e.bottom ≤ 1010 := by
  cases kind : e.kind <;> simp [Entry.bottom,kind]

section
variable {l : Linked} {m n : Memory} {p esp : Word}

theorem framed_congr (aligned : PageAligned p) {e : Entry} (framed : Framed l m p e)
    (same : ∀ a, pageOf a = pageOf p → e.bottom ≤ wordOf a → n a = m a) : Framed l n p e :=
  ⟨framed.user,framed.eax,stacked_congr aligned (le_of_eq (e.bottom_frame l p)) (fun a page from_ _ => same a page from_)
    framed.stacked⟩

theorem low_suspended (aligned : PageAligned p) {e : Entry} {point : Point} {call : Cpu} {j : Nat}
    (suspended : Suspended l m p esp e call j) : low (.suspended e point call) = j := by
  have room := suspended.room
  have := bottom_le e
  rw [low,suspended.callEsp,wordOf_slot aligned (by omega)]
  omega

/-- The stack pointer that is saved for a process is where its words begin. -/
theorem parked_esp (aligned : PageAligned p) {t : Thread} (holds : Holds l m p esp t) (parked : Parked t) :
    esp = slot p (low t) ∧ low t ≤ 1013 := by
  cases t with
  | idle => cases parked
  | inside e point => cases parked
  | fresh => exact ⟨holds.1,le_refl _⟩
  | suspended e point call =>
    obtain ⟨j,suspended⟩ := holds
    have room := suspended.room
    have top := bottom_le e
    rw [low_suspended aligned suspended]
    exact ⟨suspended.esp,by omega⟩

/-- Only the words from the lowest on matter. -/
theorem holds_congr (aligned : PageAligned p) {t : Thread} (holds : Holds l m p esp t)
    (same : ∀ a, pageOf a = pageOf p → low t ≤ wordOf a → n a = m a) : Holds l n p esp t := by
  cases t with
  | idle => trivial
  | fresh =>
    exact ⟨holds.1,stacked_congr aligned (by simp [initial_stack]) (fun a page from_ _ => same a page from_) holds.2⟩
  | inside e point => exact framed_congr aligned holds same
  | suspended e point call =>
    obtain ⟨j,suspended⟩ := holds
    rw [low_suspended aligned suspended] at same
    have room := suspended.room
    have top := bottom_le e
    refine ⟨j,room,suspended.esp,suspended.callEsp,?_,?_,?_⟩
    · exact framed_congr aligned suspended.framed (fun a page from_ => same a page (by omega))
    · exact stacked_congr aligned (by simp [switch_frame]; omega) (fun a page from_ _ => same a page from_) suspended.saved
    · exact fun a page from_ => (same a page (by omega)).trans (suspended.stack a page from_)

end

/-! ### The invariant -/

/-- What keeps the processes going, whoever is running: their address spaces are apart,
    and their stacks are in order. -/
structure Kept (l : Linked) (b : Setup) (start : Frames) (k : Kernel) (log : List Creation) (thread : Slot → Thread)
    (book : List (Creation × Ghost)) : Prop where
  separate : Separate start ⟨k,log⟩ book
  steady : Steady b ⟨k,log⟩
  tops : ∀ i, (k.procs i).state ≠ .dead → (k.procs i).kernel_stack_top = slot (k.procs i).kernel_stack 1024
  holds : ∀ i, (k.procs i).state ≠ .dead → Holds l k.phys.mem (k.procs i).kernel_stack (k.procs i).esp (thread i)
  parked : ∀ i, (k.procs i).state = .ready → Parked (thread i)

section
variable {l : Linked} {b : Setup} {start : Frames} {k : Kernel} {log : List Creation} {thread : Slot → Thread}
  {book : List (Creation × Ghost)}

/-- The call that created a process. -/
theorem created_by (kept : Kept l b start k log thread book) {i : Slot} (alive : (k.procs i).state ≠ .dead) :
    ∃ e ∈ book, e.1.slot = some i ∧ (k.procs i).page_dir_phys = e.1.user_dir ∧
      (k.procs i).kernel_stack = e.1.kernel_stack ∧
      Space k.phys.mem e.2.taken e.1.kernel_stack e.1.user_dir e.1.code_pages (user_frames e.1) e.2.tables e.2.map ∧
      e.1.user_dir ≠ 0#32 := by
  obtain ⟨c,logged,slot,nonzero,dir,stack⟩ := kept.separate.slots i alive
  obtain ⟨g,member⟩ := mem_book kept.separate logged
  exact ⟨_,member,slot,dir,stack,((kept.separate.describes _ member).dir nonzero).2,nonzero⟩

theorem stack_aligned (kept : Kept l b start k log thread book) {i : Slot} (alive : (k.procs i).state ≠ .dead) :
    PageAligned (k.procs i).kernel_stack := by
  obtain ⟨e,_,_,_,stack,space,_⟩ := created_by kept alive
  rw [stack]
  exact space.stackAligned

/-- The stack is mapped to itself in the directory of its process. -/
theorem stack_identity (kept : Kept l b start k log thread book) {i : Slot} (alive : (k.procs i).state ≠ .dead) {a : Word}
    (inStack : pageOf a = pageOf (k.procs i).kernel_stack) :
    Paging.translate k.phys.mem (k.procs i).page_dir_phys a = some ⟨a,true,false⟩ := by
  obtain ⟨e,member,slot,dir,stack,space,_⟩ := created_by kept alive
  obtain ⟨above,notStack⟩ := kept.steady.stack e.1 (mem_log kept.separate member) (by simp [slot])
  rw [stack] at inStack
  rw [dir]
  exact space_identity space (by rw [inStack]; exact above) (by rw [inStack]; exact notStack)

/-- Memory that nobody relies on: the kernel's own data, the free part of a kernel
    stack, and the pages that user code of a process reaches. -/
def Loose (b : Setup) (start : Frames) (k : Kernel) (thread : Slot → Thread) (a : Word) : Prop :=
  (is_used start (pageOf a) = true ∧ pageOf a ≠ pageOf b.page_directory) ∨
    ∃ i, (k.procs i).state ≠ .dead ∧
      ((pageOf a = pageOf (k.procs i).kernel_stack ∧ wordOf a < low (thread i)) ∨
        ∃ virt t, translate k.phys.mem (k.procs i).page_dir_phys virt = some t ∧ t.user = true ∧ pageOf a = pageOf t.phys)

/-- A frame that a call has taken was not in use at the start. -/
theorem taken_fresh (kept : Kept l b start k log thread book) {e : Creation × Ghost} (member : e ∈ book) {f : Nat}
    (taken : e.2.taken f) : is_used start f = false := (kept.separate.taken e member f taken).1

/-- Nobody relies on it, indeed. -/
theorem loose_apart (kept : Kept l b start k log thread book) (bootUsed : is_used start (pageOf b.page_directory) = true)
    {a : Word} (loose : Loose b start k thread a) :
    (∀ e ∈ book, e.1.user_dir ≠ 0#32 → ¬ Owns e.1.user_dir e.2.tables (pageOf a)) ∧
      pageOf a ≠ pageOf b.page_directory ∧
      ∀ i, (k.procs i).state ≠ .dead → pageOf a = pageOf (k.procs i).kernel_stack → wordOf a < low (thread i) := by
  rcases loose with ⟨used,notDir⟩ | ⟨i,alive,own⟩
  · refine ⟨?_,notDir,?_⟩
    · intro e member nonzero owns
      have fresh := taken_fresh kept member (((kept.separate.describes e member).dir nonzero).2.owned _ owns)
      rw [used] at fresh
      cases fresh
    · intro i alive page
      obtain ⟨e,member,_,_,stack,space,_⟩ := created_by kept alive
      have fresh := taken_fresh kept member space.stackTaken
      rw [← stack,← page,used] at fresh
      cases fresh
  · obtain ⟨e,member,slot,dir,stack,space,nonzero⟩ := created_by kept alive
    -- The frame belongs to the call that created the process, so to no other one.
    obtain ⟨taken,noTable,ownStack⟩ : e.2.taken (pageOf a) ∧ ¬ Owns e.1.user_dir e.2.tables (pageOf a) ∧
        (pageOf a = pageOf (k.procs i).kernel_stack → wordOf a < low (thread i)) := by
      rcases own with ⟨page,below⟩ | ⟨virt,t,found,user,page⟩
      · rw [page,stack]
        exact ⟨space.stackTaken,space.stackApart,fun _ => below⟩
      · rw [dir] at found
        obtain ⟨u,isUser,frame⟩ := user_page (kept.separate.describes e member) nonzero found user
        rw [page,frame,stack]
        exact ⟨space.userTaken u isUser,(space.userApart u isUser).1,fun same => absurd same (space.userApart u isUser).2⟩
    refine ⟨no_table kept.separate member taken noTable,?_,?_⟩
    · intro inDir
      have fresh := taken_fresh kept member taken
      rw [inDir,bootUsed] at fresh
      cases fresh
    · intro j aliveJ page
      obtain ⟨e',member',slot',_,stack',space',_⟩ := created_by kept aliveJ
      have taken' : e'.2.taken (pageOf a) := by
        rw [page,stack']
        exact space'.stackTaken
      have same := taken_unique kept.separate member member' taken taken'
      have isI : j = i := by
        rw [← same,slot] at slot'
        exact (Option.some.inj slot').symm
      rw [isI] at page ⊢
      exact ownStack page

/-- Writing there breaks nothing. -/
theorem kept_mem (kept : Kept l b start k log thread book) (bootUsed : is_used start (pageOf b.page_directory) = true)
    {m : Memory} (loose : ∀ a, m a ≠ k.phys.mem a → Loose b start k thread a) :
    Kept l b start (k.setMem m) log thread book := by
  have apart : ∀ a, m a ≠ k.phys.mem a → _ := fun a changed => loose_apart kept bootUsed (loose a changed)
  refine ⟨?_,?_,kept.tops,?_,kept.parked⟩
  · refine mem_separate kept.separate (fun e member nonzero a owns => ?_)
    by_contra changed
    exact (apart a changed).1 e member nonzero owns
  · refine mem_steady kept.steady (fun a inDir => ?_)
    by_contra changed
    exact (apart a changed).2.1 inDir
  · intro i alive
    refine holds_congr (stack_aligned kept alive) (kept.holds i alive) (fun a page from_ => ?_)
    by_contra changed
    have := (apart a changed).2.2 i alive page
    omega

/-- The stack of one process is used for something else. -/
theorem kept_thread (kept : Kept l b start k log thread book) {i : Slot} {t : Thread}
    (holds : (k.procs i).state ≠ .dead → Holds l k.phys.mem (k.procs i).kernel_stack (k.procs i).esp t)
    (parked : (k.procs i).state = .ready → Parked t) : Kept l b start k log (Function.update thread i t) book := by
  refine ⟨kept.separate,kept.steady,kept.tops,?_,?_⟩
  · intro j alive
    by_cases same : j = i
    · subst same
      rw [Function.update_self]
      exact holds alive
    · rw [Function.update_of_ne same]
      exact kept.holds j alive
  · intro j ready
    by_cases same : j = i
    · subst same
      rw [Function.update_self]
      exact parked ready
    · rw [Function.update_of_ne same]
      exact kept.parked j ready

/-- The processes that are alive when one has died. -/
theorem dead_others {i j : Slot} (alive : ((k.setProc i { k.procs i with state := .dead }).procs j).state ≠ .dead) :
    (k.setProc i { k.procs i with state := .dead }).procs j = k.procs j := by
  have other : j ≠ i := by
    rintro rfl
    simp [Kernel.setProc] at alive
  simp [Kernel.setProc,other]

theorem dead_switches (k : Kernel) (i : Slot) : Worlds.Switches k (k.setProc i { k.procs i with state := .dead }) := by
  refine ⟨rfl,?_,.inl rfl⟩
  intro j alive
  have same := dead_others alive
  rw [same] at alive ⊢
  exact ⟨alive,rfl,rfl⟩

/-- A process dies. -/
theorem kept_dead (kept : Kept l b start k log thread book) (i : Slot) :
    Kept l b start (k.setProc i { k.procs i with state := .dead }) log thread book := by
  have switches := dead_switches k i
  refine ⟨switch_separate kept.separate switches,switch_steady kept.separate kept.steady switches,?_,?_,?_⟩
  · intro j alive
    rw [dead_others alive]
    exact kept.tops j (switches.slots j alive).1
  · intro j alive
    rw [dead_others alive]
    exact kept.holds j (switches.slots j alive).1
  · intro j ready
    rw [dead_others (by simp [ready])] at ready
    exact kept.parked j ready

/-- The processor goes to the next process, and the old one is left in a state to come
    back to. -/
theorem kept_schedule (kept : Kept l b start k log thread book) {old next : Slot} (current : k.current = some old)
    (found : next_ready k.procs old = some next) {esp : Word} {t : Thread} (parked : Parked t)
    (holds : (k.procs old).state ≠ .dead → Holds l k.phys.mem (k.procs old).kernel_stack esp t) :
    Kept l b start (schedule k esp) log (Function.update thread old t) book := by
  have switches := schedule_switches k esp
  obtain ⟨phys,_,_,_,_,procs⟩ := schedule_some esp current found
  refine ⟨switch_separate kept.separate switches,switch_steady kept.separate kept.steady switches,?_,?_,?_⟩
  · intro i alive
    have before := kept.tops i (switches.slots i alive).1
    rw [procs i]
    exact before
  · intro i alive
    have before := (switches.slots i alive).1
    rw [procs i,phys]
    by_cases isOld : i = old
    · subst isOld
      simp only [if_true,Function.update_self]
      exact holds before
    · simp only [isOld,if_false,Function.update_of_ne isOld]
      exact kept.holds i before
  · intro i ready
    by_cases isOld : i = old
    · rw [isOld,Function.update_self]
      exact parked
    · rw [Function.update_of_ne isOld]
      rw [procs i] at ready
      refine kept.parked i ?_
      by_cases isNext : i = next
      · simp [isNext] at ready
      · simpa [isNext,isOld] using ready

/-- `scheduler_start` marks the first process. -/
theorem kept_start (kept : Kept l b start k log thread book) {k' : Kernel} (started : scheduler_start k = some k') :
    Kept l b start k' log thread book := by
  have switches := start_switches started
  obtain ⟨first,found,rfl⟩ := Option.map_eq_some_iff.mp started
  have ready : (k.procs first).state = .ready := by simpa using List.find?_some found
  have procs : ∀ i, (k.setProc first { k.procs first with state := .running }).procs i =
      { k.procs i with state := if i = first then .running else (k.procs i).state } := by
    intro i
    by_cases isFirst : i = first
    · simp [isFirst,Kernel.setProc]
    · simp [isFirst,Kernel.setProc]
  refine ⟨switch_separate kept.separate switches,switch_steady kept.separate kept.steady switches,?_,?_,?_⟩
  · intro i alive
    have before := kept.tops i (switches.slots i alive).1
    simp only [procs i]
    exact before
  · intro i alive
    have before := kept.holds i (switches.slots i alive).1
    simp only [procs i]
    exact before
  · intro i isReady
    simp only [procs i] at isReady
    refine kept.parked i ?_
    by_cases isFirst : i = first
    · simp [isFirst] at isReady
    · simpa [isFirst] using isReady

theorem withNew_of_ne {filled : Option Slot} {i : Slot} (other : filled ≠ some i) : withNew thread filled i = thread i := by
  cases filled with
  | none => rfl
  | some j => exact Function.update_of_ne (fun isJ => other (by rw [isJ])) _ _

/-- A process is created. -/
theorem kept_create (kept : Kept l b start k log thread book) (bootUsed : is_used start (pageOf b.page_directory) = true)
    {fs : FsInstance} {name : List Byte} (fits : Fits b l.process_start_trampoline fs ⟨k,log⟩ (.create name)) {c : Creation}
    (called : c = process_create (paged k.cr3) l.process_start_trampoline fs name k) :
    ∃ book', Kept l b start c.kernel (c :: log) (withNew thread c.slot) book' := by
  obtain ⟨image,steady⟩ := create_steady kept.separate kept.steady bootUsed fits
  have newStack := create_newStack kept.separate kept.steady bootUsed fits
  have table := process_create_table (paged k.cr3) l.process_start_trampoline fs name k
  change Image (process_create (paged k.cr3) l.process_start_trampoline fs name k) k at image
  change Steady b ⟨(process_create (paged k.cr3) l.process_start_trampoline fs name k).kernel,
    process_create (paged k.cr3) l.process_start_trampoline fs name k :: log⟩ at steady
  change NewStack _ (process_create (paged k.cr3) l.process_start_trampoline fs name k) at newStack
  rw [← called] at image steady newStack table
  obtain ⟨g,separate,_⟩ := create_separate kept.separate table image
  -- The other stacks were in use before the call, so it has not written there.
  have untouched : ∀ i, (k.procs i).state ≠ .dead →
      Holds l c.kernel.phys.mem (k.procs i).kernel_stack (k.procs i).esp (thread i) := by
    intro i alive
    refine holds_congr (stack_aligned kept alive) (kept.holds i alive) (fun a page _ => image.off a (fun took => ?_))
    obtain ⟨e,member,_,_,stack,space,_⟩ := created_by kept alive
    have used := (kept.separate.taken e member _ space.stackTaken).2
    change is_used k.phys.frames _ = true at used
    rw [← stack,← page,took.1] at used
    cases used
  refine ⟨(c,g) :: book,separate,steady,?_,?_,?_⟩
  · intro i alive
    rcases table_slots table i with ⟨_,same⟩ | ⟨slot,_⟩
    · rw [same] at alive ⊢
      exact kept.tops i alive
    · obtain ⟨_,_,_,_,_,_,esp,name,procs⟩ := table.filled i slot
      rw [procs,Function.update_self]
      rfl
  · intro i alive
    rcases table_slots table i with ⟨other,same⟩ | ⟨slot,_⟩
    · rw [same] at alive ⊢
      rw [withNew_of_ne other]
      exact untouched i alive
    · obtain ⟨_,_,_,_,_,_,esp,name,procs⟩ := table.filled i slot
      obtain ⟨pointer,stacked⟩ := newStack i slot
      have stack : (c.kernel.procs i).kernel_stack = c.kernel_stack := by simp [procs]
      rw [slot,withNew,Function.update_self,stack]
      exact ⟨pointer,stacked⟩
  · intro i ready
    rcases table_slots table i with ⟨other,same⟩ | ⟨slot,_⟩
    · rw [same] at ready
      rw [withNew_of_ne other]
      exact kept.parked i ready
    · rw [slot,withNew,Function.update_self]
      trivial

end

end SoKernel.KernelStacks
