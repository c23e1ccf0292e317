import SoKernel.AddressSpace
import SoKernel.System

/-!
Runs of the kernel as far as address spaces go. Processes are created, scheduled
and ended in any order, and in between the processes that are alive write to their
user pages and the kernel writes to their kernel stacks. A world keeps, beside the
kernel, a log of all calls of `process_create`, the failed ones included.
-/
namespace SoKernel.Worlds
open SoKernel.Words SoKernel.Pages SoKernel.Pfa SoKernel.Paging SoKernel.PageTables SoKernel.Fs SoKernel.Process
open SoKernel.KernelAccess SoKernel.AddressSpace SoKernel.System
set_option linter.unusedSimpArgs false

structure World where
  kernel : Kernel
  log : List Creation

def World.mem (w : World) : Memory := w.kernel.phys.mem
def World.frames (w : World) : Frames := w.kernel.phys.frames
def World.store (w : World) (a : Word) (v : Byte) : World :=
  { w with kernel := { w.kernel with phys := { w.kernel.phys with mem := write8 w.mem a v } } }

/-- The call of `process_create` for a program. -/
def World.call (mach : Machine) (fs : FsInstance) (w : World) (name : List Byte) : Creation :=
  process_create (mach.access w.kernel) mach.process_start_trampoline fs name w.kernel

inductive Action
  | create (name : List Byte)
  | start
  | schedule
  | exit
  | userStore
  | stackStore

inductive Step (mach : Machine) (fs : FsInstance) : World → Action → World → Prop
  | create (w : World) (name : List Byte) :
      Step mach fs w (.create name) ⟨(w.call mach fs name).kernel,w.call mach fs name :: w.log⟩
  | start (w : World) (k : Kernel) (started : scheduler_start w.kernel = some k) :
      Step mach fs w .start { w with kernel := k }
  | schedule (w : World) (esp : Word) : Step mach fs w .schedule { w with kernel := schedule w.kernel esp }
  | exit (w : World) (cur : Slot) (esp : Word) (current : w.kernel.current = some cur) :
      Step mach fs w .exit
        { w with kernel := schedule (w.kernel.setProc cur { w.kernel.procs cur with state := .dead }) esp }
  /-- A process writes to a page that its directory lets it write to. -/
  | userStore (w : World) (i : Slot) (virt : Word) (t : Translation) (v : Byte) (alive : (w.kernel.procs i).state ≠ .dead)
      (found : translate w.mem (w.kernel.procs i).page_dir_phys virt = some t) (user : t.user = true) :
      Step mach fs w .userStore (w.store t.phys v)
  /-- The kernel writes to the kernel stack of a process. -/
  | stackStore (w : World) (i : Slot) (a : Word) (v : Byte) (alive : (w.kernel.procs i).state ≠ .dead)
      (inStack : pageOf a = pageOf (w.kernel.procs i).kernel_stack) : Step mach fs w .stackStore (w.store a v)

/-- A run in which every action is admitted in the world where it happens. -/
def Run (mach : Machine) (fs : FsInstance) (admits : World → Action → Prop) : World → World → Prop :=
  Relation.ReflTransGen (fun w w' => ∃ action, admits w action ∧ Step mach fs w action w')

/-! ### Switching -/

/-- The processor has gone to another process, or not; no slot has come to life. -/
structure Switches (k k' : Kernel) : Prop where
  phys : k'.phys = k.phys
  slots : ∀ i, (k'.procs i).state ≠ .dead → (k.procs i).state ≠ .dead ∧
    (k'.procs i).page_dir_phys = (k.procs i).page_dir_phys ∧ (k'.procs i).kernel_stack = (k.procs i).kernel_stack
  cr3 : k'.cr3 = k.cr3 ∨ ∃ i, (k.procs i).state ≠ .dead ∧ k'.cr3 = (k.procs i).page_dir_phys

theorem switches_refl (k : Kernel) : Switches k k := ⟨rfl,fun _ alive => ⟨alive,rfl,rfl⟩,.inl rfl⟩

theorem schedule_switches (k : Kernel) (esp : Word) : Switches k (schedule k esp) := by
  cases current : k.current with
  | none =>
    rw [show schedule k esp = k by simp only [schedule,current]]
    exact switches_refl k
  | some old =>
    cases found : next_ready k.procs old with
    | none =>
      rw [schedule_none esp current found]
      exact switches_refl k
    | some next =>
      obtain ⟨phys,_,_,_,cr3,procs⟩ := schedule_some esp current found
      have ready := next_ready_some found
      refine ⟨phys,?_,.inr ⟨next,by simp [ready],cr3⟩⟩
      intro i alive
      rw [procs i] at alive ⊢
      refine ⟨?_,rfl,rfl⟩
      intro dead
      by_cases isNext : i = next
      · rw [isNext,ready] at dead
        cases dead
      · by_cases isOld : i = old ∧ (k.procs old).state = .running
        · rw [isOld.1,isOld.2] at dead
          cases dead
        · simp [isNext,isOld,dead] at alive

theorem exit_switches (k : Kernel) (cur : Slot) (esp : Word) :
    Switches k (schedule (k.setProc cur { k.procs cur with state := .dead }) esp) := by
  have marked : ∀ i, ((k.setProc cur { k.procs cur with state := .dead }).procs i).state ≠ .dead → i ≠ cur := by
    rintro i alive rfl
    simp [Kernel.setProc] at alive
  have others : ∀ i, i ≠ cur → (k.setProc cur { k.procs cur with state := .dead }).procs i = k.procs i := by
    intro i other
    simp [Kernel.setProc,other]
  obtain ⟨phys,slots,cr3⟩ := schedule_switches (k.setProc cur { k.procs cur with state := .dead }) esp
  refine ⟨phys,?_,?_⟩
  · intro i alive
    obtain ⟨before,dir,stack⟩ := slots i alive
    have same := others i (marked i before)
    rw [same] at before dir stack
    exact ⟨before,dir,stack⟩
  · rcases cr3 with same | ⟨i,alive,loaded⟩
    · exact .inl same
    · have same := others i (marked i alive)
      rw [same] at alive loaded
      exact .inr ⟨i,alive,loaded⟩

theorem start_switches {k k' : Kernel} (started : scheduler_start k = some k') : Switches k k' := by
  obtain ⟨first,found,rfl⟩ := Option.map_eq_some_iff.mp started
  have ready : (k.procs first).state = .ready := by simpa using List.find?_some found
  refine ⟨rfl,?_,.inr ⟨first,by simp [ready],by simp [Kernel.setProc]⟩⟩
  intro i alive
  by_cases isFirst : i = first
  · subst isFirst
    exact ⟨by simp [ready],by simp [Kernel.setProc],by simp [Kernel.setProc]⟩
  · have same : (k.setProc first { k.procs first with state := .running }).procs i = k.procs i := by
      simp [Kernel.setProc,isFirst]
    simp only [same] at alive ⊢
    exact ⟨alive,trivial,trivial⟩

/-! ### What keeps address spaces apart -/

/-- What is known of a call in the log, beside what it returned. -/
structure Ghost where
  taken : Nat → Prop
  tables : Nat → Option Word
  map : PageMap

/-- The frames and the directory of a call. -/
structure Describes (m : Memory) (c : Creation) (g : Ghost) : Prop where
  stack : c.kernel_stack ≠ 0#32 → PageAligned c.kernel_stack ∧ g.taken (pageOf c.kernel_stack)
  noDir : c.user_dir = 0#32 → user_frames c = []
  created : c.slot ≠ none → c.user_dir ≠ 0#32
  dir : c.user_dir ≠ 0#32 → c.kernel_stack ≠ 0#32 ∧
    Space m g.taken c.kernel_stack c.user_dir c.code_pages (user_frames c) g.tables g.map

/-- The calls in the log took different frames, all free at the start; and the
    processes that are alive belong to calls in the log. -/
structure Separate (start : Frames) (w : World) (book : List (Creation × Ghost)) : Prop where
  log : book.map Prod.fst = w.log
  zero : is_used w.frames 0 = true
  grows : Grows start w.frames
  describes : ∀ e ∈ book, Describes w.mem e.1 e.2
  taken : ∀ e ∈ book, ∀ f, e.2.taken f → Took start w.frames f
  apart : book.Pairwise (fun e e' => ∀ f, e.2.taken f → ¬ e'.2.taken f)
  slots : ∀ i, (w.kernel.procs i).state ≠ .dead → ∃ c ∈ w.log, c.slot = some i ∧ c.user_dir ≠ 0#32 ∧
    (w.kernel.procs i).page_dir_phys = c.user_dir ∧ (w.kernel.procs i).kernel_stack = c.kernel_stack

section
variable {start : Frames} {w : World} {book : List (Creation × Ghost)}

/-- A frame belongs to one call only. -/
theorem taken_unique (inv : Separate start w book) {e e' : Creation × Ghost} (member : e ∈ book) (member' : e' ∈ book)
    {f : Nat} (taken : e.2.taken f) (taken' : e'.2.taken f) : e = e' := by
  have : Std.Symm (fun e e' : Creation × Ghost => e = e' ∨ ∀ f, e.2.taken f → ¬ e'.2.taken f) :=
    ⟨fun _ _ => Or.imp Eq.symm (fun apart f taken' taken => apart f taken taken')⟩
  have apart := (inv.apart.imp Or.inr).forall_of_forall (fun _ _ => .inl rfl) member member'
  exact apart.resolve_right (fun apart => apart f taken taken')

theorem mem_book (inv : Separate start w book) {c : Creation} (logged : c ∈ w.log) : ∃ g, (c,g) ∈ book := by
  rw [← inv.log] at logged
  obtain ⟨⟨c',g⟩,member,rfl⟩ := List.mem_map.mp logged
  exact ⟨g,member⟩

theorem mem_log (inv : Separate start w book) {e : Creation × Ghost} (member : e ∈ book) : e.1 ∈ w.log := by
  rw [← inv.log]
  exact List.mem_map_of_mem member

/-- Two calls in the log share no frame, in the order of the log. -/
theorem log_pairwise (inv : Separate start w book) {r : Creation → Creation → Prop}
    (apart : ∀ e ∈ book, ∀ e' ∈ book, (∀ f, e.2.taken f → ¬ e'.2.taken f) → r e.1 e'.1) : w.log.Pairwise r := by
  rw [← inv.log,List.pairwise_map]
  exact inv.apart.imp_of_mem (fun member member' disjoint => apart _ member _ member' disjoint)

/-- Switching keeps everything apart. -/
theorem switch_separate (inv : Separate start w book) {k : Kernel} (switches : Switches w.kernel k) :
    Separate start { w with kernel := k } book := by
  have phys := switches.phys
  refine ⟨inv.log,?_,?_,?_,?_,inv.apart,?_⟩
  · simpa only [World.frames,phys] using inv.zero
  · simpa only [World.frames,phys] using inv.grows
  · simpa only [World.mem,phys] using inv.describes
  · simpa only [World.frames,phys] using inv.taken
  · intro i alive
    obtain ⟨before,dir,stack⟩ := switches.slots i alive
    obtain ⟨c,logged,slot,nonzero,sameDir,sameStack⟩ := inv.slots i before
    exact ⟨c,logged,slot,nonzero,dir.trans sameDir,stack.trans sameStack⟩

/-- Address spaces do not change as long as directories and tables do not. -/
theorem mem_separate (inv : Separate start w book) {m : Memory}
    (same : ∀ e ∈ book, e.1.user_dir ≠ 0#32 → ∀ a, Owns e.1.user_dir e.2.tables (pageOf a) → m a = w.mem a) :
    Separate start { w with kernel := w.kernel.setMem m } book := by
  refine ⟨inv.log,inv.zero,inv.grows,?_,inv.taken,inv.apart,inv.slots⟩
  intro e member
  have old := inv.describes e member
  refine ⟨old.stack,old.noDir,old.created,?_⟩
  intro nonzero
  obtain ⟨gotStack,space⟩ := old.dir nonzero
  exact ⟨gotStack,space_congr space (fun _ taken => taken) (same e member nonzero)⟩

/-- A store to a frame that holds no directory and no table changes no address space. -/
theorem store_separate (inv : Separate start w book) {a : Word} (v : Byte)
    (noTable : ∀ e ∈ book, e.1.user_dir ≠ 0#32 → ¬ Owns e.1.user_dir e.2.tables (pageOf a)) :
    Separate start (w.store a v) book := by
  refine mem_separate inv (m := write8 w.mem a v) ?_
  intro e member nonzero b owns
  have other : b ≠ a := by
    rintro rfl
    exact noTable e member nonzero owns
  simp [write8,other]

/-- A frame of one call that is neither directory nor table there is none anywhere. -/
theorem no_table (inv : Separate start w book) {e : Creation × Ghost} (member : e ∈ book) {f : Nat}
    (taken : e.2.taken f) (apart : ¬ Owns e.1.user_dir e.2.tables f) :
    ∀ e' ∈ book, e'.1.user_dir ≠ 0#32 → ¬ Owns e'.1.user_dir e'.2.tables f := by
  intro e' member' nonzero owns
  have taken' := ((inv.describes e' member').dir nonzero).2.owned f owns
  have same := taken_unique inv member member' taken taken'
  subst same
  exact apart owns

/-- Creating a process keeps everything apart. -/
theorem create_separate (inv : Separate start w book) {c : Creation} (table : c.Table w.kernel) (image : Image c w.kernel) :
    ∃ g, Separate start ⟨c.kernel,c :: w.log⟩ ((c,g) :: book) ∧ g.taken = Took w.frames c.kernel.phys.frames := by
  have gotDir : c.slot ≠ none → c.user_dir ≠ 0#32 := by
    intro created
    obtain ⟨i,slot⟩ := Option.ne_none_iff_exists'.mp created
    exact (table.filled i slot).2.2.2.1
  obtain ⟨g,describes,takenIs⟩ : ∃ g : Ghost, Describes c.kernel.phys.mem c g ∧
      g.taken = Took w.frames c.kernel.phys.frames := by
    by_cases zero : c.user_dir = 0#32
    · exact ⟨⟨_,fun _ => none,fun _ => none⟩,⟨image.stack,image.noDir,gotDir,fun nonzero => absurd zero nonzero⟩,rfl⟩
    · obtain ⟨gotStack,tables,map,space,_⟩ := image.dir zero
      exact ⟨⟨_,tables,map⟩,⟨image.stack,image.noDir,gotDir,fun _ => ⟨gotStack,space⟩⟩,rfl⟩
  -- What the earlier calls took was in use before this one.
  have oldUsed : ∀ e ∈ book, ∀ f, e.2.taken f → is_used w.frames f = true :=
    fun e member f taken => (inv.taken e member f taken).2
  have fresh : ∀ e ∈ book, ∀ f, g.taken f → ¬ e.2.taken f := by
    intro e member f taken old
    rw [takenIs] at taken
    have used := oldUsed e member f old
    rw [taken.1] at used
    cases used
  refine ⟨g,⟨by rw [List.map_cons,inv.log],image.grows 0 inv.zero,grows_trans inv.grows image.grows,?_,?_,?_,?_⟩,takenIs⟩
  · intro e member
    rcases List.mem_cons.mp member with rfl | old
    · exact describes
    · have before := inv.describes e old
      refine ⟨before.stack,before.noDir,before.created,?_⟩
      intro nonzero
      obtain ⟨gotStack,space⟩ := before.dir nonzero
      refine ⟨gotStack,space_congr space (fun _ taken => taken) ?_⟩
      intro a owns
      refine image.off a (fun took => ?_)
      exact fresh e old _ (by rw [takenIs]; exact took) (space.owned _ owns)
  · intro e member f taken
    rcases List.mem_cons.mp member with rfl | old
    · rw [takenIs] at taken
      refine ⟨?_,taken.2⟩
      by_contra used
      have usedNow := inv.grows f (by simpa using used)
      rw [taken.1] at usedNow
      cases usedNow
    · exact took_grows image.grows (inv.taken e old f taken)
  · exact List.pairwise_cons.mpr ⟨fun e member => fresh e member,inv.apart⟩
  · intro i alive
    rcases table_slots table i with ⟨_,same⟩ | ⟨slot,_⟩
    · rw [show (World.mk c.kernel (c :: w.log)).kernel.procs i = w.kernel.procs i from same] at alive ⊢
      obtain ⟨c',logged,rest⟩ := inv.slots i alive
      exact ⟨c',List.mem_cons_of_mem _ logged,rest⟩
    · obtain ⟨_,_,_,gotDir,_,_,_,_,procs⟩ := table.filled i slot
      refine ⟨c,List.mem_cons_self,slot,gotDir,?_,?_⟩
      · simp [procs]
      · simp [procs]

/-! ### What user code can reach -/

/-- A page that user code can reach is one of the frames of the call. -/
theorem user_page {m : Memory} {c : Creation} {g : Ghost} (describes : Describes m c g) (nonzero : c.user_dir ≠ 0#32)
    {virt : Word} {t : Translation} (found : translate m c.user_dir virt = some t) (user : t.user = true) :
    ∃ a ∈ user_frames c, pageOf t.phys = pageOf a := by
  obtain ⟨_,space⟩ := describes.dir nonzero
  rw [translate_correct space.rep,Option.some_inj] at found
  subst found
  cases mapped : g.map (pageOf virt) with
  | none => simp [view,mapped] at user
  | some target =>
    obtain ⟨phys,flags⟩ := target
    refine ⟨phys,(space.mapped _ _ _ mapped).1,?_⟩
    simp only [view,mapped]
    exact pageOf_join phys virt

/-- A live process stores to frames of its own call that are neither directory nor table:
    its user code to user pages, and the kernel to its stack. -/
theorem user_target (inv : Separate start w book) {i : Slot} (alive : (w.kernel.procs i).state ≠ .dead) {virt : Word}
    {t : Translation} (found : translate w.mem (w.kernel.procs i).page_dir_phys virt = some t) (user : t.user = true) :
    ∃ e ∈ book, e.2.taken (pageOf t.phys) ∧ ¬ Owns e.1.user_dir e.2.tables (pageOf t.phys) := by
  obtain ⟨c,logged,_,nonzero,dir,_⟩ := inv.slots i alive
  obtain ⟨g,member⟩ := mem_book inv logged
  rw [dir] at found
  obtain ⟨a,isUser,page⟩ := user_page (inv.describes _ member) nonzero found user
  obtain ⟨_,space⟩ := (inv.describes _ member).dir nonzero
  rw [page]
  exact ⟨_,member,space.userTaken a isUser,(space.userApart a isUser).1⟩

theorem stack_target (inv : Separate start w book) {i : Slot} (alive : (w.kernel.procs i).state ≠ .dead) {a : Word}
    (inStack : pageOf a = pageOf (w.kernel.procs i).kernel_stack) :
    ∃ e ∈ book, e.2.taken (pageOf a) ∧ ¬ Owns e.1.user_dir e.2.tables (pageOf a) := by
  obtain ⟨c,logged,_,nonzero,_,stack⟩ := inv.slots i alive
  obtain ⟨g,member⟩ := mem_book inv logged
  obtain ⟨_,space⟩ := (inv.describes _ member).dir nonzero
  rw [inStack,stack]
  exact ⟨_,member,space.stackTaken,space.stackApart⟩

/-- Every step keeps everything apart, as long as the calls of `process_create` do
    what they should. -/
theorem step_separate {mach : Machine} {fs : FsInstance} {action : Action} {w' : World} (inv : Separate start w book)
    (step : Step mach fs w action w')
    (image : ∀ name, action = .create name → Image (w.call mach fs name) w.kernel) :
    ∃ book', Separate start w' book' := by
  cases step with
  | create name =>
    have table := process_create_table (mach.access w.kernel) mach.process_start_trampoline fs name w.kernel
    obtain ⟨g,separate,_⟩ := create_separate inv table (image name rfl)
    exact ⟨_,separate⟩
  | start k started => exact ⟨book,switch_separate inv (start_switches started)⟩
  | schedule esp => exact ⟨book,switch_separate inv (schedule_switches _ esp)⟩
  | exit cur esp current => exact ⟨book,switch_separate inv (exit_switches _ cur esp)⟩
  | userStore i virt t v alive found user =>
    obtain ⟨e,member,taken,noTable⟩ := user_target inv alive found user
    exact ⟨book,store_separate inv v (no_table inv member taken noTable)⟩
  | stackStore i a v alive inStack =>
    obtain ⟨e,member,taken,noTable⟩ := stack_target inv alive inStack
    exact ⟨book,store_separate inv v (no_table inv member taken noTable)⟩

end

/-- A kernel that has created nothing yet. -/
theorem separate_nil {k : Kernel} (zero : is_used k.phys.frames 0 = true) (idle : ∀ i, (k.procs i).state = .dead) :
    Separate k.phys.frames ⟨k,[]⟩ [] where
  log := rfl
  zero := zero
  grows := grows_refl _
  describes := by simp
  taken := by simp
  apart := List.Pairwise.nil
  slots := fun i alive => absurd (idle i) alive

end SoKernel.Worlds
