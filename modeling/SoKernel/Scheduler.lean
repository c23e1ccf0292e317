import SoKernel.System
import SoKernel.FrameCount
import SoKernel.Kmain

/-!
The invariant of the scheduler. From `scheduler_start` on, exactly one process is
running, and `current`, the TSS and CR3 all agree on which; or every process is
dead and the processor is halted.
-/
namespace SoKernel.Scheduler
open SoKernel.Words SoKernel.Pfa SoKernel.Paging SoKernel.Fs SoKernel.Process SoKernel.AddressSpace SoKernel.FrameCount
  SoKernel.System SoKernel.Kmain
set_option linter.unusedSimpArgs false

/-- A point at which some process has the processor. -/
def Live (point : Point) : Prop := point ≠ .boot ∧ point ≠ .halted

/-! ### What a step can do -/

/-- The step leaves the process table and the frames alone. -/
structure Quiet (s t : State) : Prop where
  frames : t.kernel.phys.frames = s.kernel.phys.frames
  procs : t.kernel.procs = s.kernel.procs
  current : t.kernel.current = s.kernel.current
  next_pid : t.kernel.next_pid = s.kernel.next_pid
  esp0 : t.kernel.esp0 = s.kernel.esp0
  cr3 : t.kernel.cr3 = s.kernel.cr3
  saved : t.saved = s.saved
  point : t.cpu = s.cpu ∨ (Live s.cpu ∧ Live t.cpu)

/-- The kinds of steps. -/
inductive Kind (mach : Machine) (s : State) : Event → State → Prop
  | quiet {t : State} {event : Event} (quiet : Quiet s t) (shows : event = .silent ∨ ∃ eax, event = .read eax) :
      Kind mach s event t
  | waited {t : State} (pid : Word) (quiet : Quiet s t) (dead : process_is_alive s.kernel pid = false) :
      Kind mach s (.waited pid) t
  | yield (esp : Word) (point : Point) (before : Live s.cpu) (after : Live point) :
      Kind mach s .silent (System.yield s esp point)
  | spawn (name : List Byte) (boot : s.cpu = .boot ∨ s.cpu = .user) :
      Kind mach s (.created (System.spawn mach s name).result) (afterSpawn s (System.spawn mach s name))
  | exit (cur : Slot) (esp : Word) (user : s.cpu = .user) (current : s.kernel.current = some cur) :
      Kind mach s (.exited (s.kernel.procs cur).pid) (System.exit s cur esp)
  | start (k : Kernel) (boot : s.cpu = .boot) (started : scheduler_start s.kernel = some k) :
      Kind mach s .silent { s with kernel := k, cpu := .user }
  | nothingToRun (boot : s.cpu = .boot) (none : scheduler_start s.kernel = none) :
      Kind mach s .silent { s with cpu := .halted }

theorem live_user : Live .user := ⟨by simp,by simp⟩
theorem live_test (call : Waiting) : Live (.test call) := ⟨by simp,by simp⟩
theorem live_scheduled (call : Waiting) : Live (.scheduled call) := ⟨by simp,by simp⟩
theorem live_asleep (call : Waiting) : Live (.asleep call) := ⟨by simp,by simp⟩

/-- A step that changes at most the memory, the line, the console and the point. -/
theorem quiet_of_same {s t : State} (frames : t.kernel.phys.frames = s.kernel.phys.frames)
    (table : { t.kernel with phys := s.kernel.phys } = s.kernel) (saved : t.saved = s.saved)
    (point : t.cpu = s.cpu ∨ (Live s.cpu ∧ Live t.cpu)) : Quiet s t := by
  obtain ⟨_,_,_,_,_,_⟩ := Kernel.mk.inj table
  exact ⟨frames,‹_›,‹_›,‹_›,‹_›,‹_›,saved,point⟩

theorem step_kind {mach : Machine} {s t : State} {event : Event} (step : Step mach s event t) : Kind mach s event t := by
  cases step with
  | bootKey code boot => exact .quiet (quiet_of_same rfl rfl rfl (.inl rfl)) (.inl rfl)
  | bootCreate name boot => exact .spawn name (.inl boot)
  | start boot k started => exact .start k boot started
  | nothingToRun boot none => exact .nothingToRun boot none
  | timer esp user => exact .yield esp _ (by rw [user]; exact live_user) live_user
  | keyUser code user => exact .quiet (quiet_of_same rfl rfl rfl (.inl rfl)) (.inl rfl)
  | work m => exact .quiet (quiet_of_same rfl rfl rfl (.inl rfl)) (.inl rfl)
  | sysYield esp user => exact .yield esp _ (by rw [user]; exact live_user) live_user
  | sysSpawn name user => exact .spawn name (.inr user)
  | sysExit cur esp user current => exact .exit cur esp user current
  | sysWaiting call user =>
    exact .quiet (quiet_of_same rfl rfl rfl (.inr ⟨by rw [user]; exact live_user,live_test call⟩)) (.inl rfl)
  | testReady call here isReady =>
    have before : Live s.cpu := by rw [here]; exact live_test call
    cases call with
    | read buf max => exact .quiet (quiet_of_same rfl rfl rfl (.inr ⟨before,live_user⟩)) (.inr ⟨_,rfl⟩)
    | wait pid =>
      exact .waited pid (quiet_of_same rfl rfl rfl (.inr ⟨before,live_user⟩)) (by simpa [ready] using isReady)
  | testNotReady call esp here notReady =>
    exact .yield esp _ (by rw [here]; exact live_test call) (live_scheduled call)
  | scheduledReady call here isReady =>
    exact .quiet (quiet_of_same rfl rfl rfl (.inr ⟨by rw [here]; exact live_scheduled call,live_test call⟩)) (.inl rfl)
  | scheduledNotReady call here notReady =>
    exact .quiet (quiet_of_same rfl rfl rfl (.inr ⟨by rw [here]; exact live_scheduled call,live_asleep call⟩)) (.inl rfl)
  | keyAsleep call code here => exact .quiet (quiet_of_same rfl rfl rfl (.inl rfl)) (.inl rfl)
  | wake call here =>
    exact .quiet (quiet_of_same rfl rfl rfl (.inr ⟨by rw [here]; exact live_asleep call,live_test call⟩)) (.inl rfl)

/-! ### The invariant -/

/-- Exactly one slot is running; it is the current one, entries from ring 3 use
    its kernel stack, and its directory is loaded. -/
structure OneRunning (k : Kernel) (cur : Slot) : Prop where
  current : k.current = some cur
  unique : ∀ i, (k.procs i).state = .running ↔ i = cur
  esp0 : k.esp0 = (k.procs cur).kernel_stack_top
  cr3 : k.cr3 = (k.procs cur).page_dir_phys

def AllDead (k : Kernel) : Prop := ∀ i, (k.procs i).state = .dead

/-- The state of the processor fits the process table, and a ready process has
    a point to go on from. -/
structure Consistent (s : State) : Prop where
  booting : s.cpu = .boot → s.kernel.current = none ∧ ∀ i, (s.kernel.procs i).state ≠ .running
  live : Live s.cpu → ∃ cur, OneRunning s.kernel cur
  halted : s.cpu = .halted → AllDead s.kernel
  resumable : ∀ i, (s.kernel.procs i).state = .ready → Live (s.saved i)

section
variable {s : State}

/-- `schedule` keeps the invariant, whether the caller is still running or has
    just been marked dead. -/
theorem yield_consistent {cur : Slot} {point : Point} (esp : Word) (current : s.kernel.current = some cur)
    (unique : ∀ i, (s.kernel.procs i).state = .running → i = cur)
    (caller : (OneRunning s.kernel cur ∧ Live point) ∨ ((s.kernel.procs cur).state = .dead ∧ point = .halted))
    (resumable : ∀ i, (s.kernel.procs i).state = .ready → Live (s.saved i)) : Consistent (yield s esp point) := by
  cases found : next_ready s.kernel.procs cur with
  | none =>
    have stays : yield s esp point = { s with cpu := point } := by simp only [yield,current,found]
    have noReady := next_ready_none found
    rw [stays]
    rcases caller with ⟨running,live⟩ | ⟨dead,rfl⟩
    · exact ⟨fun boot => absurd boot live.1,fun _ => ⟨cur,running⟩,fun halted => absurd halted live.2,resumable⟩
    · refine ⟨by simp,fun live => absurd rfl live.2,?_,resumable⟩
      intro _ i
      -- Nobody is ready, and only the caller could have been running.
      cases state : (s.kernel.procs i).state with
      | dead => rfl
      | ready => exact absurd state (noReady i)
      | running =>
        rw [unique i state,dead] at state
        cases state
  | some next =>
    have switches : yield s esp point =
        { s with kernel := schedule s.kernel esp, saved := Function.update s.saved cur point,
                 cpu := Function.update s.saved cur point next } := by simp only [yield,current,found]
    obtain ⟨_,_,currentAfter,esp0,cr3,procs⟩ := schedule_some esp current found
    have ready := next_ready_some found
    have live : Live (Function.update s.saved cur point next) := by
      by_cases same : next = cur
      · rcases caller with ⟨running,_⟩ | ⟨dead,_⟩
        · have state := (running.unique cur).mpr rfl
          rw [← same,ready] at state
          cases state
        · rw [same,dead] at ready
          cases ready
      · rw [Function.update_of_ne same]
        exact resumable next ready
    rw [switches]
    refine ⟨fun boot => absurd boot live.1,fun _ => ⟨next,currentAfter,?_,?_,?_⟩,fun halted => absurd halted live.2,?_⟩
    · intro i
      rw [procs]
      by_cases isNext : i = next
      · simp [isNext]
      · simp only [isNext,if_false,iff_false]
        split
        · simp
        · intro running
          have isCur := unique i running
          rename_i notBoth
          exact notBoth ⟨isCur,isCur ▸ running⟩
    · simp only [procs next]
      exact esp0
    · simp only [procs next]
      exact cr3
    · intro i readyAfter
      simp only [procs i] at readyAfter
      by_cases isCur : i = cur
      · subst isCur
        change Live (Function.update s.saved i point i)
        rw [Function.update_self]
        rcases caller with ⟨_,livePoint⟩ | ⟨dead,_⟩
        · exact livePoint
        · rw [dead] at readyAfter
          split at readyAfter
          · cases readyAfter
          · simp at readyAfter
      · change Live (Function.update s.saved cur point i)
        rw [Function.update_of_ne isCur]
        apply resumable
        split at readyAfter
        · cases readyAfter
        · simpa [isCur] using readyAfter

/-- Creating a process fills a dead slot, so the running one stays what it is. -/
theorem spawn_consistent (inv : Consistent s) {mach : Machine} (name : List Byte) (calls : s.cpu = .boot ∨ s.cpu = .user) :
    Consistent (afterSpawn s (spawn mach s name)) := by
  have table := process_create_table (mach.access s.kernel) mach.process_start_trampoline s.rootfs name s.kernel
  change (spawn mach s name).Table s.kernel at table
  generalize spawn mach s name = c at table
  have slots := table_slots table
  have running : ∀ i, (c.kernel.procs i).state = .running ↔ (s.kernel.procs i).state = .running := by
    intro i
    rcases slots i with ⟨_,same⟩ | ⟨_,dead,ready,_⟩
    · rw [same]
    · simp [dead,ready]
  refine ⟨?_,?_,?_,?_⟩
  · intro boot
    obtain ⟨none,idle⟩ := inv.booting boot
    exact ⟨table.current.trans none,fun i isRunning => idle i ((running i).mp isRunning)⟩
  · intro live
    obtain ⟨cur,one⟩ := inv.live live
    have same : c.kernel.procs cur = s.kernel.procs cur := by
      rcases slots cur with ⟨_,same⟩ | ⟨_,dead,_⟩
      · exact same
      · rw [(one.unique cur).mpr rfl] at dead
        cases dead
    refine ⟨cur,table.current.trans one.current,fun i => (running i).trans (one.unique i),?_,?_⟩
    · exact table.esp0.trans (one.esp0.trans (by rw [← same]; rfl))
    · exact table.cr3.trans (one.cr3.trans (by rw [← same]; rfl))
  · intro halted
    have here : s.cpu = .halted := halted
    rcases calls with boot | user
    · rw [here] at boot; cases boot
    · rw [here] at user; cases user
  · intro i isReady
    change (c.kernel.procs i).state = .ready at isReady
    rcases slots i with ⟨other,same⟩ | ⟨slot,_⟩
    · rw [same] at isReady
      have old := inv.resumable i isReady
      cases slot : c.slot with
      | none => simpa only [afterSpawn,slot] using old
      | some j =>
        have ne : i ≠ j := fun same => other (by rw [slot,same])
        simpa only [afterSpawn,slot,Function.update_of_ne ne] using old
    · simpa only [afterSpawn,slot,Function.update_self] using live_user

theorem exit_consistent (inv : Consistent s) {cur : Slot} (esp : Word) (user : s.cpu = .user)
    (current : s.kernel.current = some cur) : Consistent (exit s cur esp) := by
  obtain ⟨cur',one⟩ := inv.live (by rw [user]; exact live_user)
  have same : cur' = cur := Option.some_inj.mp (one.current.symm.trans current)
  subst same
  refine yield_consistent esp current ?_ (.inr ⟨by simp [Kernel.setProc],rfl⟩) ?_
  · intro i isRunning
    by_cases isCur : i = cur'
    · exact isCur
    · simp only [Kernel.setProc,Function.update_of_ne isCur] at isRunning
      exact (one.unique i).mp isRunning
  · intro i isReady
    by_cases isCur : i = cur'
    · simp [Kernel.setProc,isCur] at isReady
    · simp only [Kernel.setProc,Function.update_of_ne isCur] at isReady
      exact inv.resumable i isReady

theorem start_consistent (inv : Consistent s) {k : Kernel} (boot : s.cpu = .boot)
    (started : scheduler_start s.kernel = some k) : Consistent { s with kernel := k, cpu := .user } := by
  obtain ⟨_,idle⟩ := inv.booting boot
  obtain ⟨first,found,rfl⟩ := Option.map_eq_some_iff.mp started
  refine ⟨by simp,fun _ => ⟨first,rfl,?_,rfl,rfl⟩,by simp,?_⟩
  · intro i
    by_cases same : i = first
    · simp [Kernel.setProc,same]
    · simp [Kernel.setProc,same,idle i]
  · intro i isReady
    by_cases same : i = first
    · simp [Kernel.setProc,same] at isReady
    · simp only [Kernel.setProc,Function.update_of_ne same] at isReady
      exact inv.resumable i isReady

theorem nothingToRun_consistent (inv : Consistent s) (boot : s.cpu = .boot) (none : scheduler_start s.kernel = none) :
    Consistent { s with cpu := .halted } := by
  obtain ⟨_,idle⟩ := inv.booting boot
  have noReady := List.find?_eq_none.mp (Option.map_eq_none_iff.mp none)
  refine ⟨by simp,fun live => absurd rfl live.2,?_,inv.resumable⟩
  intro _ i
  change (s.kernel.procs i).state = .dead
  cases state : (s.kernel.procs i).state with
  | dead => rfl
  | ready => exact absurd state (by simpa using noReady i (List.mem_finRange i))
  | running => exact absurd state (idle i)

theorem quiet_consistent {t : State} (inv : Consistent s) (quiet : Quiet s t) : Consistent t := by
  have resumable : ∀ i, (t.kernel.procs i).state = .ready → Live (t.saved i) := by
    rw [quiet.procs,quiet.saved]
    exact inv.resumable
  have one : Live s.cpu → ∃ cur, OneRunning t.kernel cur := by
    intro live
    obtain ⟨cur,one⟩ := inv.live live
    refine ⟨cur,?_,?_,?_,?_⟩
    · rw [quiet.current,one.current]
    · rw [quiet.procs]
      exact one.unique
    · rw [quiet.procs,quiet.esp0,one.esp0]
    · rw [quiet.procs,quiet.cr3,one.cr3]
  rcases quiet.point with same | ⟨before,after⟩
  · refine ⟨fun boot => ?_,fun live => one (same ▸ live),fun halted => ?_,resumable⟩
    · rw [quiet.current,quiet.procs]
      exact inv.booting (same ▸ boot)
    · rw [AllDead,quiet.procs]
      exact inv.halted (same ▸ halted)
  · exact ⟨fun boot => absurd boot after.1,fun _ => one before,fun halted => absurd halted after.2,resumable⟩

theorem step_consistent {mach : Machine} {t : State} {event : Event} (inv : Consistent s) (step : Step mach s event t) :
    Consistent t := by
  cases step_kind step with
  | quiet quiet shows => exact quiet_consistent inv quiet
  | waited pid quiet dead => exact quiet_consistent inv quiet
  | yield esp point before after =>
    obtain ⟨cur,one⟩ := inv.live before
    exact yield_consistent esp one.current (fun i => (one.unique i).mp) (.inl ⟨one,after⟩) inv.resumable
  | spawn name calls => exact spawn_consistent inv name calls
  | exit cur esp user current => exact exit_consistent inv esp user current
  | start k boot started => exact start_consistent inv boot started
  | nothingToRun boot none => exact nothingToRun_consistent inv boot none

end

/-- The state in which `kmain` has called `process_init`. -/
def Booting (s : State) : Prop := s.cpu = .boot ∧ ∃ k, s.kernel = process_init k

theorem booting_consistent {s : State} (boot : Booting s) : Consistent s := by
  obtain ⟨here,k,init⟩ := boot
  refine ⟨?_,?_,?_,?_⟩
  · intro _
    rw [init]
    exact ⟨rfl,fun i => by simp [process_init]⟩
  · intro live
    exact absurd here live.1
  · intro halted
    rw [here] at halted
    cases halted
  · intro i isReady
    simp [init,process_init] at isReady

theorem run_consistent {mach : Machine} {s t : State} {events : List Event} (boot : Booting s)
    (run : Run mach s events t) : Consistent t := by
  induction run with
  | refl => exact booting_consistent boot
  | step _ step ih => exact step_consistent ih step

/-- From `scheduler_start` on, in every reachable state, exactly one slot is
    running and `current`, the TSS and CR3 belong to it, or every slot is dead and
    the processor is halted; and a process is never created in the slot of the
    current one. -/
theorem one_running_or_all_dead {mach : Machine} {s t : State} {events : List Event} (boot : Booting s)
    (run : Run mach s events t) :
    (t.cpu = .boot ∨ (t.cpu ≠ .halted ∧ ∃ cur, OneRunning t.kernel cur) ∨ (t.cpu = .halted ∧ AllDead t.kernel)) ∧
      ∀ name cur, t.cpu = .user → t.kernel.current = some cur → (spawn mach t name).slot ≠ some cur := by
  have inv := run_consistent boot run
  refine ⟨?_,?_⟩
  · by_cases booting : t.cpu = .boot
    · exact .inl booting
    · by_cases halted : t.cpu = .halted
      · exact .inr (.inr ⟨halted,inv.halted halted⟩)
      · exact .inr (.inl ⟨halted,inv.live ⟨booting,halted⟩⟩)
  · intro name cur user current slot
    obtain ⟨cur',one⟩ := inv.live (by rw [user]; exact live_user)
    have same : cur' = cur := Option.some_inj.mp (one.current.symm.trans current)
    have table := process_create_table (mach.access t.kernel) mach.process_start_trampoline t.rootfs name t.kernel
    have dead := (table.filled cur slot).1
    rw [(one.unique cur).mpr same.symm] at dead
    cases dead

/-- A slot that is ready can be started. -/
theorem scheduler_start_ready {k : Kernel} {i : Slot} (isReady : (k.procs i).state = .ready) :
    ∃ k', scheduler_start k = some k' := by
  refine Option.isSome_iff_exists.mp ?_
  rw [scheduler_start,Option.isSome_map,List.find?_isSome]
  exact ⟨i,List.mem_finRange i,by simpa using isReady⟩

/-- A new process is ready. -/
theorem created_ready {c : Creation} {k : Kernel} (table : c.Table k) {i : Slot} (slot : c.slot = some i) :
    (c.kernel.procs i).state = .ready :=
  (table_new table slot).1

/-- The first process is the only one. -/
theorem created_alone {c : Creation} {k : Kernel} (table : c.Table k) {i : Slot} (slot : c.slot = some i)
    (idle : ∀ j, (k.procs j).state = .dead) {j : Slot} (other : j ≠ i) : (c.kernel.procs j).state = .dead := by
  rw [table_kept table slot other]
  exact idle j

/-- What `scheduler_start` does when there is only one process. -/
theorem start_alone {k k' : Kernel} {i : Slot} (alone : ∀ j, j ≠ i → (k.procs j).state = .dead)
    (started : scheduler_start k = some k') :
    k' = { k.setProc i { k.procs i with state := .running } with
      current := some i
      esp0 := (k.procs i).kernel_stack_top
      cr3 := (k.procs i).page_dir_phys } := by
  obtain ⟨first,found,rfl⟩ := Option.map_eq_some_iff.mp started
  have isReady : (k.procs first).state = .ready := by simpa using List.find?_some found
  have isFirst : first = i := by
    by_contra other
    rw [alone first other] at isReady
    cases isReady
  simp [isFirst,Kernel.setProc]

/-- The first slot is started before all others. -/
theorem start_zero {k : Kernel} (isReady : (k.procs 0).state = .ready) :
    scheduler_start k = some { k.setProc 0 { k.procs 0 with state := .running } with
      current := some 0
      esp0 := (k.procs 0).kernel_stack_top
      cr3 := (k.procs 0).page_dir_phys } := by
  have order : List.finRange MAX_PROCESSES = 0 :: (List.finRange MAX_PROCESSES).drop 1 := by decide
  rw [scheduler_start,order,List.find?_cons_of_pos (by simpa using isReady)]
  simp [Kernel.setProc]

/-- The small PC in `kmain`, before the first process is created. -/
def pcState (frames : Frames) : State :=
  ⟨pcKernel frames,pcFs,Keyboard.empty,[],.boot,fun _ => .boot⟩

/-- `hello` can be created on the small PC. -/
theorem pc_hello {frames : Frames} (ended : PfaInit.pc.init 3 = some frames) :
    ∃ i, (process_create physical 0x100010#32 pcFs helloName (pcKernel frames)).slot = some i := by
  obtain ⟨below,free⟩ := pc_free ended
  obtain ⟨find,pages,_⟩ := pc_programs
  have seenAll : seen physical (pcKernel frames).phys.mem = PfaInit.pc.mem := rfl
  have onePage : program_pages physical pcFs helloName (pcKernel frames) = 1 := by
    rw [program_pages,seenAll,find]
    exact pages
  exact Option.ne_none_iff_exists'.mp (process_create_succeeds physical 0x100010#32 pcFs helloName (by decide) below free
    (by decide) (by rw [onePage]; decide) (show free_slot (pcKernel frames).procs = some 0 from rfl)
    (by rw [seenAll,find]; decide)).1

/-- `hello` is created and started on the small PC. -/
theorem one_running_or_all_dead_pc : ∃ frames event t, Booting (pcState frames) ∧
    Run ⟨fun _ => physical,0x100010#32⟩ (pcState frames) [event,.silent] t ∧ t.cpu = .user ∧
    ∃ cur, OneRunning t.kernel cur := by
  obtain ⟨frames,ended,_⟩ := pc_kmain
  obtain ⟨i,slot⟩ := pc_hello ended
  have boot : Booting (pcState frames) := ⟨rfl,pcKernel frames,rfl⟩
  have table := process_create_table physical 0x100010#32 pcFs helloName (pcKernel frames)
  obtain ⟨k,started⟩ := scheduler_start_ready (created_ready table slot)
  have run : Run ⟨fun _ => physical,0x100010#32⟩ (pcState frames) _ _ :=
    .step (.step .refl (.bootCreate (pcState frames) helloName rfl)) (.start _ rfl k started)
  refine ⟨frames,_,_,boot,run,rfl,?_⟩
  rcases (one_running_or_all_dead boot run).1 with booting | ⟨_,one⟩ | ⟨halted,_⟩
  · cases booting
  · exact one
  · cases halted

/-! ### Runs with three programs -/

def trioMachine : Machine := ⟨fun _ => physical,0x100010#32⟩

/-- The state at the end of `kmain`. -/
def trioState (frames : Frames) : State := ⟨trioKernel frames,pcFs,Keyboard.empty,[],.boot,fun _ => .boot⟩

/-- Any of the programs can be started. -/
theorem trio_spawn {s : State} {count : Nat} (rootfs : s.rootfs = pcFs) (stocked : Stocked s.kernel (count+1))
    {name : List Byte} (known : name ∈ [helloName,shellName,topName]) {slot : Slot}
    (found : free_slot s.kernel.procs = some slot) :
    (spawn trioMachine s name).slot = some slot ∧ Stocked (spawn trioMachine s name).kernel count ∧
      (spawn trioMachine s name).Table s.kernel ∧
      ((spawn trioMachine s name).kernel.procs slot).name = copy_name (s.kernel.procs slot).name name := by
  have same : spawn trioMachine s name = process_create physical 0x100010#32 pcFs name s.kernel := by
    rw [spawn,rootfs]
    rfl
  obtain ⟨slotIs,left⟩ := stocked_create (x := physical) (fun _ _ => rfl) known stocked
    (stocked_physical stocked 0x100010#32 name) found
  rw [same]
  exact ⟨slotIs,left,process_create_table physical 0x100010#32 pcFs name s.kernel,(process_create_name _ _ _ _ _ slotIs).2⟩

/-- `shell` runs in slot 0, slot 1 is in this state and has this name field, and all
    others are dead. -/
structure Scene (s : State) (one : ProcState) (next_pid : Word) (field : Fin PROC_NAME_MAX → Byte) (count : Nat) : Prop where
  user : s.cpu = .user
  rootfs : s.rootfs = pcFs
  current : s.kernel.current = some 0
  zero : (s.kernel.procs 0).state = .running
  pid : (s.kernel.procs 0).pid = 1#32
  one : (s.kernel.procs 1).state = one
  others : ∀ i, i ≠ 0 → i ≠ 1 → (s.kernel.procs i).state = .dead
  field : (s.kernel.procs 1).name = field
  next_pid : s.kernel.next_pid = next_pid
  stocked : Stocked s.kernel count

section Scene
variable {s : State} {next_pid : Word} {field : Fin PROC_NAME_MAX → Byte} {count : Nat}

/-- One of two live processes is ready. -/
theorem next_ready_pair {procs : Slot → Proc} {start i j : Slot} (isReady : (procs i).state = .ready)
    (notReady : (procs j).state ≠ .ready) (others : ∀ n, n ≠ i → n ≠ j → (procs n).state = .dead) :
    next_ready procs start = some i := by
  refine next_ready_only isReady (fun n here => ?_)
  by_contra other
  by_cases isJ : n = j
  · rw [isJ] at here
    exact notReady here
  · rw [others n other isJ] at here
    cases here

/-- `shell` starts a program. -/
theorem scene_spawn (scene : Scene s .dead next_pid field (count+1)) {name : List Byte}
    (known : name ∈ [helloName,shellName,topName]) :
    (spawn trioMachine s name).slot = some 1 ∧ (spawn trioMachine s name).result = next_pid.toInt ∧
      Scene (afterSpawn s (spawn trioMachine s name)) .ready (next_pid+1#32) (copy_name field name) count ∧
      ((afterSpawn s (spawn trioMachine s name)).kernel.procs 1).pid = next_pid ∧
      (afterSpawn s (spawn trioMachine s name)).saved 1 = .user := by
  have isFirst : ∀ j : Slot, j < 1 → j = 0 := by decide
  have found := free_slot_least scene.one (fun j before => by simp [isFirst j before,scene.zero])
  obtain ⟨slot,stocked,table,written⟩ := trio_spawn scene.rootfs scene.stocked known found
  generalize spawn trioMachine s name = c at *
  obtain ⟨_,result,counter,_⟩ := table.filled 1 slot
  obtain ⟨isReady,pid⟩ := table_new table slot
  have kept : c.kernel.procs 0 = s.kernel.procs 0 := table_kept table slot (by decide)
  refine ⟨slot,by rw [result,scene.next_pid],?_,pid.trans scene.next_pid,?_⟩
  · constructor
    case user => exact scene.user
    case rootfs => exact scene.rootfs
    case current => exact table.current.trans scene.current
    case zero => exact (congrArg Proc.state kept).trans scene.zero
    case pid => exact (congrArg Proc.pid kept).trans scene.pid
    case one => exact isReady
    case others =>
      intro i notZero notOne
      exact (congrArg Proc.state (table_kept table slot notOne)).trans (scene.others i notZero notOne)
    case field =>
      rw [← scene.field]
      exact written
    case next_pid =>
      rw [← scene.next_pid]
      exact counter
    case stocked => exact stocked
  · simp only [afterSpawn,slot]
    exact Function.update_self ..

/-- The program gets the processor, exits, and `shell` goes on. -/
theorem scene_exit (scene : Scene s .ready next_pid field count) (saved : s.saved 1 = .user) :
    ∃ t u, Step trioMachine s .silent t ∧ Step trioMachine t (.exited (s.kernel.procs 1).pid) u ∧
      Scene u .dead next_pid field count := by
  have next : next_ready s.kernel.procs 0 = some 1 :=
    next_ready_pair scene.one (by simp [scene.zero]) (fun i notOne notZero => scene.others i notZero notOne)
  obtain ⟨phys,counter,current,_,_,procs⟩ := schedule_some 0#32 scene.current next
  have switched : yield s 0#32 .user =
      { s with kernel := schedule s.kernel 0#32, saved := Function.update s.saved 0 .user, cpu := .user } := by
    simp only [yield,scene.current,next]
    rw [Function.update_of_ne (by decide),saved]
  -- The table when the program has been marked dead.
  generalize dyingIs : (schedule s.kernel 0#32).setProc 1 { (schedule s.kernel 0#32).procs 1 with state := .dead } = dying
  have first : dying.procs 0 = { s.kernel.procs 0 with state := .ready, esp := 0#32 } := by
    simp [← dyingIs,Kernel.setProc,procs,scene.zero]
  have second : (dying.procs 1).state = .dead ∧ (dying.procs 1).name = field := by
    simp [← dyingIs,Kernel.setProc,procs,scene.field]
  have others : ∀ i, i ≠ 0 → i ≠ 1 → (dying.procs i).state = .dead := by
    intro i notZero notOne
    simp [← dyingIs,Kernel.setProc,procs,notZero,notOne,scene.others i notZero notOne]
  have back : next_ready dying.procs 1 = some 0 := next_ready_pair (by rw [first]) (by simp [second.1]) others
  have inOne : dying.current = some 1 := by
    rw [← dyingIs]
    exact current
  obtain ⟨phys',counter',current',_,_,procs'⟩ := schedule_some 0#32 inOne back
  have exits : Step trioMachine _ _ _ := .sysExit (yield s 0#32 .user) 1 0#32 (by rw [switched]) (by rw [switched]; exact current)
  rw [show ((yield s 0#32 .user).kernel.procs 1).pid = (s.kernel.procs 1).pid by rw [switched,procs]] at exits
  refine ⟨_,_,.timer s 0#32 scene.user,exits,?_⟩
  have resumed : exit (yield s 0#32 .user) 1 0#32 =
      { s with
        kernel := schedule dying 0#32
        saved := Function.update (Function.update s.saved 0 .user) 1 .halted
        cpu := .user } := by
    rw [switched,exit]
    simp only [dyingIs,yield,inOne,back]
    rw [Function.update_of_ne (by decide),Function.update_self]
  have memory : (schedule dying 0#32).phys = s.kernel.phys := by
    rw [phys',← dyingIs]
    exact phys
  have pids : (schedule dying 0#32).next_pid = s.kernel.next_pid := by
    rw [counter',← dyingIs]
    exact counter
  rw [resumed]
  constructor
  case user => rfl
  case rootfs => exact scene.rootfs
  case current => exact current'
  case zero => simp [procs']
  case pid =>
    simp only [procs',first]
    exact scene.pid
  case one => simp [procs',second.1]
  case others =>
    intro i notZero notOne
    simp [procs',notZero,notOne,others i notZero notOne]
  case field => simp [procs',second.2]
  case next_pid => exact pids.trans scene.next_pid
  case stocked => exact stocked_phys memory scene.stocked

end Scene

/-- `shell` is created and started. -/
theorem scene_start {frames : Frames} (ended : trio.init 3 = some frames) :
    (spawn trioMachine (trioState frames) shellName).slot = some 0 ∧
      (spawn trioMachine (trioState frames) shellName).result = 1 ∧
      ∃ t, Step trioMachine (afterSpawn (trioState frames) (spawn trioMachine (trioState frames) shellName)) .silent t ∧
        Scene t .dead 2#32 (fun _ => 0#8) 2 := by
  obtain ⟨slot,stocked,table,_⟩ := trio_spawn (s := trioState frames) rfl (trio_stocked ended) (show shellName ∈ _ by simp)
    (show free_slot (trioKernel frames).procs = some 0 from rfl)
  obtain ⟨k,started⟩ := scheduler_start_ready (created_ready table slot)
  obtain ⟨_,result,counter,_⟩ := table.filled 0 slot
  obtain ⟨_,pid⟩ := table_new table slot
  refine ⟨slot,result,_,.start _ rfl k started,?_⟩
  have others : ∀ j, j ≠ 0 → (spawn trioMachine (trioState frames) shellName).kernel.procs j = blank := fun j other =>
    table_kept table slot other
  have kernel := start_alone (fun j other => congrArg Proc.state (others j other)) started
  have rest : ∀ j, j ≠ 0 → k.procs j = blank := by
    intro j other
    rw [kernel]
    simp only [Kernel.setProc,Function.update_of_ne other]
    exact others j other
  constructor
  case user => rfl
  case rootfs => rfl
  case current => simp [kernel]
  case zero => simp [kernel,Kernel.setProc]
  case pid =>
    simp only [kernel,Kernel.setProc,Function.update_self]
    exact pid
  case one => simp [rest 1 (by decide),blank]
  case others => exact fun i notZero _ => by simp [rest i notZero,blank]
  case field => simp [rest 1 (by decide),blank]
  case next_pid =>
    rw [kernel]
    exact counter
  case stocked => exact stocked_phys (by rw [kernel]; rfl) stocked

end SoKernel.Scheduler
