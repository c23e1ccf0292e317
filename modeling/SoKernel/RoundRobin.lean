import SoKernel.Scheduler

/-!
Fairness. Every call of `schedule` goes on from the slot of the caller, so while a
process is ready and not yet selected, each call gets nearer to its slot. Nobody is
selected twice before it.
-/
namespace SoKernel.RoundRobin
open SoKernel.Words SoKernel.Pfa SoKernel.Paging SoKernel.Process SoKernel.FrameCount SoKernel.System SoKernel.Scheduler
  SoKernel.Kmain
set_option linter.unusedSimpArgs false

/-! ### The scan -/

/-- How many slots there are from `i` on to `p`, going round. -/
def distance (i p : Slot) : Nat := (p-i).val

theorem distance_lt (i p : Slot) : distance i p < MAX_PROCESSES := (p-i).isLt

theorem distance_pos {i p : Slot} (other : i ≠ p) : 0 < distance i p := by
  have nonzero : p-i ≠ 0 := fun same => other (sub_eq_zero.mp same).symm
  exact Fin.pos_iff_ne_zero.mpr nonzero

/-- Slots that are passed on the way from `start` to another one. -/
theorem distance_step {start i j : Slot} (before : i ≤ j) (other : start+j+1 ≠ start) :
    distance (start+i+1) (start+j+1) < distance start (start+j+1) := by
  have passed : start+j+1-(start+i+1) = j-i := by abel
  have whole : start+j+1-start = j+1 := by abel
  have notLast : j ≠ Fin.last 15 := by
    rintro rfl
    exact other (by rw [add_assoc]; exact add_zero start)
  rw [distance,distance,passed,whole,Fin.sub_val_of_le before,Fin.val_add_one,if_neg notLast]
  omega

/-- While a slot is ready, the scan finds one that is nearer to it. -/
theorem next_ready_closer {procs : Slot → Proc} {start p : Slot} (isReady : (procs p).state = .ready) (other : p ≠ start) :
    ∃ next, next_ready procs start = some next ∧ distance next p < distance start p := by
  cases found : next_ready procs start with
  | none => exact absurd isReady (next_ready_none found p)
  | some next =>
    refine ⟨next,rfl,?_⟩
    obtain ⟨_,i,inside,here,earlier⟩ := List.find?_eq_some_iff_getElem.mp found
    have bound : i < MAX_PROCESSES := by simpa using inside
    have isNext : next = start+⟨i,bound⟩+1 := by simpa using here.symm
    have isP : p = start+(p-start-1)+1 := by abel
    have first : (⟨i,bound⟩ : Slot) ≤ p-start-1 := by
      by_contra later
      have sooner : (procs (start+(p-start-1)+1)).state ≠ .ready := by
        simpa using earlier (p-start-1).val (Fin.lt_def.mp (not_le.mp later))
      rw [← isP] at sooner
      exact sooner isReady
    rw [isP] at other ⊢
    rw [isNext]
    exact distance_step first other

/-! ### Calls of `schedule` -/

/-- What `schedule` selects. -/
def selected (k : Kernel) : Option Slot := k.current.bind (next_ready k.procs)

/-- The step calls `schedule`, which selects the slot. -/
inductive Schedules (s : State) : State → Option Slot → Prop
  | timer (esp : Word) (user : s.cpu = .user) : Schedules s (yield s esp .user) (selected s.kernel)
  | sysYield (esp : Word) (user : s.cpu = .user) : Schedules s (yield s esp .user) (selected s.kernel)
  | waiting (call : Waiting) (esp : Word) (here : s.cpu = .test call) (notReady : ready s call = false) :
      Schedules s (yield s esp (.scheduled call)) (selected s.kernel)
  | sysExit (cur : Slot) (esp : Word) (user : s.cpu = .user) (current : s.kernel.current = some cur) :
      Schedules s (exit s cur esp)
        (selected (s.kernel.setProc cur { s.kernel.procs cur with state := .dead }))

/-- A run, with what each call of `schedule` has selected. -/
inductive Watched (mach : Machine) (s : State) : List (Option Slot) → State → Prop
  | refl : Watched mach s [] s
  | schedules {trace : List (Option Slot)} {t u : State} {event : Event} {next : Option Slot} :
      Watched mach s trace t → Step mach t event u → Schedules t u next → Watched mach s (trace ++ [next]) u
  | other {trace : List (Option Slot)} {t u : State} {event : Event} :
      Watched mach s trace t → Step mach t event u → (∀ next, ¬ Schedules t u next) → Watched mach s trace u

/-- Every run can be watched. -/
theorem run_watched {mach : Machine} {s t : State} {events : List Event} (run : Run mach s events t) :
    ∃ trace, Watched mach s trace t := by
  induction run with
  | refl => exact ⟨[],.refl⟩
  | @step _ t u _ _ step ih =>
    obtain ⟨trace,watched⟩ := ih
    by_cases calls : ∃ next, Schedules t u next
    · obtain ⟨next,calls⟩ := calls
      exact ⟨_,watched.schedules step calls⟩
    · exact ⟨_,watched.other step (not_exists.mp calls)⟩

section
variable {mach : Machine} {s t : State}

/-- A step that does not call `schedule` leaves the processes and the current slot
    as they are. -/
theorem other_table {event : Event} (started : s.cpu ≠ .boot) (step : Step mach s event t)
    (other : ∀ next, ¬ Schedules s t next) :
    t.kernel.current = s.kernel.current ∧
      ∀ i, (s.kernel.procs i).state ≠ .dead → t.kernel.procs i = s.kernel.procs i := by
  cases step with
  | bootKey _ boot => exact absurd boot started
  | bootCreate _ boot => exact absurd boot started
  | start boot => exact absurd boot started
  | nothingToRun boot => exact absurd boot started
  | timer esp user => exact absurd (.timer esp user) (other _)
  | sysYield esp user => exact absurd (.sysYield esp user) (other _)
  | sysExit cur esp user current => exact absurd (.sysExit cur esp user current) (other _)
  | testNotReady call esp here notReady => exact absurd (.waiting call esp here notReady) (other _)
  | sysSpawn name user =>
    have table := process_create_table (mach.access s.kernel) mach.process_start_trampoline s.rootfs name s.kernel
    refine ⟨table.current,fun i alive => ?_⟩
    rcases table_slots table i with ⟨_,same⟩ | ⟨_,dead,_⟩
    · exact same
    · exact absurd dead alive
  | testReady call here isReady =>
    cases call with
    | read buf max => exact ⟨rfl,fun _ _ => rfl⟩
    | wait pid => exact ⟨rfl,fun _ _ => rfl⟩
  | keyUser => exact ⟨rfl,fun _ _ => rfl⟩
  | work => exact ⟨rfl,fun _ _ => rfl⟩
  | sysWaiting => exact ⟨rfl,fun _ _ => rfl⟩
  | scheduledReady => exact ⟨rfl,fun _ _ => rfl⟩
  | scheduledNotReady => exact ⟨rfl,fun _ _ => rfl⟩
  | keyAsleep => exact ⟨rfl,fun _ _ => rfl⟩
  | wake => exact ⟨rfl,fun _ _ => rfl⟩

/-- `schedule` called while slot `p` is ready and not current. -/
theorem yield_closer {cur p : Slot} (esp : Word) (point : Point) (current : s.kernel.current = some cur) (other : p ≠ cur)
    (isReady : (s.kernel.procs p).state = .ready) :
    ∃ next, selected s.kernel = some next ∧ (yield s esp point).kernel.current = some next ∧
      distance next p < distance cur p ∧ (next ≠ p → (yield s esp point).kernel.procs p = s.kernel.procs p) := by
  obtain ⟨next,found,closer⟩ := next_ready_closer isReady other
  obtain ⟨_,_,currentAfter,_,_,procs⟩ := schedule_some esp current found
  have switches : (yield s esp point).kernel = schedule s.kernel esp := by simp only [yield,current,found]
  refine ⟨next,?_,?_,closer,?_⟩
  · rw [selected,current,Option.bind_some,found]
  · rw [switches,currentAfter]
  · intro notNext
    have notBoth : ¬ (p = cur ∧ (s.kernel.procs cur).state = .running) := fun both => other both.1
    rw [switches,procs p,if_neg (Ne.symm notNext),if_neg notBoth,if_neg other]

theorem schedules_closer {cur p : Slot} {next : Option Slot} (current : s.kernel.current = some cur) (other : p ≠ cur)
    (isReady : (s.kernel.procs p).state = .ready) (schedules : Schedules s t next) :
    ∃ q, next = some q ∧ t.kernel.current = some q ∧ distance q p < distance cur p ∧
      (q ≠ p → t.kernel.procs p = s.kernel.procs p) := by
  cases schedules with
  | timer esp user => exact yield_closer esp _ current other isReady
  | sysYield esp user => exact yield_closer esp _ current other isReady
  | waiting call esp here notReady => exact yield_closer esp _ current other isReady
  | sysExit cur' esp user isCurrent =>
    have same : cur' = cur := Option.some_inj.mp (isCurrent.symm.trans current)
    subst same
    have kept : (s.kernel.setProc cur' { s.kernel.procs cur' with state := .dead }).procs p = s.kernel.procs p := by
      simp only [Kernel.setProc,Function.update_of_ne other]
    obtain ⟨q,found,currentAfter,closer,unchanged⟩ := yield_closer
      (s := { s with kernel := s.kernel.setProc cur' { s.kernel.procs cur' with state := .dead } })
      esp .halted current other (by rw [kept]; exact isReady)
    exact ⟨q,found,currentAfter,closer,fun notP => (unchanged notP).trans kept⟩

end

/-! ### Runs -/

/-- Slot `p` holds the process `proc`, which is ready and has not been selected; all
    that have been were further away than the current slot. -/
structure Overtaken (p first : Slot) (proc : Proc) (trace : List (Option Slot)) (u : State) (cur : Slot) : Prop where
  consistent : Consistent u
  kept : u.kernel.procs p = proc
  current : u.kernel.current = some cur
  other : p ≠ cur
  nearer : ∀ next ∈ trace, ∃ q, next = some q ∧ distance cur p ≤ distance q p
  nodup : trace.Nodup
  length : trace.length+distance cur p ≤ distance first p

section
variable {mach : Machine} {t u : State} {p first cur : Slot} {proc : Proc} {trace : List (Option Slot)}

theorem overtaken_schedules (isReady : proc.state = .ready) (inv : Overtaken p first proc trace t cur) {event : Event}
    (step : Step mach t event u) {next : Option Slot} (schedules : Schedules t u next) (notYet : next ≠ some p) :
    ∃ q, Overtaken p first proc (trace ++ [next]) u q := by
  obtain ⟨q,rfl,current,closer,kept⟩ := schedules_closer inv.current inv.other (by rw [inv.kept]; exact isReady) schedules
  have notP : q ≠ p := fun same => notYet (by rw [same])
  have length := inv.length
  refine ⟨q,?_⟩
  constructor
  case consistent => exact step_consistent inv.consistent step
  case kept => exact (kept notP).trans inv.kept
  case current => exact current
  case other => exact Ne.symm notP
  case nearer =>
    intro n member
    rcases List.mem_append.mp member with old | new
    · obtain ⟨r,isR,further⟩ := inv.nearer n old
      exact ⟨r,isR,by omega⟩
    · exact ⟨q,List.mem_singleton.mp new,le_refl _⟩
  case nodup =>
    refine List.nodup_append.mpr ⟨inv.nodup,List.nodup_singleton _,?_⟩
    rintro n old m new rfl
    rw [List.mem_singleton] at new
    obtain ⟨r,isR,further⟩ := inv.nearer n old
    have same : r = q := Option.some_inj.mp (isR.symm.trans new)
    rw [same] at further
    omega
  case length =>
    rw [List.length_append,List.length_singleton]
    omega

theorem overtaken_other (isReady : proc.state = .ready) (inv : Overtaken p first proc trace t cur) {event : Event}
    (step : Step mach t event u) (other : ∀ next, ¬ Schedules t u next) : Overtaken p first proc trace u cur := by
  have started : t.cpu ≠ .boot := by
    intro boot
    have none := (inv.consistent.booting boot).1
    rw [inv.current] at none
    cases none
  obtain ⟨current,procs⟩ := other_table started step other
  have kept := procs p (by rw [inv.kept,isReady]; simp)
  exact { inv with
    consistent := step_consistent inv.consistent step
    kept := kept.trans inv.kept
    current := current.trans inv.current }

theorem watched_overtaken (isReady : proc.state = .ready) (begins : Overtaken p first proc [] t first)
    (watched : Watched mach t trace u) (notYet : some p ∉ trace) : ∃ cur, Overtaken p first proc trace u cur := by
  induction watched with
  | refl => exact ⟨first,begins⟩
  | schedules _ step schedules ih =>
    rw [List.mem_append,not_or,List.mem_singleton] at notYet
    obtain ⟨cur,inv⟩ := ih notYet.1
    exact overtaken_schedules isReady inv step schedules (Ne.symm notYet.2)
  | other _ step other ih =>
    obtain ⟨cur,inv⟩ := ih notYet
    exact ⟨cur,overtaken_other isReady inv step other⟩

end

/-- After `scheduler_start`, while a ready process has not been selected, it stays
    ready and every call of `schedule` has switched, to a different slot each time and
    to at most 14 slots in all; and the next call switches to a slot from which there
    are fewer slots to go to the process than from the slot of the caller. -/
theorem overtaking_bounded {mach : Machine} {s t u : State} {events : List Event} {trace : List (Option Slot)}
    (boot : Booting s) (run : Run mach s events t) (started : t.cpu ≠ .boot) {p : Slot}
    (isReady : (t.kernel.procs p).state = .ready) (watched : Watched mach t trace u) (notYet : some p ∉ trace) :
    u.kernel.procs p = t.kernel.procs p ∧ none ∉ trace ∧ trace.Nodup ∧ trace.length ≤ MAX_PROCESSES-2 ∧
      ∃ cur, u.kernel.current = some cur ∧ ∀ v next, Schedules u v next →
        ∃ q, next = some q ∧ v.kernel.current = some q ∧ distance q p < distance cur p := by
  have consistent := run_consistent boot run
  have live : Live t.cpu := by
    refine ⟨started,fun halted => ?_⟩
    have dead := consistent.halted halted p
    rw [isReady] at dead
    cases dead
  obtain ⟨first,one⟩ := consistent.live live
  have other : p ≠ first := by
    rintro rfl
    have running := (one.unique p).mpr rfl
    rw [isReady] at running
    cases running
  have begins : Overtaken p first (t.kernel.procs p) [] t first :=
    ⟨consistent,rfl,one.current,other,by simp,List.nodup_nil,by simp⟩
  obtain ⟨cur,inv⟩ := watched_overtaken isReady begins watched notYet
  have length := inv.length
  have most := distance_lt first p
  have positive := distance_pos (Ne.symm inv.other)
  refine ⟨inv.kept,?_,inv.nodup,by omega,cur,inv.current,?_⟩
  · intro member
    obtain ⟨q,isQ,_⟩ := inv.nearer none member
    cases isQ
  · intro v next schedules
    obtain ⟨q,isQ,current,closer,_⟩ := schedules_closer inv.current inv.other (by rw [inv.kept]; exact isReady) schedules
    exact ⟨q,isQ,current,closer⟩

/-- The slot after the one of the caller is looked at first. -/
theorem next_ready_next {procs : Slot → Proc} {start : Slot} (isReady : (procs (start+1)).state = .ready) :
    next_ready procs start = some (start+1) := by
  have order : List.finRange MAX_PROCESSES = 0 :: (List.finRange MAX_PROCESSES).drop 1 := by decide
  rw [next_ready,order,List.map_cons,add_zero]
  exact List.find?_cons_of_pos (by simpa using isReady)

/-- On the small PC `shell` has started `hello` and `top`. The timer lets `hello` overtake
    `top`, which is selected next. -/
theorem overtaking_bounded_pc : ∃ frames events t u, Booting (trioState frames) ∧
    Run trioMachine (trioState frames) events t ∧ (t.kernel.procs 2).state = .ready ∧ Watched trioMachine t [some 1] u ∧
    selected u.kernel = some 2 := by
  obtain ⟨frames,ended,_⟩ := trio_kmain
  have boot : Booting (trioState frames) := ⟨rfl,trioKernel frames,rfl⟩
  obtain ⟨_,_,s,starts,scene⟩ := scene_start ended
  obtain ⟨_,_,two,_,saved⟩ := scene_spawn scene (show helloName ∈ _ by simp)
  have spawns : Step trioMachine _ _ _ := .sysSpawn s helloName scene.user
  generalize afterSpawn s (spawn trioMachine s helloName) = s₁ at two saved spawns
  have early : ∀ j : Slot, j < 2 → j = 0 ∨ j = 1 := by decide
  have found : free_slot s₁.kernel.procs = some 2 := free_slot_least (two.others 2 (by decide) (by decide)) (fun j before => by
    rcases early j before with rfl | rfl
    · simp [two.zero]
    · simp [two.one])
  obtain ⟨slot,_,table,_⟩ := trio_spawn two.rootfs two.stocked (show topName ∈ _ by simp) found
  have again : Step trioMachine _ _ _ := .sysSpawn s₁ topName two.user
  have run : Run trioMachine (trioState frames) _ _ :=
    .step (.step (.step (.step .refl (.bootCreate (trioState frames) shellName rfl)) starts) spawns) again
  have isReady := created_ready table slot
  have one : ((spawn trioMachine s₁ topName).kernel.procs 1).state = .ready := by
    rw [table_kept table slot (by decide),two.one]
  have current : (spawn trioMachine s₁ topName).kernel.current = some 0 := table.current.trans two.current
  have first : next_ready (spawn trioMachine s₁ topName).kernel.procs 0 = some 1 := next_ready_next one
  have overtakes : selected (spawn trioMachine s₁ topName).kernel = some 1 := by
    rw [selected,current,Option.bind_some]
    exact first
  have user : (yield (afterSpawn s₁ (spawn trioMachine s₁ topName)) 0#32 .user).cpu = .user ∧
      (yield (afterSpawn s₁ (spawn trioMachine s₁ topName)) 0#32 .user).kernel.current = some 1 := by
    simp only [yield,afterSpawn,current,first,slot]
    rw [Function.update_of_ne (by decide),Function.update_of_ne (by decide)]
    exact ⟨saved,(schedule_some 0#32 current first).2.2.1⟩
  have ticks : Watched trioMachine (afterSpawn s₁ (spawn trioMachine s₁ topName)) _ _ :=
    .schedules .refl (.timer _ 0#32 two.user) (.timer 0#32 two.user)
  rw [show selected (afterSpawn s₁ (spawn trioMachine s₁ topName)).kernel = some 1 from overtakes] at ticks
  obtain ⟨_,_,_,_,cur,isCur,next⟩ := overtaking_bounded boot run (by simp [afterSpawn,two.user]) isReady ticks (by decide)
  obtain ⟨q,isNext,_,closer⟩ := next _ _ (.timer 0#32 user.1)
  obtain rfl : cur = 1 := Option.some.inj (isCur.symm.trans user.2)
  have nearest : ∀ q : Slot, distance q 2 < distance 1 2 → q = 2 := by decide
  rw [nearest q closer] at isNext
  exact ⟨frames,_,_,_,boot,run,isReady,ticks,isNext⟩

end SoKernel.RoundRobin
