import SoKernel.Lists
import SoKernel.Scheduler

/-!
The life of a process identifier. `next_pid` is a 32-bit counter whose value is
returned as a signed `int`, and dead slots keep their old identifier. Each process
takes at least three frames and no frame is ever given back, so the counter stays
far below its sign bit, and the identifiers are 1, 2, 3 and so on for ever.
-/
namespace SoKernel.PidLife
open SoKernel.Words SoKernel.Pfa SoKernel.Process SoKernel.AddressSpace SoKernel.FrameCount SoKernel.Kmain SoKernel.System
  SoKernel.Scheduler
set_option linter.unusedSimpArgs false

/-- The identifiers that successful calls of `process_create` have returned, in order. -/
def pids (events : List Event) : List Int :=
  events.filterMap (fun event => match event with
    | .created result => if result = -1 then none else some result
    | _ => none)

theorem alive_iff (k : Kernel) (pid : Word) :
    process_is_alive k pid = true ↔ ∃ i, (k.procs i).pid = pid ∧ (k.procs i).state ≠ .dead := by
  simp [process_is_alive]

/-! ### Steps that keep the table -/

/-- No process is created or ended. -/
structure SamePids (k k' : Kernel) : Prop where
  frames : Grows k.phys.frames k'.phys.frames
  next_pid : k'.next_pid = k.next_pid
  pid : ∀ i, (k'.procs i).pid = (k.procs i).pid
  dead : ∀ i, (k'.procs i).state = .dead ↔ (k.procs i).state = .dead

theorem samePids_refl (k : Kernel) : SamePids k k := ⟨grows_refl _,rfl,fun _ => rfl,fun _ => Iff.rfl⟩

theorem schedule_samePids (k : Kernel) (esp : Word) : SamePids k (schedule k esp) := by
  cases current : k.current with
  | none =>
    rw [show schedule k esp = k by simp only [schedule,current]]
    exact samePids_refl k
  | some old =>
    cases found : next_ready k.procs old with
    | none =>
      rw [schedule_none esp current found]
      exact samePids_refl k
    | some next =>
      obtain ⟨phys,next_pid,_,_,_,procs⟩ := schedule_some esp current found
      have ready := next_ready_some found
      refine ⟨by rw [phys]; exact grows_refl _,next_pid,fun i => by rw [procs],fun i => ?_⟩
      rw [procs i]
      by_cases isNext : i = next
      · simp [isNext,ready]
      · by_cases isOld : i = old ∧ (k.procs old).state = .running
        · obtain ⟨rfl,running⟩ := isOld
          simp [isNext,running]
        · simp [isNext,isOld]

theorem yield_samePids (s : State) (esp : Word) (point : Point) : SamePids s.kernel (yield s esp point).kernel := by
  simp only [yield]
  split
  · exact samePids_refl _
  · split
    · exact samePids_refl _
    · exact schedule_samePids _ esp

theorem start_samePids {k k' : Kernel} (started : scheduler_start k = some k') : SamePids k k' := by
  obtain ⟨first,found,rfl⟩ := Option.map_eq_some_iff.mp started
  have ready : (k.procs first).state = .ready := by simpa using List.find?_some found
  refine ⟨grows_refl _,rfl,fun i => ?_,fun i => ?_⟩
  · by_cases isFirst : i = first
    · simp [Kernel.setProc,isFirst]
    · simp [Kernel.setProc,isFirst]
  · by_cases isFirst : i = first
    · simp [Kernel.setProc,isFirst,ready]
    · simp [Kernel.setProc,isFirst]

/-! ### The invariant -/

/-- What ties the process table to the events so far: the identifiers are the first
    numbers, and a slot is alive exactly for one that has not exited. -/
structure Accounts (events : List Event) (k : Kernel) : Prop where
  zero : is_used k.phys.frames 0 = true
  counter : k.next_pid.toNat = (pids events).length+1
  frames : 3*(pids events).length ≤ usedCount k.phys.frames
  numbers : pids events = (List.range (pids events).length).map (fun i : Nat => ((i+1 : Nat) : Int))
  slots : ∀ i, (k.procs i).state ≠ .dead →
    1 ≤ (k.procs i).pid.toNat ∧ (k.procs i).pid.toNat ≤ (pids events).length ∧ .exited (k.procs i).pid ∉ events
  distinct : ∀ i j, (k.procs i).state ≠ .dead → (k.procs j).state ≠ .dead → (k.procs i).pid = (k.procs j).pid → i = j
  lives : ∀ pid : Word, 1 ≤ pid.toNat → pid.toNat ≤ (pids events).length → .exited pid ∉ events →
    ∃ i, (k.procs i).pid = pid ∧ (k.procs i).state ≠ .dead
  exits : ∀ pid, .exited pid ∈ events → pid.toNat ≤ (pids events).length
  waits : ∀ before after pid, events = before ++ .waited pid :: after → 1 ≤ pid.toNat →
    pid.toNat ≤ (pids before).length → .exited pid ∈ before

theorem pids_append (events : List Event) (event : Event) :
    pids (events ++ [event]) = pids events ++ pids [event] := by
  rw [pids,pids,pids,List.filterMap_append]

/-- An event other than a successful creation. -/
theorem pids_append_nil {events : List Event} {event : Event} (none : pids [event] = []) :
    pids (events ++ [event]) = pids events := by
  rw [pids_append,none,List.append_nil]

section
variable {events : List Event} {k k' : Kernel}

/-- There is room for the counter: a million frames make less than half a million processes. -/
theorem accounts_bound (accounts : Accounts events k) : (pids events).length < 2^19 := by
  have most := usedCount_le k.phys.frames
  have frames := accounts.frames
  simp only [MAX_FRAMES] at most
  omega

theorem usedCount_mono {f g : Frames} (grows : Grows f g) : usedCount f ≤ usedCount g :=
  Finset.card_le_card (fun i member => by
    rw [Finset.mem_filter] at member ⊢
    exact ⟨member.1,grows i member.2⟩)

/-- A step that creates and ends no process; if it ends a wait, then for a process
    that has exited. -/
theorem accounts_same (accounts : Accounts events k) (same : SamePids k k') {event : Event}
    (notCreated : pids [event] = []) (notExited : ∀ pid, event ≠ .exited pid)
    (waited : ∀ pid, event = .waited pid → 1 ≤ pid.toNat → pid.toNat ≤ (pids events).length → .exited pid ∈ events) :
    Accounts (events ++ [event]) k' := by
  have sameList : pids (events ++ [event]) = pids events := pids_append_nil notCreated
  have sameExits : ∀ pid, Event.exited pid ∈ events ++ [event] ↔ .exited pid ∈ events := by
    intro pid
    rw [List.mem_append,List.mem_singleton]
    exact or_iff_left (fun isExit => notExited pid isExit.symm)
  refine ⟨same.frames 0 accounts.zero,?_,?_,?_,?_,?_,?_,?_,?_⟩
  · rw [same.next_pid,sameList]
    exact accounts.counter
  · rw [sameList]
    exact accounts.frames.trans (usedCount_mono same.frames)
  · rw [sameList]
    exact accounts.numbers
  · intro i alive
    rw [same.pid,sameList,sameExits]
    exact accounts.slots i (fun dead => alive ((same.dead i).mpr dead))
  · intro i j aliveI aliveJ samePid
    rw [same.pid,same.pid] at samePid
    exact accounts.distinct i j (fun dead => aliveI ((same.dead i).mpr dead)) (fun dead => aliveJ ((same.dead j).mpr dead))
      samePid
  · intro pid low high alive
    rw [sameList] at high
    rw [sameExits] at alive
    obtain ⟨i,isPid,alive⟩ := accounts.lives pid low high alive
    exact ⟨i,(same.pid i).trans isPid,fun dead => alive ((same.dead i).mp dead)⟩
  · intro pid exited
    rw [sameList]
    exact accounts.exits pid ((sameExits pid).mp exited)
  · intro before after pid split low high
    rcases Lists.split_append split with ⟨rest,earlier⟩ | ⟨isAll,isLast⟩
    · exact accounts.waits before rest pid earlier low high
    · rw [← isAll] at high ⊢
      exact waited pid isLast.symm low high

theorem accounts_quiet (accounts : Accounts events k) (same : SamePids k k') {event : Event}
    (shows : event = .silent ∨ ∃ eax, event = .read eax) : Accounts (events ++ [event]) k' := by
  rcases shows with rfl | ⟨eax,rfl⟩
  · exact accounts_same accounts same rfl (by simp) (by simp)
  · exact accounts_same accounts same rfl (by simp) (by simp)

/-- A wait that ends: the process it waited for is not alive. -/
theorem accounts_waited (accounts : Accounts events k) (same : SamePids k k') {pid : Word}
    (notAlive : process_is_alive k pid = false) : Accounts (events ++ [Event.waited pid]) k' := by
  refine accounts_same accounts same rfl (by simp) ?_
  rintro p isWait low high
  cases isWait
  by_contra notExited
  have alive := (alive_iff k pid).mpr (accounts.lives pid low high notExited)
  rw [notAlive] at alive
  cases alive

/-- An event that ends no wait. -/
theorem accounts_waits (accounts : Accounts events k) {event : Event} (other : ∀ pid, event ≠ .waited pid)
    {before after : List Event} {pid : Word} (split : events ++ [event] = before ++ Event.waited pid :: after)
    (low : 1 ≤ pid.toNat) (high : pid.toNat ≤ (pids before).length) : .exited pid ∈ before := by
  rcases Lists.split_append split with ⟨rest,earlier⟩ | ⟨_,isLast⟩
  · exact accounts.waits before rest pid earlier low high
  · exact absurd isLast.symm (other pid)

/-- The next identifier as a signed number. -/
theorem accounts_toInt (accounts : Accounts events k) : k.next_pid.toInt = (((pids events).length+1 : Nat) : Int) := by
  have bound := accounts_bound accounts
  have counter := accounts.counter
  rw [BitVec.toInt_eq_toNat_of_lt (by omega),counter]

/-- A call of `process_create`. -/
theorem accounts_created (accounts : Accounts events k) {c : Creation} {pages : Nat} (table : c.Table k)
    (uses : Uses c k pages) : Accounts (events ++ [Event.created c.result]) c.kernel := by
  have bound := accounts_bound accounts
  have counter := accounts.counter
  have number := accounts_toInt accounts
  cases slot : c.slot with
  | none =>
    obtain ⟨failed,procs,next_pid⟩ := table.failed slot
    rw [failed]
    refine accounts_same accounts ⟨?_,next_pid,fun i => by rw [procs],fun i => by rw [procs]⟩ rfl (by simp) (by simp)
    exact between_grows uses.most
  | some i =>
    obtain ⟨dead,result,next_pid,_⟩ := table.filled i slot
    have newList : pids (events ++ [Event.created c.result]) = pids events ++ [(((pids events).length+1 : Nat) : Int)] := by
      rw [pids_append,result,number]
      simp only [pids,List.filterMap_cons,List.filterMap_nil]
      rw [if_neg (by omega)]
    have newLength : (pids (events ++ [Event.created c.result])).length = (pids events).length+1 := by
      rw [newList]
      simp
    have sameExits : ∀ pid, Event.exited pid ∈ events ++ [Event.created c.result] ↔ .exited pid ∈ events := by simp
    obtain ⟨isReady,newPid⟩ := table_new table slot
    have others : ∀ j, j ≠ i → c.kernel.procs j = k.procs j := fun j => table_kept table slot
    -- The identifier is new: it is larger than all before.
    have fresh : ∀ j, (k.procs j).state ≠ .dead → (k.procs j).pid ≠ k.next_pid := by
      intro j alive same
      have := (accounts.slots j alive).2.1
      rw [same] at this
      omega
    have notExited : .exited k.next_pid ∉ events := by
      intro exited
      have := accounts.exits _ exited
      omega
    obtain ⟨n,atLeast,_,takes⟩ := uses.least (by simp [slot])
    refine ⟨takes_grows takes 0 accounts.zero,?_,?_,?_,?_,?_,?_,?_,?_⟩
    · rw [newLength,next_pid,BitVec.toNat_add,counter]
      simp only [BitVec.toNat_ofNat]
      omega
    · have frames := accounts.frames
      rw [newLength,takes_usedCount takes]
      omega
    · rw [newLength,newList,List.range_succ,List.map_append,← accounts.numbers]
      rfl
    · intro j alive
      rw [newLength,sameExits]
      by_cases isNew : j = i
      · rw [isNew,newPid]
        exact ⟨by omega,by omega,notExited⟩
      · rw [others j isNew] at alive ⊢
        obtain ⟨low,high,rest⟩ := accounts.slots j alive
        exact ⟨low,by omega,rest⟩
    · intro a b aliveA aliveB samePid
      by_cases newA : a = i
      · by_cases newB : b = i
        · rw [newA,newB]
        · rw [newA,newPid,others b newB] at samePid
          rw [others b newB] at aliveB
          exact absurd samePid.symm (fresh b aliveB)
      · by_cases newB : b = i
        · rw [newB,newPid,others a newA] at samePid
          rw [others a newA] at aliveA
          exact absurd samePid (fresh a aliveA)
        · rw [others a newA] at aliveA samePid
          rw [others b newB] at aliveB samePid
          exact accounts.distinct a b aliveA aliveB samePid
    · intro pid low high alive
      rw [newLength] at high
      rw [sameExits] at alive
      by_cases isNew : pid = k.next_pid
      · exact ⟨i,newPid.trans isNew.symm,by simp [isReady]⟩
      · have below : pid.toNat ≤ (pids events).length := by
          have : pid.toNat ≠ k.next_pid.toNat := fun same => isNew (BitVec.eq_of_toNat_eq same)
          omega
        obtain ⟨j,isPid,aliveJ⟩ := accounts.lives pid low below alive
        have other : j ≠ i := by
          rintro rfl
          exact aliveJ dead
        exact ⟨j,by rw [others j other]; exact isPid,by rw [others j other]; exact aliveJ⟩
    · intro pid exited
      rw [newLength]
      have := accounts.exits pid ((sameExits pid).mp exited)
      omega
    · exact fun before after pid => accounts_waits accounts (by simp)

/-- The end of a process. -/
theorem accounts_exited (accounts : Accounts events k) {cur : Slot} (alive : (k.procs cur).state ≠ .dead)
    (same : SamePids (k.setProc cur { k.procs cur with state := .dead }) k') :
    Accounts (events ++ [Event.exited (k.procs cur).pid]) k' := by
  have sameList : pids (events ++ [Event.exited (k.procs cur).pid]) = pids events := pids_append_nil rfl
  obtain ⟨low,high,notYet⟩ := accounts.slots cur alive
  have pid : ∀ i, (k'.procs i).pid = (k.procs i).pid := by
    intro i
    rw [same.pid i]
    by_cases isCur : i = cur
    · simp [Kernel.setProc,isCur]
    · simp [Kernel.setProc,isCur]
  have aliveAfter : ∀ i, (k'.procs i).state ≠ .dead → i ≠ cur ∧ (k.procs i).state ≠ .dead := by
    intro i aliveI
    have before : ((k.setProc cur { k.procs cur with state := .dead }).procs i).state ≠ .dead :=
      fun dead => aliveI ((same.dead i).mpr dead)
    by_cases isCur : i = cur
    · simp [Kernel.setProc,isCur] at before
    · simp only [Kernel.setProc,Function.update_of_ne isCur] at before
      exact ⟨isCur,before⟩
  refine ⟨same.frames 0 accounts.zero,?_,?_,?_,?_,?_,?_,?_,?_⟩
  · rw [same.next_pid,sameList]
    exact accounts.counter
  · rw [sameList]
    exact accounts.frames.trans (usedCount_mono same.frames)
  · rw [sameList]
    exact accounts.numbers
  · intro i aliveI
    obtain ⟨other,before⟩ := aliveAfter i aliveI
    obtain ⟨lowI,highI,notExited⟩ := accounts.slots i before
    rw [pid,sameList]
    refine ⟨lowI,highI,?_⟩
    rw [List.mem_append,List.mem_singleton]
    rintro (old | new)
    · exact notExited old
    · exact other (accounts.distinct i cur before alive (Event.exited.inj new))
  · intro i j aliveI aliveJ samePid
    rw [pid,pid] at samePid
    exact accounts.distinct i j (aliveAfter i aliveI).2 (aliveAfter j aliveJ).2 samePid
  · intro p lowP highP notExited
    rw [sameList] at highP
    rw [List.mem_append,List.mem_singleton,not_or] at notExited
    obtain ⟨i,isPid,before⟩ := accounts.lives p lowP highP notExited.1
    have other : i ≠ cur := by
      rintro rfl
      exact notExited.2 (by rw [isPid])
    refine ⟨i,(pid i).trans isPid,fun dead => before ?_⟩
    simpa [Kernel.setProc,other] using (same.dead i).mp dead
  · intro p exited
    rw [sameList]
    rw [List.mem_append,List.mem_singleton] at exited
    rcases exited with old | new
    · exact accounts.exits p old
    · rw [Event.exited.inj new]
      exact high
  · exact fun before after p => accounts_waits accounts (by simp)

end

theorem step_accounts {mach : Machine} {s t : State} {events : List Event} {event : Event} (consistent : Consistent s)
    (accounts : Accounts events s.kernel) (step : Step mach s event t) : Accounts (events ++ [event]) t.kernel := by
  have unchanged : ∀ {t : State}, Quiet s t → SamePids s.kernel t.kernel := by
    intro t quiet
    refine ⟨?_,quiet.next_pid,fun i => by rw [quiet.procs],fun i => by rw [quiet.procs]⟩
    rw [quiet.frames]
    exact grows_refl _
  cases step_kind step with
  | quiet quiet shows => exact accounts_quiet accounts (unchanged quiet) shows
  | waited pid quiet dead => exact accounts_waited accounts (unchanged quiet) dead
  | yield esp point before after => exact accounts_quiet accounts (yield_samePids s esp point) (.inl rfl)
  | spawn name calls =>
    exact accounts_created accounts
      (process_create_table (mach.access s.kernel) mach.process_start_trampoline s.rootfs name s.kernel)
      (process_create_uses (mach.access s.kernel) mach.process_start_trampoline s.rootfs name accounts.zero)
  | exit cur esp user current =>
    obtain ⟨cur',one⟩ := consistent.live (by rw [user]; exact live_user)
    have same : cur' = cur := Option.some_inj.mp (one.current.symm.trans current)
    have running := (one.unique cur).mpr same.symm
    exact accounts_exited accounts (by simp [running]) (yield_samePids
      { s with kernel := s.kernel.setProc cur { s.kernel.procs cur with state := .dead } } esp .halted)
  | start k boot started => exact accounts_quiet accounts (start_samePids started) (.inl rfl)
  | nothingToRun boot none => exact accounts_quiet accounts (samePids_refl _) (.inl rfl)

/-- The state in which `kmain` is about to create the first process. -/
def Booted (fuel : Nat) (b : Setup) (s : State) : Prop := s.cpu = .boot ∧ kmain fuel b = some (s.kernel,s.rootfs)

theorem booted_booting {fuel : Nat} {b : Setup} {s : State} (boot : Booted fuel b s) : Booting s := by
  obtain ⟨here,started⟩ := boot
  obtain ⟨frames,_,_,kernel⟩ := kmain_started started
  refine ⟨here,s.kernel,?_⟩
  rw [kernel]
  rfl

theorem run_accounts {fuel : Nat} {b : Setup} {mach : Machine} {s t : State} {events : List Event} (boot : Booted fuel b s)
    (run : Run mach s events t) : Accounts events t.kernel := by
  induction run with
  | refl =>
    obtain ⟨_,started⟩ := boot
    have zero := kmain_zero started
    obtain ⟨frames,_,_,kernel⟩ := kmain_started started
    have idle : ∀ i, (s.kernel.procs i).state = .dead := by
      rw [kernel]
      exact fun _ => rfl
    refine ⟨zero,?_,Nat.zero_le _,rfl,fun i alive => absurd (idle i) alive,fun i _ alive => absurd (idle i) alive,?_,
      by simp,by simp⟩
    · rw [kernel]
      rfl
    · intro pid low high
      have none : (pids []).length = 0 := rfl
      omega
  | step before step ih => exact step_accounts (run_consistent (booted_booting boot) before) ih step

/-- The first events of a run are those of a shorter run. -/
theorem run_before {mach : Machine} {s t : State} {events before after : List Event} (run : Run mach s events t)
    (split : events = before ++ after) : ∃ u, Run mach s before u := by
  induction run generalizing after with
  | refl =>
    have none : before = [] := (List.append_eq_nil_iff.mp split.symm).1
    rw [none]
    exact ⟨s,.refl⟩
  | @step events t u event earlier step ih =>
    rcases List.eq_nil_or_concat after with rfl | ⟨rest,final,rfl⟩
    · rw [List.append_nil] at split
      rw [← split]
      exact ⟨u,.step earlier step⟩
    · have shifted : events ++ [event] = (before ++ rest) ++ [final] := by simpa using split
      exact ih (List.append_inj' shifted rfl).1

theorem mem_pids {events : List Event} {k : Kernel} (accounts : Accounts events k) (pid : Word) :
    pid.toInt ∈ pids events ↔ 1 ≤ pid.toNat ∧ pid.toNat ≤ (pids events).length := by
  have bound := accounts_bound accounts
  have word := pid.isLt
  rw [accounts.numbers,List.length_map,List.length_range,List.mem_map]
  simp only [List.mem_range,BitVec.toInt_eq_toNat_cond]
  constructor
  · rintro ⟨i,inside,same⟩
    split at same <;> omega
  · rintro ⟨low,high⟩
    refine ⟨pid.toNat-1,by omega,?_⟩
    rw [if_pos (by omega)]
    omega

/-- In every run from boot: the identifiers that are returned increase, are positive,
    and belong to one live slot each; a process is alive from its creation to its
    exit and never again; a wait for it returns only after its exit; and the next
    call either fails with -1 or returns a larger identifier. -/
theorem pid_life_cycle {fuel : Nat} {b : Setup} {mach : Machine} {s t : State} {events : List Event}
    (boot : Booted fuel b s) (run : Run mach s events t) :
    (pids events).Pairwise (· < ·) ∧ (∀ pid ∈ pids events, 0 < pid ∧ pid < 2^31) ∧
      (∀ i j, (t.kernel.procs i).state ≠ .dead → (t.kernel.procs j).state ≠ .dead →
        (t.kernel.procs i).pid = (t.kernel.procs j).pid → i = j) ∧
      (∀ pid, process_is_alive t.kernel pid = true ↔ pid.toInt ∈ pids events ∧ .exited pid ∉ events) ∧
      (∀ before after pid, events = before ++ .waited pid :: after → pid.toInt ∈ pids before → .exited pid ∈ before) ∧
      ∀ name, ((spawn mach t name).slot = none ∧ (spawn mach t name).result = -1) ∨
        ((spawn mach t name).slot ≠ none ∧ 0 < (spawn mach t name).result ∧
          ∀ pid ∈ pids events, pid < (spawn mach t name).result) := by
  have accounts := run_accounts boot run
  have bound := accounts_bound accounts
  have values : ∀ pid ∈ pids events, 0 < pid ∧ pid < ((pids events).length+1 : Nat) := by
    intro pid member
    rw [accounts.numbers,List.mem_map] at member
    obtain ⟨i,inside,rfl⟩ := member
    rw [List.mem_range] at inside
    omega
  refine ⟨?_,?_,accounts.distinct,?_,?_,?_⟩
  · rw [accounts.numbers,List.pairwise_map]
    exact List.pairwise_lt_range.imp (fun lt => by omega)
  · intro pid member
    have := values pid member
    omega
  · intro pid
    rw [alive_iff,mem_pids accounts]
    constructor
    · rintro ⟨i,rfl,alive⟩
      obtain ⟨low,high,rest⟩ := accounts.slots i alive
      exact ⟨⟨low,high⟩,rest⟩
    · rintro ⟨⟨low,high⟩,notExited⟩
      exact accounts.lives pid low high notExited
  · intro before after pid split member
    obtain ⟨u,earlier⟩ := run_before run split
    obtain ⟨low,high⟩ := (mem_pids (run_accounts boot earlier) pid).mp member
    exact accounts.waits before after pid split low high
  · intro name
    have table := process_create_table (mach.access t.kernel) mach.process_start_trampoline t.rootfs name t.kernel
    change (spawn mach t name).Table t.kernel at table
    cases slot : (spawn mach t name).slot with
    | none => exact .inl ⟨rfl,(table.failed slot).1⟩
    | some i =>
      obtain ⟨_,result,_⟩ := table.filled i slot
      rw [result,accounts_toInt accounts]
      exact .inr ⟨by simp,by omega,fun pid member => (values pid member).2⟩

/-- On the small PC `shell` starts `hello`, which exits, and then `top` in the same slot. -/
theorem pid_life_cycle_pc : ∃ frames t, Booted 3 trio (trioState frames) ∧
    Run trioMachine (trioState frames) [.created 1,.silent,.created 2,.silent,.exited 2#32,.created 3] t ∧
    (t.kernel.procs 1).pid = 3#32 ∧ process_is_alive t.kernel 1#32 = true ∧ process_is_alive t.kernel 2#32 = false ∧
    process_is_alive t.kernel 3#32 = true := by
  obtain ⟨frames,ended,booted⟩ := trio_kmain
  have boot : Booted 3 trio (trioState frames) := ⟨rfl,booted⟩
  obtain ⟨_,first,s,starts,scene⟩ := scene_start ended
  obtain ⟨_,second,ready,pid,saved⟩ := scene_spawn scene (show helloName ∈ _ by simp)
  obtain ⟨t,u,switches,exits,left⟩ := scene_exit ready saved
  obtain ⟨_,third,_,reused,_⟩ := scene_spawn left (show topName ∈ _ by simp)
  have creates : Step trioMachine _ _ _ := .bootCreate (trioState frames) shellName rfl
  have spawns : Step trioMachine _ _ _ := .sysSpawn s helloName scene.user
  have again : Step trioMachine _ _ _ := .sysSpawn u topName left.user
  rw [first] at creates
  rw [second] at spawns
  rw [third] at again
  rw [pid] at exits
  have run : Run trioMachine (trioState frames) [.created 1,.silent,.created 2,.silent,.exited 2#32,.created 3] _ :=
    .step (.step (.step (.step (.step (.step .refl creates) starts) spawns) switches) exits) again
  obtain ⟨_,_,_,alive,_⟩ := pid_life_cycle boot run
  refine ⟨frames,_,boot,run,reused,(alive 1#32).mpr ?_,?_,(alive 3#32).mpr ?_⟩
  · decide
  · rw [← Bool.not_eq_true,alive 2#32]
    decide
  · decide

end SoKernel.PidLife
