import SoKernel.Syscalls
import SoKernel.PidLife

/-!
Listing the processes. `process_get_info` copies the whole name field of a live
process, but `process_create` writes only the name and one zero, so behind them the
caller still finds what the slot's earlier processes have left. As long as every new
name covers what is left in its slot, the listing is a function of the live processes.
-/
namespace SoKernel.ProcessListing
open SoKernel.Words SoKernel.Pages SoKernel.Pfa SoKernel.PfaInit SoKernel.Paging SoKernel.Fs SoKernel.Process SoKernel.Syscalls
  SoKernel.AddressSpace SoKernel.FrameCount SoKernel.System SoKernel.Scheduler SoKernel.Kmain SoKernel.PidLife
set_option linter.unusedSimpArgs false

/-! ### The loop of `process_get_info` -/

/-- The slots of the processes that are not dead, in their order. -/
def liveSlots (procs : Slot → Proc) : List Slot := (List.finRange MAX_PROCESSES).filter (fun i => (procs i).state ≠ .dead)

section Loop
variable {x : Access} {procs : Slot → Proc} {buf max : Word} {t : Touched}

theorem length_infos (slots : List Slot) :
    (slots.flatMap (fun i => proc_info (procs i))).length = sizeof_proc_info*slots.length := by
  induction slots with
  | nil => rfl
  | cons i rest ih =>
    rw [List.flatMap_cons,List.length_append,length_proc_info,ih,List.length_cons]
    ring

/-- The rounds for these slots, after the entries of the slots in `done`. -/
theorem get_info_rounds (slots done : List Slot) (short : done.length ≤ max.toInt.toNat) :
    slots.foldl (get_info_round x procs buf max) (done.length,t.putAll x buf (done.flatMap (fun i => proc_info (procs i)))) =
      (((done++slots.filter (fun i => (procs i).state ≠ .dead)).take max.toInt.toNat).length,
        t.putAll x buf (((done++slots.filter (fun i => (procs i).state ≠ .dead)).take max.toInt.toNat).flatMap
          (fun i => proc_info (procs i)))) := by
  induction slots generalizing done with
  | nil => rw [List.foldl_nil,List.filter_nil,List.append_nil,List.take_of_length_le short]
  | cons i rest ih =>
    rw [List.foldl_cons,get_info_round]
    by_cases dead : (procs i).state = .dead
    · rw [if_neg (by simp [dead]),List.filter_cons_of_neg (by simp [dead])]
      exact ih done short
    · rw [List.filter_cons_of_pos (by simp [dead])]
      by_cases room : done.length < max.toInt.toNat
      · have next := ih (done++[i]) (by rw [List.length_append,List.length_singleton]; omega)
        rw [List.length_append,List.length_singleton,List.flatMap_append,putAll_append,length_infos,List.flatMap_singleton,
          List.append_assoc] at next
        rw [if_pos ⟨by omega,dead⟩]
        exact next
      · -- The table is full: what follows is not looked at.
        have full : max.toInt.toNat = done.length := by omega
        have stays := ih done short
        rw [full,List.take_left] at stays
        rw [if_neg (by omega),full,List.take_left]
        exact stays

/-- `process_get_info` copies the entries of the first `max` live slots. -/
theorem process_get_info_eq : process_get_info x procs buf max t =
    (((liveSlots procs).take max.toInt.toNat).length,
      t.putAll x buf (((liveSlots procs).take max.toInt.toNat).flatMap (fun i => proc_info (procs i)))) :=
  get_info_rounds (List.finRange MAX_PROCESSES) [] (Nat.zero_le _)

end Loop

/-! ### Runs with the names of the processes -/

/-- The names under which the processes in the slots were created, after a call. -/
def named (names : Slot → List Byte) (c : Creation) (name : List Byte) : Slot → List Byte :=
  match c.slot with
  | none => names
  | some i => Function.update names i name

/-- A run in which every call of `process_create` is admitted, with the names under
    which the processes in the slots were created. -/
inductive History (mach : Machine) (admits : State → List Byte → Prop) (s : State) : (Slot → List Byte) → State → Prop
  | refl : History mach admits s (fun _ => []) s
  | create {names : Slot → List Byte} {t : State} (before : History mach admits s names t) (name : List Byte)
      (calls : t.cpu = .boot ∨ t.cpu = .user) (admitted : admits t name) :
      History mach admits s (named names (spawn mach t name) name) (afterSpawn t (spawn mach t name))
  | other {names : Slot → List Byte} {t u : State} {event : Event} (before : History mach admits s names t)
      (step : Step mach t event u) (noCall : ∀ result, event ≠ .created result) : History mach admits s names u

/-- Every run is one with names. -/
theorem run_history {mach : Machine} {s t : State} :
    (∃ events, Run mach s events t) ↔ ∃ names, History mach (fun _ _ => True) s names t := by
  constructor
  · rintro ⟨events,run⟩
    induction run with
    | refl => exact ⟨_,.refl⟩
    | step _ step ih =>
      obtain ⟨names,before⟩ := ih
      cases step_kind step with
      | spawn name calls => exact ⟨_,before.create name calls trivial⟩
      | quiet _ shows => exact ⟨names,before.other step (by rcases shows with rfl | ⟨eax,rfl⟩ <;> simp)⟩
      | _ => exact ⟨names,before.other step (by simp)⟩
  · rintro ⟨names,history⟩
    induction history with
    | refl => exact ⟨[],.refl⟩
    | create before name calls _ ih =>
      obtain ⟨events,run⟩ := ih
      rcases calls with boot | user
      · exact ⟨_,run.step (.bootCreate _ name boot)⟩
      · exact ⟨_,run.step (.sysSpawn _ name user)⟩
    | other before step _ ih =>
      obtain ⟨events,run⟩ := ih
      exact ⟨_,run.step step⟩

/-! ### Name fields -/

/-- A name field with nothing behind the name. -/
def padded (name : List Byte) : Fin PROC_NAME_MAX → Byte := fun j => ((name.take (PROC_NAME_MAX-1))[j.val]?).getD 0#8

/-- The new name reaches as far as what is left in the first dead slot. -/
def Covers (s : State) (name : List Byte) : Prop :=
  ∀ i, (s.kernel.procs i).state = .dead → (∀ j < i, (s.kernel.procs j).state ≠ .dead) →
    ∀ n : Fin PROC_NAME_MAX, min name.length (PROC_NAME_MAX-1) < n.val → (s.kernel.procs i).name n = 0#8

/-- The name fields of live processes have nothing behind the names. -/
def Clean (names : Slot → List Byte) (k : Kernel) : Prop := ∀ i, (k.procs i).state ≠ .dead → (k.procs i).name = padded (names i)

theorem copy_name_padded {old : Fin PROC_NAME_MAX → Byte} {name : List Byte} :
    copy_name old name = padded name ↔ ∀ j : Fin PROC_NAME_MAX, min name.length (PROC_NAME_MAX-1) < j.val → old j = 0#8 := by
  have cut : (if name.length > PROC_NAME_MAX-1 then PROC_NAME_MAX-1 else name.length) = min name.length (PROC_NAME_MAX-1) := by
    split <;> omega
  have each : ∀ j : Fin PROC_NAME_MAX, copy_name old name j = padded name j ↔
      (min name.length (PROC_NAME_MAX-1) < j.val → old j = 0#8) := by
    intro j
    simp only [copy_name,padded,cut,List.getElem?_take]
    by_cases inName : j.val < min name.length (PROC_NAME_MAX-1)
    · rw [if_pos inName,if_pos (by omega)]
      simp only [true_iff]
      omega
    · have outside : (if j.val < PROC_NAME_MAX-1 then name[j.val]? else none) = none := by
        split
        · rw [List.getElem?_eq_none (by omega)]
        · rfl
      rw [if_neg inName,outside]
      by_cases atEnd : j.val = min name.length (PROC_NAME_MAX-1)
      · rw [if_pos atEnd]
        simp only [Option.getD_none,true_iff]
        omega
      · rw [if_neg atEnd]
        exact ⟨fun zero _ => zero,fun zero => zero (by omega)⟩
  rw [funext_iff]
  exact forall_congr' each

/-- A step that creates no process leaves the name fields as they are, and brings nobody
    to life. -/
theorem step_names {mach : Machine} {s t : State} {event : Event} (step : Step mach s event t)
    (noCall : ∀ result, event ≠ .created result) (i : Slot) :
    (t.kernel.procs i).name = (s.kernel.procs i).name ∧ ((t.kernel.procs i).state ≠ .dead → (s.kernel.procs i).state ≠ .dead) := by
  have yields : ∀ (s : State) (esp : Word) (point : Point), ((yield s esp point).kernel.procs i).name = (s.kernel.procs i).name ∧
      (((yield s esp point).kernel.procs i).state ≠ .dead → (s.kernel.procs i).state ≠ .dead) := by
    intro s esp point
    refine ⟨?_,fun alive => (not_congr ((yield_samePids s esp point).dead i)).mp alive⟩
    simp only [yield]
    split
    · rfl
    · rename_i current
      split
      · rfl
      · rename_i found
        obtain ⟨_,_,_,_,_,procs⟩ := schedule_some esp current found
        rw [procs i]
  cases step_kind step with
  | quiet quiet shows =>
    rw [quiet.procs]
    exact ⟨rfl,id⟩
  | waited pid quiet =>
    rw [quiet.procs]
    exact ⟨rfl,id⟩
  | yield esp point => exact yields s esp point
  | spawn name => exact absurd rfl (noCall _)
  | exit cur esp =>
    obtain ⟨same,alive⟩ := yields { s with kernel := s.kernel.setProc cur { s.kernel.procs cur with state := .dead } } esp .halted
    by_cases isCur : i = cur
    · subst isCur
      simp only [Kernel.setProc,Function.update_self] at same alive
      exact ⟨same,fun living => absurd rfl (alive living)⟩
    · simp only [Kernel.setProc,Function.update_of_ne isCur] at same alive
      exact ⟨same,alive⟩
  | start k boot started =>
    refine ⟨?_,fun alive => (not_congr ((start_samePids started).dead i)).mp alive⟩
    obtain ⟨first,_,rfl⟩ := Option.map_eq_some_iff.mp started
    by_cases isFirst : i = first
    · simp [Kernel.setProc,isFirst]
    · simp [Kernel.setProc,isFirst]
  | nothingToRun => exact ⟨rfl,id⟩

/-- A new name that covers what is left keeps the fields clean. -/
theorem spawn_clean {mach : Machine} {s : State} {names : Slot → List Byte} {name : List Byte} (clean : Clean names s.kernel)
    (covers : Covers s name) : Clean (named names (spawn mach s name) name) (spawn mach s name).kernel := by
  intro i alive
  have table := process_create_table (mach.access s.kernel) mach.process_start_trampoline s.rootfs name s.kernel
  rcases table_slots table i with ⟨other,same⟩ | ⟨slot,_⟩
  · have kept : named names (spawn mach s name) name i = names i := by
      cases here : (spawn mach s name).slot with
      | none => simp only [named,here]
      | some j =>
        simp only [named,here]
        rw [Function.update_of_ne]
        rintro rfl
        exact other here
    change ((spawn mach s name).kernel.procs i) = s.kernel.procs i at same
    rw [same] at alive ⊢
    rw [kept]
    exact clean i alive
  · obtain ⟨found,written⟩ := process_create_name _ _ _ _ _ slot
    have new : named names (spawn mach s name) name i = name := by
      change (spawn mach s name).slot = some i at slot
      rw [named,slot]
      exact Function.update_self ..
    rw [new]
    exact written.trans (copy_name_padded.mpr (covers i (free_slot_dead found) (fun j => free_slot_first found)))

theorem history_clean {fuel : Nat} {b : Setup} {mach : Machine} {s t : State} {names : Slot → List Byte} (boot : Booted fuel b s)
    (history : History mach Covers s names t) : Clean names t.kernel := by
  induction history with
  | refl =>
    obtain ⟨_,_,_,kernel⟩ := kmain_started boot.2
    intro i alive
    rw [kernel] at alive
    exact absurd rfl alive
  | create before name calls covers ih => exact spawn_clean ih covers
  | other before step noCall ih =>
    intro i alive
    obtain ⟨same,living⟩ := step_names step noCall i
    rw [same]
    exact ih i (living alive)

/-! ### Two runs -/

/-- The same slots are alive, with the same pids, states and names, cut to 31 bytes. -/
structure SameLive (names : Slot → List Byte) (k : Kernel) (names' : Slot → List Byte) (k' : Kernel) : Prop where
  state : ∀ i, (k.procs i).state = (k'.procs i).state
  pid : ∀ i, (k.procs i).state ≠ .dead → (k.procs i).pid = (k'.procs i).pid
  name : ∀ i, (k.procs i).state ≠ .dead → (names i).take (PROC_NAME_MAX-1) = (names' i).take (PROC_NAME_MAX-1)

/-- The table of the first `max` live processes. -/
def listed (names : Slot → List Byte) (k : Kernel) (max : Word) : List Byte :=
  ((liveSlots k.procs).take max.toInt.toNat).flatMap (fun i =>
    little (k.procs i).pid ++ little (state_word (k.procs i).state) ++ List.ofFn (padded (names i)))

theorem listed_clean {names : Slot → List Byte} {k : Kernel} (clean : Clean names k) (max : Word) :
    ((liveSlots k.procs).take max.toInt.toNat).flatMap (fun i => proc_info (k.procs i)) = listed names k max := by
  refine List.flatMap_congr (fun i member => ?_)
  have alive : (k.procs i).state ≠ .dead := by simpa using (List.mem_filter.mp (List.mem_of_mem_take member)).2
  rw [proc_info,clean i alive]

theorem listed_same {names names' : Slot → List Byte} {k k' : Kernel} (same : SameLive names k names' k') (max : Word) :
    listed names k max = listed names' k' max := by
  have slots : liveSlots k'.procs = liveSlots k.procs := by
    simp only [liveSlots,same.state]
  rw [listed,listed,slots]
  refine List.flatMap_congr (fun i member => ?_)
  have alive : (k.procs i).state ≠ .dead := by simpa using (List.mem_filter.mp (List.mem_of_mem_take member)).2
  have field : padded (names i) = padded (names' i) := by
    funext j
    simp only [padded,same.name i alive]
  rw [field,same.pid i alive,same.state i]

/-- In runs from boot in which every new name covers what is left in its slot, the
    listing depends only on the live processes: it has the first `max` of them, in the
    order of their slots. -/
theorem listing_of_live {fuel fuel' : Nat} {b b' : Setup} {mach mach' : Machine} {s s' t t' : State}
    {names names' : Slot → List Byte} (boot : Booted fuel b s) (boot' : Booted fuel' b' s')
    (history : History mach Covers s names t) (history' : History mach' Covers s' names' t')
    (same : SameLive names t.kernel names' t'.kernel) (x : Access) (buf max : Word) (before : Touched) :
    process_get_info x t.kernel.procs buf max before = process_get_info x t'.kernel.procs buf max before ∧
      process_get_info x t.kernel.procs buf max before =
        (min max.toInt.toNat (liveSlots t.kernel.procs).length,before.putAll x buf (listed names t.kernel max)) := by
  have slots : liveSlots t'.kernel.procs = liveSlots t.kernel.procs := by
    simp only [liveSlots,same.state]
  rw [process_get_info_eq,process_get_info_eq,listed_clean (history_clean boot history),
    listed_clean (history_clean boot' history'),listed_same same,slots,List.length_take]
  exact ⟨rfl,rfl⟩

/-- On the small PC `hello` is created, and listed. -/
theorem listing_of_live_pc : ∃ frames names t, Booted 3 pcSetup (pcState frames) ∧
    History ⟨fun _ => physical,0x100010#32⟩ Covers (pcState frames) names t ∧ names 0 = helloName ∧
    (t.kernel.procs 0).state = .ready ∧ ∀ before, process_get_info physical t.kernel.procs 0x1000#32 16#32 before =
      (min 16 (liveSlots t.kernel.procs).length,before.putAll physical 0x1000#32 (listed names t.kernel 16#32)) := by
  obtain ⟨frames,ended,booted⟩ := pc_kmain
  have boot : Booted 3 pcSetup (pcState frames) := ⟨rfl,booted⟩
  obtain ⟨i,slot⟩ := pc_hello ended
  have isFirst : i = 0 := (Option.some_inj.mp (process_create_name _ _ _ _ _ slot).1).symm
  rw [isFirst] at slot
  have isReady := created_ready (process_create_table physical 0x100010#32 pcFs helloName (pcKernel frames)) slot
  have created : (spawn ⟨fun _ => physical,0x100010#32⟩ (pcState frames) helloName).slot = some 0 := slot
  have history : History ⟨fun _ => physical,0x100010#32⟩ Covers (pcState frames) _ _ :=
    History.refl.create helloName (.inl rfl) (fun _ _ _ _ _ => rfl)
  refine ⟨frames,_,_,boot,history,?_,isReady,fun before => ?_⟩
  · simp only [named,created]
    exact Function.update_self ..
  · exact (listing_of_live boot boot history history ⟨fun _ => rfl,fun _ _ => rfl,fun _ _ => rfl⟩ physical 0x1000#32 16#32
      before).2

/-! ### A slot that is used again

`shell` is the first process, starts another one, which runs and exits, and then starts
`top`. -/

/-- `shell` starts a program, which exits, and then `top`, which gets the same slot. -/
theorem scene_reused {frames : Frames} (ended : trio.init 3 = some frames) {first : List Byte}
    (known : first ∈ [helloName,shellName,topName]) :
    ∃ t names, History trioMachine (fun _ _ => True) (trioState frames) names t ∧ names 0 = shellName ∧ names 1 = topName ∧
      Scene t .ready 4#32 (copy_name (copy_name (fun _ => 0#8) first) topName) 0 ∧ (t.kernel.procs 1).pid = 3#32 := by
  have update : ∀ {s : State} {name : List Byte} (names : Slot → List Byte), (spawn trioMachine s name).slot = some 1 →
      named names (spawn trioMachine s name) name = Function.update names 1 name := by
    intro s name names slot
    simp only [named,slot]
  obtain ⟨slot₀,_,s,starts,scene⟩ := scene_start ended
  obtain ⟨slot,_,created,_,saved⟩ := scene_spawn scene known
  obtain ⟨t,u,runs,exits,left⟩ := scene_exit created saved
  obtain ⟨slot',_,again,pid,_⟩ := scene_spawn left (show topName ∈ _ by simp)
  have begun : History trioMachine (fun _ _ => True) (trioState frames) _ _ :=
    (History.refl.create shellName (.inl rfl) trivial).other starts (by simp)
  have shell : named (fun _ => []) (spawn trioMachine (trioState frames) shellName) shellName 0 = shellName := by
    simp only [named,slot₀]
    exact Function.update_self ..
  have history := (((begun.create first (.inr scene.user) trivial).other runs (by simp)).other exits (by simp)).create topName
    (.inr left.user) trivial
  rw [update _ slot,update _ slot'] at history
  refine ⟨_,_,history,?_,?_,again,pid⟩
  · rw [Function.update_of_ne (by decide),Function.update_of_ne (by decide),shell]
  · exact Function.update_self ..

/-! What the caller finds in its buffer. -/

theorem putAll_outside (t : Touched) (a : Word) (bytes : List Byte) {p : Word}
    (outside : ∀ j < bytes.length, p ≠ a+BitVec.ofNat 32 j) : (t.putAll physical a bytes).mem p = t.mem p := by
  induction bytes generalizing t a with
  | nil => rfl
  | cons b rest ih =>
    have here : p ≠ a := by simpa using outside 0 (by simp)
    rw [Touched.putAll,ih]
    · change write8 t.mem a b p = t.mem p
      rw [write8,if_neg here]
    · intro j inside same
      refine outside (j+1) (by rw [List.length_cons]; omega) ?_
      rw [same,Nat.add_comm,BitVec.ofNat_add,BitVec.add_assoc]

theorem putAll_inside (t : Touched) (a : Word) (bytes : List Byte) (short : bytes.length ≤ 2^32) {i : Nat} {b : Byte}
    (here : bytes[i]? = some b) : (t.putAll physical a bytes).mem (a+BitVec.ofNat 32 i) = b := by
  induction bytes generalizing t a i with
  | nil => cases here
  | cons c rest ih =>
    rw [List.length_cons] at short
    rw [Touched.putAll]
    cases i with
    | zero =>
      have same : c = b := by simpa using here
      rw [BitVec.add_zero,putAll_outside]
      · change write8 t.mem a c a = b
        rw [write8,if_pos rfl,same]
      · intro j inside clash
        bv_omega
    | succ i =>
      have next := ih (t.put physical a c) (a+1#32) (by omega) (by simpa using here)
      rwa [Nat.add_comm i 1,BitVec.ofNat_add,← BitVec.add_assoc]

theorem scene_listed {t : State} {next_pid : Word} {field : Fin PROC_NAME_MAX → Byte} {count : Nat}
    (scene : Scene t .ready next_pid field count) (before : Touched) :
    (process_get_info physical t.kernel.procs 0x1000#32 16#32 before).1 = 2 ∧
      (process_get_info physical t.kernel.procs 0x1000#32 16#32 before).2.mem 0x1034#32 = field 4 := by
  have alive : ∀ i, decide ((t.kernel.procs i).state ≠ .dead) = decide (i = 0 ∨ i = 1) := by
    intro i
    by_cases isZero : i = 0
    · simp [isZero,scene.zero]
    · by_cases isOne : i = 1
      · simp [isOne,scene.one]
      · simp [isZero,isOne,scene.others i isZero isOne]
  have slots : liveSlots t.kernel.procs = [0,1] := by
    simp only [liveSlots,alive]
    decide
  have infos : ([0,1].take (16#32 : Word).toInt.toNat).flatMap (fun i => proc_info (t.kernel.procs i)) =
      proc_info (t.kernel.procs 0)++proc_info (t.kernel.procs 1) := by
    rw [show (16#32 : Word).toInt.toNat = 16 from rfl]
    simp
  have byte : (proc_info (t.kernel.procs 0)++proc_info (t.kernel.procs 1))[52]? = some (field 4) := by
    have size : (little (t.kernel.procs 1).pid ++ little (state_word (t.kernel.procs 1).state)).length = 8 := by
      rw [List.length_append,little_length,little_length]
    rw [List.getElem?_append_right (by rw [length_proc_info]; decide),length_proc_info,proc_info,
      List.getElem?_append_right (by rw [size]; decide),size,scene.field,List.getElem?_ofFn]
    rfl
  have short : (proc_info (t.kernel.procs 0)++proc_info (t.kernel.procs 1)).length ≤ 2^32 := by
    rw [List.length_append,length_proc_info,length_proc_info]
    decide
  have found := putAll_inside before 0x1000#32 _ short byte
  rw [show (0x1000#32 : Word)+BitVec.ofNat 32 52 = 0x1034#32 by decide] at found
  have two : (([0,1] : List Slot).take (16#32 : Word).toInt.toNat).length = 2 := by decide
  rw [process_get_info_eq,slots,infos]
  exact ⟨two,found⟩

/-- After the same live processes the two runs differ in what the caller gets to see: the
    last letter of the name of `hello`, which has exited. -/
theorem exited_name_shown : ∃ frames t t' names names', Booted 3 trio (trioState frames) ∧
    History trioMachine (fun _ _ => True) (trioState frames) names t ∧
    History trioMachine (fun _ _ => True) (trioState frames) names' t' ∧ SameLive names t.kernel names' t'.kernel ∧
    ∀ before, (process_get_info physical t.kernel.procs 0x1000#32 16#32 before).1 = 2 ∧
      (process_get_info physical t'.kernel.procs 0x1000#32 16#32 before).1 = 2 ∧
      (process_get_info physical t.kernel.procs 0x1000#32 16#32 before).2.mem 0x1034#32 = 0x6F#8 ∧
      (process_get_info physical t'.kernel.procs 0x1000#32 16#32 before).2.mem 0x1034#32 = 0#8 := by
  obtain ⟨frames,ended,booted⟩ := trio_kmain
  obtain ⟨t,names,history,shell,top,scene,pid⟩ := scene_reused ended (show helloName ∈ _ by simp)
  obtain ⟨t',names',history',shell',top',scene',pid'⟩ := scene_reused ended (show topName ∈ _ by simp)
  have states : ∀ i, (t.kernel.procs i).state = (t'.kernel.procs i).state := by
    intro i
    by_cases isZero : i = 0
    · rw [isZero,scene.zero,scene'.zero]
    · by_cases isOne : i = 1
      · rw [isOne,scene.one,scene'.one]
      · rw [scene.others i isZero isOne,scene'.others i isZero isOne]
  have same : SameLive names t.kernel names' t'.kernel := by
    refine ⟨states,?_,?_⟩
    · intro i alive
      by_cases isZero : i = 0
      · rw [isZero,scene.pid,scene'.pid]
      · by_cases isOne : i = 1
        · rw [isOne,pid,pid']
        · exact absurd (scene.others i isZero isOne) alive
    · intro i alive
      by_cases isZero : i = 0
      · rw [isZero,shell,shell']
      · by_cases isOne : i = 1
        · rw [isOne,top,top']
        · exact absurd (scene.others i isZero isOne) alive
  refine ⟨frames,t,t',names,names',⟨rfl,booted⟩,history,history',same,fun before => ?_⟩
  obtain ⟨two,byte⟩ := scene_listed scene before
  obtain ⟨two',byte'⟩ := scene_listed scene' before
  exact ⟨two,two',byte,byte'⟩

end SoKernel.ProcessListing
