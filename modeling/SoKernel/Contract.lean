import SoKernel.Bystanders
import SoKernel.ProcessListing
import SoKernel.Programs
import SoKernel.Simulation
import SoKernel.Userland

/-!
The kernel keeps the contract that user programs rely on. A process enters the kernel
with a system call and comes back, and meanwhile others may have run for a long time. In
its memory it finds what the contract says, and in `eax` too. That holds on the machine
with its page tables and stacks, where the kernel stores through the pointers of the
caller, for every run in which these lead to pages of the caller.
-/
namespace SoKernel.Contract
open SoKernel.Words SoKernel.Pages SoKernel.Pfa SoKernel.Paging SoKernel.PageTables SoKernel.Stack SoKernel.Fs SoKernel.Process
  SoKernel.Keyboard SoKernel.AddressSpace SoKernel.Worlds SoKernel.StackReach SoKernel.Kmain SoKernel.Syscalls
  SoKernel.CallerBuffers SoKernel.Processor SoKernel.StackFrames SoKernel.KernelThreads SoKernel.KernelStacks SoKernel.ContextSwitch
  SoKernel.Footprint SoKernel.Bystanders SoKernel.ProcessListing SoKernel.Simulation SoKernel.Userland
set_option linter.unusedSimpArgs false

/-! ### What the kernel holds -/

/-- No key is stored as a zero. -/
def Typed (kb : Line) : Prop := ∀ n < kb.kb_line_len, kb.kb_line_buf n ≠ 0#8

/-- The names of processes have their ends in their fields. -/
def Ended (k : Kernel) : Prop := ∀ i, (k.procs i).state ≠ .dead → ∃ n, (k.procs i).name n = 0#8

/-- What the calls hand out is well formed. -/
structure Tidy (k : Kernel) (kb : Line) : Prop where
  typed : Typed kb
  pids : ∀ i, (k.procs i).state ≠ .dead → 0 ≤ (k.procs i).pid.toInt
  ended : Ended k

theorem handler_typed {kb : Line} (typed : Typed kb) (scan_code : Byte) : Typed (keyboard_handler kb scan_code).1 := by
  have shorter : Typed { kb with kb_line_len := kb.kb_line_len-1 } :=
    fun n below => typed n (lt_of_lt_of_le below (Nat.sub_le _ _))
  have longer : scancode_to_ascii scan_code ≠ 0#8 → Typed { kb with
      kb_line_buf := Function.update kb.kb_line_buf kb.kb_line_len (scancode_to_ascii scan_code)
      kb_line_len := kb.kb_line_len+1 } := by
    intro nonzero n below
    by_cases last : n = kb.kb_line_len
    · simpa only [last,Function.update_self] using nonzero
    · simpa only [Function.update_of_ne last] using typed n (lt_of_le_of_ne (Nat.lt_succ_iff.mp below) last)
  rw [keyboard_handler]
  split
  · exact typed
  dsimp only
  split
  · exact typed
  split
  · exact typed
  split
  · exact typed
  split
  · split
    · exact shorter
    · exact typed
  split
  · exact longer ‹_›
  · exact typed

theorem copy_name_ended (old : Fin PROC_NAME_MAX → Byte) (name : List Byte) : ∃ n, copy_name old name n = 0#8 := by
  have short : min name.length (PROC_NAME_MAX-1) < PROC_NAME_MAX := by
    simp only [PROC_NAME_MAX]
    omega
  refine ⟨⟨min name.length (PROC_NAME_MAX-1),short⟩,?_⟩
  have cut : (if name.length > PROC_NAME_MAX-1 then PROC_NAME_MAX-1 else name.length) = min name.length (PROC_NAME_MAX-1) := by
    split <;> omega
  simp only [copy_name,cut,lt_irrefl,if_false,if_true]

theorem spawn_ended {mach : System.Machine} {a : System.State} (ended : Ended a.kernel) (name : List Byte) :
    Ended (System.spawn mach a name).kernel := by
  intro i alive
  have table := process_create_table (mach.access a.kernel) mach.process_start_trampoline a.rootfs name a.kernel
  rcases table_slots table i with ⟨_,same⟩ | ⟨slot,_⟩
  · change ((process_create (mach.access a.kernel) mach.process_start_trampoline a.rootfs name a.kernel).kernel.procs i).state ≠
      .dead at alive
    rw [same] at alive
    change ∃ n, ((process_create (mach.access a.kernel) mach.process_start_trampoline a.rootfs name a.kernel).kernel.procs
      i).name n = 0#8
    rw [same]
    exact ended i alive
  · have named := (process_create_name (mach.access a.kernel) mach.process_start_trampoline a.rootfs name a.kernel slot).2
    change ∃ n, ((process_create (mach.access a.kernel) mach.process_start_trampoline a.rootfs name a.kernel).kernel.procs
      i).name n = 0#8
    rw [named]
    exact copy_name_ended _ name

theorem step_tidy {mach : System.Machine} {a a' : System.State} {event : System.Event} (step : System.Step mach a event a')
    (typed : Typed a.line) (ended : Ended a.kernel) : Typed a'.line ∧ Ended a'.kernel := by
  constructor
  · rcases LineInput.step_line step with same | ⟨scan_code,_,rfl⟩ | ⟨buf,max,eax,here,rfl⟩
    · rwa [same]
    · exact handler_typed typed scan_code
    · rw [(LineInput.read_got here step).1]
      exact fun n below => absurd below (Nat.not_lt_zero n)
  · by_cases created : ∃ result, event = .created result
    · obtain ⟨result,shows⟩ := created
      cases Scheduler.step_kind step with
      | spawn name calls => exact spawn_ended ended name
      | quiet _ silent => simp [shows] at silent
      | _ => cases shows
    · intro i alive
      obtain ⟨name,before⟩ := step_names step (fun result shows => created ⟨result,shows⟩) i
      rw [name]
      exact ended i (before alive)

theorem steps_tidy {mach : System.Machine} {a a' : System.State} {events : List System.Event}
    (run : System.Run mach a events a') (typed : Typed a.line) (ended : Ended a.kernel) : Typed a'.line ∧ Ended a'.kernel := by
  induction run with
  | refl => exact ⟨typed,ended⟩
  | step _ step ih => exact step_tidy step ih.1 ih.2

/-- It is well formed in every run of the machine. -/
theorem run_tidy {b : Setup} {fuel : Nat} {k : Kernel} {fs : FsInstance} (boot : kmain fuel b = some (k,fs)) {l : Linked}
    {r : Regs} (cs : r.cs = KERNEL_CODE_SEGMENT) {line : Line} {fb : Console.Fb} {events : List Event} {s : State}
    (run : Transparency.Runs b l fs k r line fb events s) (typed : Typed line) : Tidy s.cpu.kernel s.line := by
  obtain ⟨shown,a,simulated,here,_⟩ := run_simulated boot cs run
  have systemRun := plainRun_run simulated
  have accounts := PidLife.run_accounts (s := initial k fs line) ⟨rfl,boot⟩ systemRun
  have bound := PidLife.accounts_bound accounts
  have idle : Ended k := by
    obtain ⟨_,_,_,rfl⟩ := kmain_started boot
    exact fun i alive => absurd rfl alive
  obtain ⟨typed',ended⟩ := steps_tidy systemRun typed idle
  rw [← here.kernel,← here.line]
  refine ⟨typed',fun i alive => ?_,ended⟩
  have most := (accounts.slots i alive).2.1
  rw [BitVec.toInt_eq_toNat_of_lt (by omega)]
  exact Int.natCast_nonneg _

/-! ### The memory of the caller -/

/-- What a process finds in its memory, with a zero where it finds nothing. -/
def userMemory (s : State) (i : Slot) : Memory := fun a => (userView s i a).getD 0#8

theorem userMemory_congr {s s' : State} {i : Slot} (view : userView s' i = userView s i) : userMemory s' i = userMemory s i := by
  funext a
  rw [userMemory,view]
  rfl

/-- The same under the directory that is loaded. -/
def seenBy (k : Kernel) (m : Memory) : Memory := fun a => (reading m k.cr3 a).getD 0#8

/-- Only pages of the process have changed. -/
def Inwards (k : Kernel) (m : Memory) : Prop := ∀ a, ¬ Reached k a → m a = k.phys.mem a

theorem put_cons (m : Memory) (a : Word) (c : Byte) {rest : List Byte} (short : rest.length < 2^32) :
    put m a (c :: rest) = put (write8 m a c) (a+1#32) rest := by
  funext v
  by_cases here : v = a
  · subst here
    have beyond : rest[(v-(v+1#32)).toNat]? = none := List.getElem?_eq_none (by bv_omega)
    have first : (v-v).toNat = 0 := by simp
    simp only [put,beyond,first,List.getElem?_cons_zero,Option.getD_some,Option.getD_none,write8,if_true]
  · have next : (v-a).toNat = (v-(a+1#32)).toNat+1 := by bv_omega
    simp only [put,next,List.getElem?_cons_succ,write8,if_neg here]

section
variable {l : Linked} {b : Setup} {start : Frames} {k : Kernel} {log : List Creation} {thread : Slot → Thread}
  {book : List (Creation × Ghost)} {i : Slot} {m : Memory}
  (kept : Kept l b start k log thread book) (bootUsed : is_used start (pageOf b.page_directory) = true) (running : Running k i)
include kept bootUsed running

theorem store_inwards (inwards : Inwards k m) {a : Word} (own : UserByte k a) (v : Byte) :
    Inwards k (store8 (paged k.cr3) m a v) := by
  intro c outside
  have other : c ≠ paged k.cr3 m a := by
    rintro rfl
    exact outside (pointers_lead kept bootUsed running inwards own)
  rw [store8,write8,if_neg other,inwards c outside]

/-- A byte that the kernel stores through a pointer of the caller is where the caller sees it. -/
theorem store_seen (inwards : Inwards k m) {a : Word} (own : UserByte k a) (v : Byte) :
    seenBy k (store8 (paged k.cr3) m a v) = write8 (seenBy k m) a v := by
  have walk : ∀ n, Inwards k n → ∀ c, translate n k.cr3 c = translate k.phys.mem k.cr3 c := by
    intro n same c
    rw [translate_kept kept bootUsed running same]
  have after := store_inwards kept bootUsed running inwards own v
  obtain ⟨t,found,user⟩ := own
  have target : paged k.cr3 m a = t.phys := by
    rw [paged,walk m inwards,found]
    rfl
  funext c
  simp only [seenBy,reading,walk _ after,walk m inwards,write8]
  by_cases here : c = a
  · subst here
    simp only [found,Option.bind_some,user,if_true,store8,target,write8,Option.getD_some]
  · rw [if_neg here]
    cases foundC : translate k.phys.mem k.cr3 c with
    | none => rfl
    | some u =>
      by_cases userC : u.user = true
      · have apart : u.phys ≠ t.phys := by
          intro same
          refine here (user_bytes_apart kept running ⟨u,foundC,userC⟩ ⟨t,found,user⟩ ?_)
          rw [paged,foundC,paged,found]
          exact same
        simp only [Option.bind_some,userC,if_true,store8,target,write8,if_neg apart]
      · simp [userC]

/-- A byte of the process, where the kernel finds it. -/
theorem seen_own (inwards : Inwards k m) {a : Word} (own : UserByte k a) : seenBy k m a = m (entered k a) := by
  obtain ⟨t,found,user⟩ := own
  simp only [seenBy,reading,entered,translate_kept kept bootUsed running inwards,found,Option.bind_some,user,if_true,
    Option.getD_some,Option.map_some]

theorem putAll_seen {t : Touched} (inwards : Inwards k t.mem) {buf : Word} {text : List Byte} (short : text.length ≤ 2^32)
    (own : ∀ j < text.length, UserByte k (buf+BitVec.ofNat 32 j)) :
    seenBy k (t.putAll (paged k.cr3) buf text).mem = put (seenBy k t.mem) buf text := by
  induction text generalizing t buf with
  | nil => rfl
  | cons c rest ih =>
    have first : UserByte k buf := by simpa using own 0 (by simp)
    rw [List.length_cons] at short own
    rw [Touched.putAll,put_cons _ _ _ (by omega),ih (t := t.put (paged k.cr3) buf c)
      (store_inwards kept bootUsed running inwards first c) (by omega) (fun j below => ?_)]
    · change put (seenBy k (store8 (paged k.cr3) t.mem buf c)) _ _ = _
      rw [store_seen kept bootUsed running inwards first]
    · have next := own (j+1) (by omega)
      rwa [Nat.add_comm,BitVec.ofNat_add,← BitVec.add_assoc] at next

/-- What has not been stored to is seen as before. -/
theorem puts_seen {t u : Touched} (puts : Puts (paged k.cr3) t u) (inwards : Inwards k t.mem)
    (own : ∀ a ∈ u.stored, UserByte k a) :
    Inwards k u.mem ∧ ∀ a, a ∉ u.stored → seenBy k u.mem a = seenBy k t.mem a := by
  induction puts with
  | refl => exact ⟨inwards,fun _ _ => rfl⟩
  | @put u a v _ ih =>
    obtain ⟨before,same⟩ := ih (fun c old => own c (List.mem_cons_of_mem _ old))
    have here : UserByte k a := own a List.mem_cons_self
    refine ⟨store_inwards kept bootUsed running before here v,fun c other => ?_⟩
    change seenBy k (store8 (paged k.cr3) u.mem a v) c = _
    rw [store_seen kept bootUsed running before here,write8,if_neg (List.ne_of_not_mem_cons other)]
    exact same c (fun old => other (List.mem_cons_of_mem _ old))

end

/-! ### Listing files -/

section
variable {x : Access} {f : Word → Word} {good : Word → Prop} {fine : Memory → Prop} (agree : ∀ m, fine m → x m = f)
  (keep : ∀ m a v, fine m → good a → fine (store8 x m a v)) {t : Touched}
include agree

theorem put_agrees (here : fine t.mem) (a : Word) (v : Byte) : t.put x a v = t.put (fun _ => f) a v := by
  simp only [Touched.put,store8,agree _ here]

theorem seen_agrees {m : Memory} (here : fine m) : seen x m = seen (fun _ => f) m := by
  funext a
  simp only [seen,load8,agree _ here]

include keep

theorem copy_agrees (here : fine t.mem) {dest src : Word} {n : Nat} (own : ∀ a ∈ (t.copy x dest src n).stored, good a) :
    t.copy x dest src n = t.copy (fun _ => f) dest src n ∧ fine (t.copy x dest src n).mem := by
  induction n with
  | zero => exact ⟨rfl,here⟩
  | succ n ih =>
    rw [copy_succ] at own ⊢
    obtain ⟨same,before⟩ := ih (fun a old => own a (List.mem_cons_of_mem _ old))
    refine ⟨?_,keep _ _ _ before (own _ List.mem_cons_self)⟩
    rw [copy_succ,put_agrees agree before,← same,load8,load8,agree _ before]

/-- Pointers that lead to the same bytes all the while may as well be fixed. -/
theorem fs_list_from_agrees {fs : FsInstance} {buf buf_size : Word} {left i : Nat} {pos : Word} (here : fine t.mem)
    (own : ∀ a ∈ (fs_list_from x fs buf buf_size left i pos t).2.stored, good a) :
    fs_list_from x fs buf buf_size left i pos t = fs_list_from (fun _ => f) fs buf buf_size left i pos t ∧
      fine (fs_list_from x fs buf buf_size left i pos t).2.mem := by
  induction left generalizing i pos t with
  | zero => exact ⟨rfl,here⟩
  | succ left ih =>
    rw [fs_list_from] at own ⊢
    rw [fs_list_from,← seen_agrees agree here]
    by_cases more : pos < buf_size-1#32
    · rw [if_pos more] at own ⊢
      rw [if_pos more]
      dsimp only at own ⊢
      generalize strlen (seen x t.mem) (entry_addr fs i) = nlen at own ⊢
      by_cases full : buf_size ≤ pos+nlen+1#32
      · simp only [if_pos full]
        exact ⟨trivial,here⟩
      · simp only [if_neg full] at own ⊢
        have copied : ∀ a ∈ (t.copy x (buf+pos) (entry_addr fs i) nlen.toNat).stored, good a := fun a old =>
          own a (puts_stored (fs_list_from_puts ..) (List.mem_cons_of_mem _ old))
        obtain ⟨same,between⟩ := copy_agrees agree keep here copied
        have newline : good (buf+(pos+nlen)) := own _ (puts_stored (fs_list_from_puts ..) List.mem_cons_self)
        rw [← same,← put_agrees agree between]
        exact ih (keep _ _ _ between newline) own
    · rw [if_neg more,if_neg more]
      exact ⟨rfl,here⟩

theorem fs_list_agrees {fs : FsInstance} {buf buf_size : Word} (mounted : fs.header ≠ 0#32) (here : fine t.mem)
    (own : ∀ a ∈ (fs_list x fs buf buf_size t).2.stored, good a) :
    fs_list x fs buf buf_size t = fs_list (fun _ => f) fs buf buf_size t ∧
      fine (fs_list_from (fun _ => f) fs buf buf_size (num_files (seen (fun _ => f) t.mem) fs).toNat 0 0#32 t).2.mem := by
  rw [fs_list,if_neg mounted] at own
  rw [fs_list,fs_list,if_neg mounted,if_neg mounted,← seen_agrees agree here]
  obtain ⟨same,between⟩ := fs_list_from_agrees agree keep here (fun a old => own a (List.mem_cons_of_mem _ old))
  dsimp only
  rw [← same,← put_agrees agree between]
  exact ⟨rfl,between⟩

end

theorem put_bytes {m m' : Memory} {a : Word} {n : Nat} (few : n ≤ 2^32)
    (rest : ∀ c, (∀ j < n, c ≠ a+BitVec.ofNat 32 j) → m' c = m c) : put m a (bytes m' a n) = m' := by
  funext c
  by_cases inside : (c-a).toNat < n
  · have here : (bytes m' a n)[(c-a).toNat]? = some (m' c) := by
      rw [List.getElem?_eq_getElem (by rwa [length_bytes]),Option.some_inj]
      simp only [bytes,List.getElem_map,List.getElem_range]
      congr 1
      bv_omega
    rw [put,here,Option.getD_some]
  · rw [put,List.getElem?_eq_none (by rw [length_bytes]; omega),Option.getD_none,rest c]
    intro j below same
    bv_omega

theorem bytes_succ (m : Memory) (a : Word) (n : Nat) : bytes m a (n+1) = bytes m a n ++ [m (a+BitVec.ofNat 32 n)] := by
  simp only [bytes,List.range_succ,List.map_append,List.map_cons,List.map_nil]

section
variable {l : Linked} {b : Setup} {start : Frames} {k : Kernel} {log : List Creation} {thread : Slot → Thread}
  {book : List (Creation × Ghost)} {i : Slot}
  (kept : Kept l b start k log thread book) (bootUsed : is_used start (pageOf b.page_directory) = true) (running : Running k i)
include kept running

/-- No user code reaches a kernel stack. -/
theorem stack_supervisor : ¬ UserByte k (k.procs i).kernel_stack := by
  rintro ⟨t,found,user⟩
  rw [running.cr3,stack_identity kept (running_alive running) rfl,Option.some_inj] at found
  subst found
  cases user

include bootUsed

/-- The list of files, if the buffer is the caller's: a text without zeros and its end. -/
theorem fs_list_seen {fs : FsInstance} {buf buf_size : Word} (mounted : fs.header ≠ 0#32) (positive : 0 < buf_size.toNat)
    (own : ∀ a ∈ (fs_list (paged k.cr3) fs buf buf_size ⟨k.phys.mem,[],[]⟩).2.stored, UserByte k a) :
    ∃ text, Text text ∧ text.length < buf_size.toNat ∧
      (fs_list (paged k.cr3) fs buf buf_size ⟨k.phys.mem,[],[]⟩).1 = BitVec.ofNat 32 text.length ∧
      seenBy k (fs_list (paged k.cr3) fs buf buf_size ⟨k.phys.mem,[],[]⟩).2.mem =
        put (seenBy k k.phys.mem) buf (text++[0#8]) := by
  have start : Inwards k k.phys.mem := fun _ _ => rfl
  have agree : ∀ m, Inwards k m → paged k.cr3 m = entered k := by
    intro m same
    funext v
    rw [paged,translate_kept kept bootUsed running same,entered]
  have puts := fs_list_puts (paged k.cr3) fs buf buf_size ⟨k.phys.mem,[],[]⟩
  obtain ⟨_,elsewhere⟩ := puts_seen kept bootUsed running puts start own
  obtain ⟨same,between⟩ := fs_list_agrees agree (fun m a v fine good => store_inwards kept bootUsed running fine good v)
    mounted start own
  rw [same] at own elsewhere ⊢
  -- A name that wraps around would be stored over the kernel stack too.
  have roomy : Roomy (entered k) k.phys.mem fs buf buf_size (num_files (seen (fun _ => entered k) k.phys.mem) fs).toNat := by
    by_contra long
    have everywhere := own _ (fs_list_wraps mounted long ((k.procs i).kernel_stack-buf).isLt)
    rw [BitVec.ofNat_toNat,BitVec.setWidth_eq,BitVec.add_comm,BitVec.sub_add_cancel] at everywhere
    exact stack_supervisor kept running everywhere
  obtain ⟨last,t,listed,⟨_,_,position,_⟩,filled⟩ := fs_list_from_roomy roomy positive (Nat.zero_add _) rfl filled_start
  have short := position_lt positive position
  have bound := buf_size.isLt
  have result : fs_list (fun _ => entered k) fs buf buf_size ⟨k.phys.mem,[],[]⟩ =
      (BitVec.ofNat 32 last,t.put (fun _ => entered k) (buf+BitVec.ofNat 32 last) 0#8) := by
    rw [fs_list,if_neg mounted,show (0#32 : Word) = BitVec.ofNat 32 0 from rfl,listed]
  rw [show (0#32 : Word) = BitVec.ofNat 32 0 from rfl,listed] at between
  rw [result] at own elsewhere ⊢
  have ownEnd : UserByte k (buf+BitVec.ofNat 32 last) := own _ List.mem_cons_self
  have ended : seenBy k (t.put (fun _ => entered k) (buf+BitVec.ofNat 32 last) 0#8).mem =
      write8 (seenBy k t.mem) (buf+BitVec.ofNat 32 last) 0#8 := by
    rw [← put_agrees agree between]
    exact store_seen kept bootUsed running between ownEnd 0#8
  refine ⟨bytes (seenBy k t.mem) buf last,?_,by rwa [length_bytes],by rw [length_bytes],?_⟩
  · intro c member
    obtain ⟨j,below,rfl⟩ := List.mem_map.mp member
    rw [List.mem_range] at below
    have ownJ := own _ (List.mem_cons_of_mem _ ((filled.stored _).mpr ⟨j,below,rfl⟩))
    rw [seen_own kept bootUsed running between ownJ]
    exact fun zero => ((filled.zeros _).mp zero).2 j below rfl
  · have whole : bytes (seenBy k t.mem) buf last ++ [0#8] =
        bytes (write8 (seenBy k t.mem) (buf+BitVec.ofNat 32 last) 0#8) buf (last+1) := by
      rw [bytes_succ,write8,if_pos rfl]
      congr 1
      refine List.map_congr_left (fun j member => ?_)
      have other : buf+BitVec.ofNat 32 j ≠ buf+BitVec.ofNat 32 last := by
        rw [List.mem_range] at member
        bv_omega
      rw [write8,if_neg other]
    rw [whole,← ended,put_bytes (by omega)]
    intro c outside
    refine elsewhere c (fun stored => ?_)
    obtain ⟨j,below,here⟩ := (stored_put filled.stored 0#8 c).mp stored
    exact outside j below here

end

/-! ### One call -/

/-- An entry of the table of a process whose name has an end. -/
theorem proc_info_entry {q : Proc} (nonneg : 0 ≤ q.pid.toInt) (ended : ∃ n, q.name n = 0#8) :
    ∃ r : Row, r.Entry (proc_info q) := by
  obtain ⟨n,zero⟩ := ended
  have member : (0#8 : Byte) ∈ List.ofFn q.name := by
    rw [List.mem_ofFn]
    exact ⟨n,zero⟩
  obtain ⟨text,rest,split,before⟩ := List.eq_append_cons_of_mem member
  refine ⟨⟨q.pid,state_word q.state,text⟩,nonneg,fun c inside zero => before (zero ▸ inside),⟨rest,?_⟩,length_proc_info q⟩
  rw [proc_info,split,List.append_assoc text,List.singleton_append]

section
variable {b : Setup} {start : Frames} {p : Program} {s : State} {i : Slot} {e : Entry} {book : List (Creation × Ghost)}

/-- A call that is served at once, or whose loop has ended. -/
theorem outcome_keeps (bootUsed : is_used start (pageOf b.page_directory) = true)
    (inside : Inside p.linked b start s i e book) (tidy : Tidy s.cpu.kernel s.line) (call : Call) (ecx ebx : Word)
    (noExit : call ≠ .exit) (noSpawn : ∀ name, call ≠ .spawn name)
    (own : ∀ a ∈ (s.outcome p (call.regs ecx ebx)).stored, UserByte s.cpu.kernel a) :
    Keeps ⟨seenBy s.cpu.kernel s.cpu.mem,call⟩
      ⟨(s.outcome p (call.regs ecx ebx)).eax,
        seenBy s.cpu.kernel (s.outcome p (call.regs ecx ebx)).env.kernel.phys.mem⟩ := by
  have kept := inside.kept
  have running := inside.running
  have here : Inwards s.cpu.kernel s.cpu.mem := fun _ _ => rfl
  cases call with
  | write buf len =>
    rw [State.outcome,syscall_dispatch,Call.regs,if_pos rfl]
    change Reply.mk (BitVec.ofNat 32 (List.map _ (List.range len.toNat)).length) (seenBy s.cpu.kernel s.cpu.mem) = ⟨len,_⟩
    rw [List.length_map,List.length_range,BitVec.ofNat_toNat,BitVec.setWidth_eq]
  | exit => exact absurd rfl noExit
  | yield => rfl
  | spawn name => exact absurd rfl (noSpawn name)
  | read buf max =>
    have length := read_line_length s.line max
    have bound := max.isLt
    have short : (keyboard_read_line s.line max).1.length ≤ 2^32 := by omega
    refine ⟨(keyboard_read_line s.line max).1,?_,by omega,?_⟩
    · intro c member
      obtain ⟨n,below,rfl⟩ := List.mem_map.mp member
      rw [List.mem_range] at below
      exact tidy.typed n (by split at below <;> omega)
    · refine congrArg (Reply.mk _) ?_
      exact putAll_seen kept bootUsed running here short (fun j below => own _ (stored_putAll _ _ _ _ below))
  | wait pid => rfl
  | getprocs buf max =>
    have info : process_get_info s.access s.cpu.kernel.procs buf max ⟨s.cpu.mem,[],[]⟩ = _ := process_get_info_eq
    change ∀ a ∈ (process_get_info s.access s.cpu.kernel.procs buf max ⟨s.cpu.mem,[],[]⟩).2.stored, _ at own
    rw [info] at own
    have few : (liveSlots s.cpu.kernel.procs).length ≤ MAX_PROCESSES := by
      refine le_trans (List.length_filter_le ..) ?_
      rw [List.length_finRange]
    generalize slots : (liveSlots s.cpu.kernel.procs).take max.toInt.toNat = listed at info own
    have length : listed.length ≤ max.toInt.toNat ∧ listed.length ≤ MAX_PROCESSES := by
      rw [← slots,List.length_take]
      omega
    have short : (listed.flatMap (fun j => proc_info (s.cpu.kernel.procs j))).length ≤ 2^32 := by
      rw [length_infos]
      simp only [sizeof_proc_info,PROC_NAME_MAX,MAX_PROCESSES] at length ⊢
      omega
    refine ⟨listed.map (fun j => proc_info (s.cpu.kernel.procs j)),by rw [List.length_map]; exact length.1,?_,?_⟩
    · intro entry member
      obtain ⟨j,inList,rfl⟩ := List.mem_map.mp member
      have alive : (s.cpu.kernel.procs j).state ≠ .dead := by
        rw [← slots] at inList
        simpa using (List.mem_filter.mp (List.mem_of_mem_take inList)).2
      exact proc_info_entry (tidy.pids j alive) (tidy.ended j alive)
    · change Reply.mk (BitVec.ofNat 32 (process_get_info s.access s.cpu.kernel.procs buf max ⟨s.cpu.mem,[],[]⟩).1)
        (seenBy s.cpu.kernel (process_get_info s.access s.cpu.kernel.procs buf max ⟨s.cpu.mem,[],[]⟩).2.mem) = _
      rw [info,List.length_map,← List.flatMap_def]
      refine congrArg (Reply.mk _) ?_
      exact putAll_seen kept bootUsed running here short (fun j below => own _ (stored_putAll _ _ _ _ below))
  | listfiles buf max =>
    change ∀ a ∈ (fs_list s.access p.rootfs buf max ⟨s.cpu.mem,[],[]⟩).2.stored, _ at own
    change max ≠ 0#32 → ∃ text, Text text ∧ text.length < max.toNat ∧ (fs_list s.access p.rootfs buf max ⟨s.cpu.mem,[],[]⟩).1 = _ ∧
      (seenBy s.cpu.kernel (fs_list s.access p.rootfs buf max ⟨s.cpu.mem,[],[]⟩).2.mem = _ ∨
        (text = [] ∧ seenBy s.cpu.kernel (fs_list s.access p.rootfs buf max ⟨s.cpu.mem,[],[]⟩).2.mem = _))
    intro nonzero
    have positive : 0 < max.toNat := Nat.pos_of_ne_zero (fun none => nonzero (BitVec.eq_of_toNat_eq none))
    by_cases mounted : p.rootfs.header = 0#32
    · rw [fs_list,if_pos mounted]
      exact ⟨[],by simp [Text],positive,rfl,.inr ⟨rfl,rfl⟩⟩
    · obtain ⟨text,isText,short,result,left⟩ := fs_list_seen kept bootUsed running mounted positive own
      exact ⟨text,isText,short,result,.inl left⟩
  | clear => rfl

/-- What the caller sees when the result has been left on its kernel stack. -/
theorem finish_view (bootUsed : is_used start (pageOf b.page_directory) = true)
    (inside : Inside p.linked b start s i e book) (kind : e.kind = .syscall) {arguments : SyscallRegs}
    (noSpawn : arguments.eax ≠ SYS_SPAWN) (polite : ∀ a ∈ (s.outcome p arguments).stored, UserByte s.cpu.kernel a) :
    userMemory (s.finish i e (s.outcome p arguments)) i =
      seenBy s.cpu.kernel (s.outcome p arguments).env.kernel.phys.mem := by
  have moved := served_inside bootUsed inside noSpawn polite
  have notUser : s.mode ≠ .user := by
    rw [inside.mode]
    simp
  have effect : Effect (KernelData b start) _ .silent _ :=
    result_effect moved (v := (s.outcome p arguments).eax) (fun a changed => absurd rfl changed) (fun _ _ => rfl)
  have same := effect_view (fun _ own => own) moved.kept bootUsed effect
    ⟨running_alive moved.running,fun _ => ⟨fun both => notUser both.1,by simp⟩⟩
  change userView (State.result _ i e (slot ((s.setKernel (s.outcome p arguments).env.kernel).stack i) 1012) _) i = _ at same
  rw [served_stack noSpawn,← regs_pointer inside kind] at same
  obtain ⟨m,kernel⟩ := outcome_memory p s arguments noSpawn
  have dir : ((s.outcome p arguments).env.kernel.procs i).page_dir_phys = s.cpu.kernel.cr3 := by
    rw [kernel]
    exact inside.running.cr3.symm
  funext a
  rw [userMemory,State.finish,same]
  change (reading _ ((s.outcome p arguments).env.kernel.procs i).page_dir_phys a).getD 0#8 = _
  rw [dir]
  rfl

theorem userMemory_running (running : Running s.cpu.kernel i) : userMemory s i = seenBy s.cpu.kernel s.cpu.mem := by
  funext a
  rw [userMemory,userView,← running.cr3]
  rfl

theorem userByte_view (running : Running s.cpu.kernel i) {a : Word} (seen : userView s i a ≠ none) :
    UserByte s.cpu.kernel a := by
  rw [userView,reading,← running.cr3] at seen
  cases found : translate s.cpu.mem s.cpu.kernel.cr3 a with
  | none => simp [found] at seen
  | some t =>
    refine ⟨t,found,?_⟩
    by_contra supervisor
    simp [found,supervisor] at seen

/-- `SYS_READ` when a line has been typed. -/
theorem read_outcome (bootUsed : is_used start (pageOf b.page_directory) = true)
    (inside : Inside p.linked b start s i e book) {buf max : Word}
    {line : List Byte} (typed : (keyboard_read_line s.line max).1 = line)
    (own : ∀ j < line.length, UserByte s.cpu.kernel (buf+BitVec.ofNat 32 j)) {o : Outcome}
    (outcome : o = s.outcome p ⟨max,buf,SYS_READ⟩) :
    o.eax = BitVec.ofNat 32 line.length ∧ (∀ a ∈ o.stored, UserByte s.cpu.kernel a) ∧
      seenBy s.cpu.kernel o.env.kernel.phys.mem = put (seenBy s.cpu.kernel s.cpu.mem) buf line := by
  subst typed outcome
  have length := read_line_length s.line max
  have short : (keyboard_read_line s.line max).1.length ≤ 2^32 := by omega
  refine ⟨rfl,fun a stored => ?_,?_⟩
  · rcases mem_putAll stored with old | ⟨j,below,rfl⟩
    · cases old
    · exact own j below
  · exact putAll_seen inside.kept bootUsed inside.running (fun _ _ => rfl) short own

end

/-! ### From the call to the return -/

/-- The loop in which a call waits. -/
def Waits : Call → KernelThreads.Waiting → Prop
  | .read _ _, .read => True
  | .wait pid, .wait awaited => pid = awaited
  | _, _ => False

/-- How far the kernel is with a call that found the memory `m`, when the caller would now
    find `now`. -/
def Owed (call : Call) (m now : Memory) (e : Entry) : Point → Prop
  | .called => e.eax = e.regs.eax ∧ now = m
  | .test loop => Waits call loop ∧ now = m
  | .scheduled loop => Waits call loop ∧ now = m
  | .asleep loop => Waits call loop ∧ now = m
  | .exited => False
  | .done => Keeps ⟨m,call⟩ ⟨e.eax,now⟩

/-- The kernel works for the call of a process. -/
structure Busy (call : Call) (m : Memory) (s : State) (i : Slot) (e : Entry) (point : Point) : Prop where
  alive : (s.cpu.kernel.procs i).state ≠ .dead
  here : At s i e point
  kind : e.kind = .syscall
  regs : call.regs e.regs.ecx e.regs.ebx = ⟨e.regs.ecx,e.regs.ebx,e.regs.eax⟩
  owed : Owed call m (userMemory s i) e point

/-- The process has exited or has returned. -/
def Gone (s : State) (i : Slot) : Prop := (s.cpu.kernel.procs i).state = .dead ∨ (s.thread i).entry = none

def Serving (call : Call) (m : Memory) (s : State) (i : Slot) : Prop := (∃ e point, Busy call m s i e point) ∨ Gone s i

/-- The number tells which call it is. -/
theorem call_of_number (call : Call) (ecx ebx : Word) :
    ((call.regs ecx ebx).eax = SYS_EXIT → call = .exit) ∧ ((call.regs ecx ebx).eax = SYS_YIELD → call = .yield) ∧
      ((call.regs ecx ebx).eax = SYS_SPAWN → ∃ name, call = .spawn name) ∧
      ((call.regs ecx ebx).eax = SYS_READ → ∃ buf max, call = .read buf max) ∧
      ((call.regs ecx ebx).eax = SYS_WAIT → ∃ pid, call = .wait pid) := by
  cases call <;> simp [Call.regs,SYS_WRITE,SYS_EXIT,SYS_YIELD,SYS_SPAWN,SYS_READ,SYS_WAIT,SYS_GETPROCS,SYS_LISTFILES,SYS_CLEAR]

theorem waits_call {call : Call} {loop : KernelThreads.Waiting} (waits : Waits call loop) (ecx ebx : Word) :
    call ≠ .exit ∧ (∀ name, call ≠ .spawn name) ∧ (call.regs ecx ebx).eax = loop.number := by
  cases loop with
  | read => cases call <;> simp_all [Waits,Call.regs,Waiting.number]
  | wait pid => cases call <;> simp_all [Waits,Call.regs,Waiting.number]

section
variable {b : Setup} {start : Frames} {p : Program} {s s' : State} {event : Event} {i : Slot} {e : Entry} {point : Point}
  {book : List (Creation × Ghost)} {call : Call} {m : Memory}

/-- Somebody else takes a step. -/
theorem busy_rested (busy : Busy call m s i e point) (rested : Rested s event s' i)
    (view : userMemory s' i = userMemory s i) : Busy call m s' i e point :=
  ⟨rested.alive,rests_at rested.thread busy.here,busy.kind,busy.regs,by rw [view]; exact busy.owed⟩

/-- The C code of the call goes on elsewhere. -/
theorem busy_moved (busy : Busy call m s i e point) {next : Point} (owed : Owed call m (userMemory s i) e next) :
    Busy call m (s.setThread i (.inside e next)) i e next :=
  ⟨busy.alive,.inl (Function.update_self ..),busy.kind,busy.regs,owed⟩

theorem busy_schedules {l : Linked} (inv : ContextSwitch.Inv l b start s) (inside : s.In i e point)
    (busy : Busy call m s i e point) {next : Point} (schedules : Schedules l s i e next event s')
    (view : userMemory s' i = userMemory s i) (owed : Owed call m (userMemory s i) e next) : Busy call m s' i e next := by
  obtain ⟨alive,here⟩ := schedules_self inv inside schedules
  exact ⟨alive,here,busy.kind,busy.regs,by rw [view]; exact owed⟩

/-- The call is served. -/
theorem busy_finish (bootUsed : is_used start (pageOf b.page_directory) = true)
    (inside : Inside p.linked b start s i e book) (busy : Busy call m s i e point) (tidy : Tidy s.cpu.kernel s.line)
    (same : userMemory s i = m) {arguments : SyscallRegs} (isCall : arguments = call.regs e.regs.ecx e.regs.ebx)
    (noExit : call ≠ .exit) (noSpawn : ∀ name, call ≠ .spawn name)
    (polite : ∀ a ∈ (s.outcome p arguments).stored, UserByte s.cpu.kernel a) :
    Busy call m (s.finish i e (s.outcome p arguments)) i { e with eax := (s.outcome p arguments).eax } .done := by
  have noNumber : arguments.eax ≠ SYS_SPAWN := by
    intro isSpawn
    rw [isCall] at isSpawn
    obtain ⟨name,spawns⟩ := (call_of_number _ _ _).2.2.1 isSpawn
    exact noSpawn name spawns
  obtain ⟨_,kernel⟩ := outcome_memory p s arguments noNumber
  refine ⟨?_,.inl (Function.update_self ..),busy.kind,busy.regs,?_⟩
  · change ((s.outcome p arguments).env.kernel.procs i).state ≠ .dead
    rw [kernel]
    exact busy.alive
  · change Keeps ⟨m,call⟩ ⟨_,_⟩
    rw [finish_view bootUsed inside busy.kind noNumber polite,← same,userMemory_running inside.running]
    subst isCall
    exact outcome_keeps bootUsed inside tidy call _ _ noExit noSpawn polite

theorem in_unique {j : Slot} {e' : Entry} {point' : Point} (inside : s.In i e point) (other : s.In j e' point') :
    i = j ∧ e = e' ∧ point = point' := by
  have same : i = j := Option.some.inj (inside.2.1.symm.trans other.2.1)
  subst same
  obtain ⟨rfl,rfl⟩ := Thread.inside.inj (inside.2.2.symm.trans other.2.2)
  exact ⟨rfl,rfl,rfl⟩

theorem schedules_noStore {l : Linked} (schedules : Schedules l s i e point event s') :
    ∀ addresses, event ≠ .stored addresses := by
  intro addresses
  rcases schedules_event schedules with rfl | ⟨_,_,rfl⟩ <;> simp

/-- A step of the kernel for the call. -/
theorem own_step (bootUsed : is_used start (pageOf b.page_directory) = true) (data : p.data = KernelData b start)
    (inv : ContextSwitch.Inv p.linked b start s) (admits : Admits b p s event) (tidy : Tidy s.cpu.kernel s.line)
    (inside : s.In i e point) (busy : Busy call m s i e point)
    (step : KernelThreads.Step p s event s') : Serving call m s' i := by
  have within : ∀ f, p.data f → KernelData b start f := fun f own => by rwa [data] at own
  have found : s'.mode ≠ .wild := inv_notWild (step_inv bootUsed data inv admits step).1
  obtain ⟨book,isInside⟩ := inside_of inv inside
  have arguments := Transparency.inside_arguments isInside busy.kind
  have elsewhere {mode : Mode} (here : s.mode = mode) (other : mode ≠ .kernel) : False := other (here.symm.trans inside.1)
  have view : (∀ addresses, event ≠ .stored addresses) → userMemory s' i = userMemory s i := by
    intro noStore
    exact userMemory_congr (effect_view within isInside.kept bootUsed (step_effect bootUsed within inv admits step)
      ⟨busy.alive,fun _ => ⟨fun both => elsewhere both.1 (by simp),noStore⟩⟩)
  have interrupted {n : Vector} {error_code : Word} (kind : e.kind = .interrupt n error_code) : False := by
    rw [busy.kind] at kind
    cases kind
  have owed := busy.owed
  have number := call_of_number call e.regs.ecx e.regs.ebx
  rw [busy.regs] at number
  cases step with
  | nested j n error_code scan_code k w c interruptible space esp works returns left goesOn =>
    have kernel := (nested_left inv bootUsed interruptible space esp (works_mono within works) returns left).1
    have rested : Rested s .silent (State.device { s with cpu := c } (BitVec.ofNat 32 n) scan_code) i :=
      rested_mem busy.alive ((congrArg Cpu.kernel (device_cpu ..)).trans kernel) (by rw [device_thread])
    exact .inl ⟨e,point,busy_rested busy rested (view (by simp))⟩
  | nestedLost => exact absurd rfl found
  | work j e' point' c other works =>
    have rested : Rested s .silent { s with cpu := c } i := rested_mem busy.alive works.kernel rfl
    exact .inl ⟨e,point,busy_rested busy rested (view (by simp))⟩
  | handled j e' n error_code scan_code other kind noTick =>
    obtain ⟨rfl,rfl,rfl⟩ := in_unique inside other
    exact (interrupted kind).elim
  | tick j e' n error_code other kind timer _ _ schedules =>
    obtain ⟨rfl,rfl,rfl⟩ := in_unique inside other
    exact (interrupted kind).elim
  | sysExit j e' other kind isCall _ _ switched =>
    obtain ⟨rfl,rfl,rfl⟩ := in_unique inside other
    have aligned : PageAligned ((s.exit i).stack i) := by
      simpa [State.exit,State.setKernel,State.stack,Kernel.setProc] using inside_aligned isInside
    refine .inr (.inl (switches_dead (s := s.exit i) aligned inside.2.1 ?_ switched))
    simp [State.exit,State.setKernel,Kernel.setProc]
  | sysExitLast j e' other kind isCall alone =>
    obtain ⟨rfl,rfl,rfl⟩ := in_unique inside other
    exact .inr (.inl (by simp [State.exit,State.setKernel,Kernel.setProc]))
  | sysYield j e' other kind isCall _ _ schedules =>
    obtain ⟨rfl,rfl,rfl⟩ := in_unique inside other
    rw [arguments,owed.1] at isCall
    have yields := number.2.1 isCall
    refine .inl ⟨e,.done,busy_schedules inv inside busy schedules (view (schedules_noStore schedules)) ?_⟩
    rw [yields,owed.2]
    change Reply.mk e.eax m = ⟨SYS_YIELD,m⟩
    rw [owed.1,← isCall]
  | sysSpawn j e' name other kind isCall named =>
    obtain ⟨rfl,rfl,rfl⟩ := in_unique inside other
    rw [arguments,owed.1] at isCall
    obtain ⟨address,spawns⟩ := number.2.2.1 isCall
    refine .inl ⟨_,.done,(create_alive (p := p) busy.alive name).1,.inl (Function.update_self ..),busy.kind,busy.regs,?_⟩
    rw [view (by simp),spawns,owed.2]
    exact rfl
  | sysRead j e' other kind isCall =>
    obtain ⟨rfl,rfl,rfl⟩ := in_unique inside other
    rw [arguments,owed.1] at isCall
    obtain ⟨buf,max,reads⟩ := number.2.2.2.1 isCall
    refine .inl ⟨e,.test .read,busy_moved busy ⟨?_,owed.2⟩⟩
    rw [reads]
    trivial
  | sysWait j e' other kind isCall =>
    obtain ⟨rfl,rfl,rfl⟩ := in_unique inside other
    have isWait := isCall
    rw [arguments,owed.1] at isWait
    obtain ⟨pid,waits⟩ := number.2.2.2.2 isWait
    have regs := busy.regs
    rw [waits] at regs
    have awaited : pid = e.regs.ebx := congrArg SyscallRegs.ebx regs
    refine .inl ⟨e,.test (.wait (s.arguments i).ebx),busy_moved busy ⟨?_,owed.2⟩⟩
    rw [waits,arguments]
    exact awaited
  | sysAtOnce j e' other kind isCall =>
    obtain ⟨rfl,rfl,rfl⟩ := in_unique inside other
    have same : s.arguments i = call.regs e.regs.ecx e.regs.ebx := by rw [arguments,owed.1,busy.regs]
    simp only [List.mem_cons,List.not_mem_nil,or_false,not_or,same] at isCall
    refine .inl ⟨_,.done,busy_finish bootUsed isInside busy tidy owed.2 same ?_ ?_ admits⟩
    · rintro rfl
      exact isCall.1 rfl
    · rintro name rfl
      exact isCall.2.2.1 rfl
  | testReady j e' loop other kind isReady o outcome =>
    obtain ⟨rfl,rfl,rfl⟩ := in_unique inside other
    subst outcome
    obtain ⟨noExit,noSpawn,isNumber⟩ := waits_call owed.1 e.regs.ecx e.regs.ebx
    have same : { s.arguments i with eax := loop.number } = call.regs e.regs.ecx e.regs.ebx := by
      rw [busy.regs] at isNumber ⊢
      rw [arguments,← isNumber]
    exact .inl ⟨_,.done,busy_finish bootUsed isInside busy tidy owed.2 same noExit noSpawn admits⟩
  | testNotReady j e' loop other notReady _ _ schedules =>
    obtain ⟨rfl,rfl,rfl⟩ := in_unique inside other
    exact .inl ⟨e,_,busy_schedules inv inside busy schedules (view (schedules_noStore schedules)) owed⟩
  | scheduledReady j e' loop other isReady =>
    obtain ⟨rfl,rfl,rfl⟩ := in_unique inside other
    exact .inl ⟨e,.test loop,busy_moved busy owed⟩
  | scheduledNotReady j e' loop other notReady =>
    obtain ⟨rfl,rfl,rfl⟩ := in_unique inside other
    exact .inl ⟨e,.asleep loop,busy_moved busy owed⟩
  | wake j e' loop other =>
    obtain ⟨rfl,rfl,rfl⟩ := in_unique inside other
    exact .inl ⟨e,.test loop,busy_moved busy owed⟩
  | returns j e' c other esp left =>
    obtain ⟨rfl,rfl,rfl⟩ := in_unique inside other
    have idle : ({ s.setThread i .idle with cpu := c, mode := .user } : State).thread i = .idle := Function.update_self ..
    exact .inr (.inr (by rw [idle]; rfl))
  | returnLost => exact absurd rfl found
  | bootWork c boot => exact (elsewhere boot (by simp)).elim
  | bootKey scan_code boot => exact (elsewhere boot (by simp)).elim
  | bootCreate name boot => exact (elsewhere boot (by simp)).elim
  | nothingToRun boot => exact (elsewhere boot (by simp)).elim
  | start k j after boot => exact (elsewhere boot (by simp)).elim
  | launch j _ _ launching => exact (elsewhere launching (by simp)).elim
  | userCode r m user => exact (elsewhere user (by simp)).elim
  | interrupt j n error_code user => exact (elsewhere user (by simp)).elim
  | syscall j user => exact (elsewhere user (by simp)).elim

/-- Any step but another entry of the process. -/
theorem serving_step (bootUsed : is_used start (pageOf b.page_directory) = true) (data : p.data = KernelData b start)
    (inv : ContextSwitch.Inv p.linked b start s) (admits : Admits b p s event) (tidy : Tidy s.cpu.kernel s.line)
    (noEntry : ∀ e, event ≠ .entered i e)
    (step : KernelThreads.Step p s event s') (serving : Serving call m s i) : Serving call m s' i := by
  have within : ∀ f, p.data f → KernelData b start f := fun f own => by rwa [data] at own
  rcases serving with ⟨e,point,busy⟩ | dead | none
  · by_cases own : s.In i e point
    · exact own_step bootUsed data inv admits tidy own busy step
    have notOwn : ¬ Steps s i := by
      rintro (⟨user,current⟩ | ⟨e',point',inside⟩)
      · have idle := (user_stack inv user current).2.1
        rcases busy.here with inside | ⟨_,suspended⟩
        · cases inside.symm.trans idle
        · cases suspended.symm.trans idle
      · rcases busy.here with same | ⟨_,suspended⟩
        · obtain ⟨rfl,rfl⟩ := Thread.inside.inj (same.symm.trans inside.2.2)
          exact own inside
        · cases suspended.symm.trans inside.2.2
    have untouched : Untouched i s event := by
      refine ⟨busy.alive,fun current => ⟨fun both => notOwn (.inl ⟨both.1,current⟩),?_⟩⟩
      rintro addresses rfl
      obtain ⟨j,e',point',inside⟩ := stored_inside step
      have same : j = i := Option.some.inj (inside.2.1.symm.trans current)
      exact notOwn (.inr ⟨e',point',same ▸ inside⟩)
    obtain ⟨book,kept⟩ := inv.kept
    have view := effect_view within kept bootUsed (step_effect bootUsed within inv admits step) untouched
    rcases step_rested bootUsed within inv busy.alive step with rested | steps
    · exact .inl ⟨e,point,busy_rested busy rested (userMemory_congr view)⟩
    · exact absurd steps notOwn
  · rcases step_dead bootUsed within inv dead step with still | fresh
    · exact .inr (.inl still)
    · exact .inr (.inr (by rw [fresh]; rfl))
  · cases after : (s'.thread i).entry with
    | none => exact .inr (.inr after)
    | some e' =>
      rcases step_entry step after with enters | ⟨_,old,before,_⟩
      · exact absurd enters (noEntry e')
      · rw [none] at before
        cases before

end

section
variable {b : Setup} {fuel : Nat} {k : Kernel} {fs : FsInstance} (boot : kmain fuel b = some (k,fs)) {l : Linked} {r : Regs}
  (cs : r.cs = KERNEL_CODE_SEGMENT) {line : Line} {fb : Console.Fb} {events : List Event} {s : State}
  (run : Transparency.Runs b l fs k r line fb events s) {i : Slot}
include boot cs run

/-- The memory of a process that neither runs nor is stored to. -/
theorem view_kept {event : Event} {s' : State} (admits : Admits b ⟨l,fs,KernelData b k.phys.frames⟩ s event)
    (step : KernelThreads.Step ⟨l,fs,KernelData b k.phys.frames⟩ s event s') (untouched : Untouched i s event) :
    userView s' i = userView s i := by
  have bootUsed := kmain_image boot bootDir_shares
  have inv := (Transparency.run_inv boot cs run).1
  obtain ⟨book,kept⟩ := inv.kept
  exact effect_view (fun _ own => own) kept bootUsed
    (step_effect (p := ⟨l,fs,KernelData b k.phys.frames⟩) bootUsed (fun _ own => own) inv admits step) untouched

/-- Until the process enters the kernel again. -/
theorem serving_run (typed : Typed line) {call : Call} {m : Memory} {later : List Event} {s' : State}
    (away : KernelThreads.Run ⟨l,fs,KernelData b k.phys.frames⟩ (Admits b ⟨l,fs,KernelData b k.phys.frames⟩) s later s')
    (quiet : ∀ e, .entered i e ∉ later) (serving : Serving call m s i) : Serving call m s' i := by
  induction away with
  | refl => exact serving
  | step before admits step ih =>
    have reached := run_trans run before
    refine serving_step (kmain_image boot bootDir_shares) rfl (Transparency.run_inv boot cs reached).1 admits
      (run_tidy boot cs reached typed) (fun e shown => quiet e ?_) step (ih (fun e old => quiet e ?_))
    · rw [shown]
      exact List.mem_append_right _ List.mem_cons_self
    · exact List.mem_append_left _ old

/-- The process has made the call. -/
theorem serving_entered {call : Call} (regs : call.regs s.cpu.regs.ecx s.cpu.regs.ebx =
      ⟨s.cpu.regs.ecx,s.cpu.regs.ebx,s.cpu.regs.eax⟩) {e : Entry} (kind : e.kind = .syscall) {s' : State}
    (enters : KernelThreads.Step ⟨l,fs,KernelData b k.phys.frames⟩ s (.entered i e) s') :
    Serving call (userMemory s i) s' i := by
  have inv := (Transparency.run_inv boot cs run).1
  have shows : ¬ (Event.entered i e = .silent ∨ ∃ j r, Event.entered i e = .started j r) := by simp
  have view := view_kept boot cs run (i := i) (by exact trivial) enters
  cases enters with
  | syscall _ user current =>
    obtain ⟨running,_,ring3,aligned,esp0⟩ := user_stack inv user current
    have called := syscall_enters l aligned ring3 esp0
    refine .inl ⟨_,.called,?_,.inl (Function.update_self ..),rfl,regs,rfl,
      userMemory_congr (view ⟨running_alive running,fun _ => ⟨by simp,by simp⟩⟩)⟩
    change ((arrive_syscall l s.cpu).kernel.procs i).state ≠ .dead
    rw [called.kernel]
    exact running_alive (running_setMem running _)
  | interrupt _ n error_code user current => cases kind
  | launch j _ _ launching current lands => exact absurd (lands_event lands) shows
  | tick j e n error_code inside kind timer _ _ schedules => exact absurd (schedules_event schedules) shows
  | sysExit j e inside kind call _ _ switched => exact absurd (switches_event switched) shows
  | sysYield j e inside kind call _ _ schedules => exact absurd (schedules_event schedules) shows
  | testNotReady j e call inside notReady _ _ schedules => exact absurd (schedules_event schedules) shows

/-- A process that comes back finds its memory as it was before the last step. -/
theorem returned_memory {e : Entry} {r' : Regs} {s' : State}
    (back : KernelThreads.Step ⟨l,fs,KernelData b k.phys.frames⟩ s (.returned i e r') s') :
    (s.cpu.kernel.procs i).state ≠ .dead ∧ r'.eax = e.eax ∧ userMemory s' i = userMemory s i := by
  have inv := (Transparency.run_inv boot cs run).1
  have exact := (step_inv (kmain_image boot bootDir_shares) rfl inv (by exact trivial) back).2
  obtain ⟨book,inside⟩ := inside_of inv (returned_in back)
  have alive := running_alive inside.running
  exact ⟨alive,exact.eax,userMemory_congr (view_kept boot cs run (by exact trivial) back ⟨alive,fun _ => ⟨by simp,by simp⟩⟩)⟩

/-- The process comes back. -/
theorem serving_returned {call : Call} {m : Memory} (serving : Serving call m s i) {e : Entry} {r' : Regs} {s' : State}
    (back : KernelThreads.Step ⟨l,fs,KernelData b k.phys.frames⟩ s (.returned i e r') s') :
    Keeps ⟨m,call⟩ ⟨r'.eax,userMemory s' i⟩ := by
  have inside := returned_in back
  obtain ⟨alive,eax,same⟩ := returned_memory boot cs run back
  rcases serving with ⟨e',point,busy⟩ | dead | none
  · obtain ⟨rfl,rfl⟩ : e' = e ∧ point = .done := by
      rcases busy.here with here | ⟨_,suspended⟩
      · exact Thread.inside.inj (here.symm.trans inside.2.2)
      · cases suspended.symm.trans inside.2.2
    rw [same,eax]
    exact busy.owed
  · exact absurd dead alive
  · rw [inside.2.2] at none
    cases none

end

/-! ### Conversations -/

/-- A run of the machine and the calls of a process in it: the memory with which it makes
    a call, and what it finds when it is back. Between two calls it runs, is interrupted
    and waits for its turn. -/
inductive Talks (b : Setup) (p : Program) (i : Slot) (s : State) : List (Query × Reply) → State → Prop
  | start : Talks b p i s [] s
  | other {said : List (Query × Reply)} {s₁ s₂ : State} {event : Event} (before : Talks b p i s said s₁)
      (admits : Admits b p s₁ event) (step : KernelThreads.Step p s₁ event s₂)
      (noCall : ∀ e, event = .entered i e → e.kind ≠ .syscall) : Talks b p i s said s₂
  | call {said : List (Query × Reply)} {s₁ s₂ s₃ s₄ : State} {call : Call} {e e' : Entry} {r : Regs} {later : List Event}
      (before : Talks b p i s said s₁)
      (regs : call.regs s₁.cpu.regs.ecx s₁.cpu.regs.ebx = ⟨s₁.cpu.regs.ecx,s₁.cpu.regs.ebx,s₁.cpu.regs.eax⟩)
      (kind : e.kind = .syscall) (enters : KernelThreads.Step p s₁ (.entered i e) s₂)
      (away : KernelThreads.Run p (Admits b p) s₂ later s₃) (quiet : ∀ e, .entered i e ∉ later)
      (back : KernelThreads.Step p s₃ (.returned i e' r) s₄) :
      Talks b p i s (said ++ [(⟨userMemory s₁ i,call⟩,⟨r.eax,userMemory s₄ i⟩)]) s₄

theorem talks_run {b : Setup} {p : Program} {i : Slot} {s s' : State} {said : List (Query × Reply)}
    (talks : Talks b p i s said s') : ∃ events, KernelThreads.Run p (Admits b p) s events s' := by
  induction talks with
  | start => exact ⟨_,.refl⟩
  | other _ admits step _ ih =>
    obtain ⟨events,run⟩ := ih
    exact ⟨_,run.step admits step⟩
  | call _ _ _ enters away _ back ih =>
    obtain ⟨events,run⟩ := ih
    have inKernel := run.step (by exact trivial) enters
    exact ⟨_,(run_trans inKernel away).step (by exact trivial) back⟩

section
variable {b : Setup} {fuel : Nat} {k : Kernel} {fs : FsInstance} (boot : kmain fuel b = some (k,fs)) {l : Linked} {r : Regs}
  (cs : r.cs = KERNEL_CODE_SEGMENT) {line : Line} {fb : Console.Fb} {events : List Event} {s : State}
  (run : Transparency.Runs b l fs k r line fb events s) {i : Slot}
include boot cs run

/-- A process that asks for a line when there is one is given it. -/
theorem read_answers (user : s.mode = .user) (current : s.cpu.kernel.current = some i) (number : s.cpu.regs.eax = SYS_READ)
    (ready : keyboard_has_line s.line = true) {text : List Byte} (typed : (keyboard_read_line s.line s.cpu.regs.ecx).1 = text)
    (own : ∀ j < text.length, userView s i (s.cpu.regs.ebx+BitVec.ofNat 32 j) ≠ none) :
    ∃ s', Talks b ⟨l,fs,KernelData b k.phys.frames⟩ i s
      [(⟨userMemory s i,.read s.cpu.regs.ebx s.cpu.regs.ecx⟩,
        ⟨BitVec.ofNat 32 text.length,put (userMemory s i) s.cpu.regs.ebx text⟩)] s' := by
  have bootUsed := kmain_image boot bootDir_shares
  obtain ⟨t,u,enters,reads,inTest,sameCpu,sameLine,_⟩ := Transparency.read_tests (p := ⟨l,fs,KernelData b k.phys.frames⟩)
    bootUsed rfl (Transparency.run_inv boot cs run).1 user current number
  have runU := KernelThreads.Run.step (.step run (by exact trivial) enters) (by exact trivial) reads
  obtain ⟨book,inside⟩ := inside_of (Transparency.run_inv boot cs runU).1 inTest
  have running := (user_stack (Transparency.run_inv boot cs run).1 user current).1
  have viewT := view_kept boot cs run (by exact trivial) enters ⟨running_alive running,fun _ => ⟨by simp,by simp⟩⟩
  have view : userView u i = userView s i := by
    rw [← viewT]
    funext a
    rw [userView,userView,sameCpu]
  obtain ⟨o,outcome⟩ : ∃ o, o = u.outcome ⟨l,fs,KernelData b k.phys.frames⟩ { u.arguments i with eax := SYS_READ } := ⟨_,rfl⟩
  have stores := KernelThreads.Step.testReady (p := ⟨l,fs,KernelData b k.phys.frames⟩) u i _ .read inTest rfl
    (by rw [State.ready,sameLine,ready]) o outcome
  rw [Transparency.inside_arguments inside rfl] at outcome
  have typedU : (keyboard_read_line u.line s.cpu.regs.ecx).1 = text := by rw [sameLine]; exact typed
  obtain ⟨eax,polite,seen⟩ := read_outcome (p := ⟨l,fs,KernelData b k.phys.frames⟩) bootUsed inside typedU
    (fun j below => userByte_view inside.running (by rw [view]; exact own j below)) outcome
  have runV := KernelThreads.Run.step runU (by exact polite) stores
  have noSpawn : SYS_READ ≠ SYS_SPAWN := by decide
  have finished : userMemory (u.finish i ⟨.syscall,s.cpu.regs,SYS_READ⟩ o) i = put (userMemory s i) s.cpu.regs.ebx text := by
    rw [outcome] at seen polite ⊢
    rw [finish_view bootUsed inside rfl noSpawn polite,seen,← userMemory_running inside.running,userMemory_congr view]
  have inDone : (u.finish i ⟨.syscall,s.cpu.regs,SYS_READ⟩ o).In i ⟨.syscall,s.cpu.regs,o.eax⟩ .done := by
    obtain ⟨_,kernel⟩ := outcome_memory ⟨l,fs,KernelData b k.phys.frames⟩ u ⟨s.cpu.regs.ecx,s.cpu.regs.ebx,SYS_READ⟩ noSpawn
    rw [← outcome] at kernel
    refine ⟨inTest.1,?_,Function.update_self ..⟩
    change o.env.kernel.current = some i
    rw [kernel]
    exact inTest.2.1
  generalize u.finish i ⟨.syscall,s.cpu.regs,SYS_READ⟩ o = v at stores runV finished inDone
  obtain ⟨c,r',s',works,returns,_⟩ := Transparency.done_returns (p := ⟨l,fs,KernelData b k.phys.frames⟩)
    (Transparency.run_inv boot cs runV).1 inDone
  have runW := KernelThreads.Run.step runV (by exact trivial) works
  obtain ⟨_,insideV⟩ := inside_of (Transparency.run_inv boot cs runV).1 inDone
  have worked := view_kept boot cs runV (by exact trivial) works
    ⟨running_alive insideV.running,fun _ => ⟨fun both => Mode.noConfusion (both.1.symm.trans inDone.1),by simp⟩⟩
  obtain ⟨_,result,back⟩ := returned_memory boot cs runW returns
  have away : KernelThreads.Run ⟨l,fs,KernelData b k.phys.frames⟩ (Admits b ⟨l,fs,KernelData b k.phys.frames⟩) t _ _ :=
    .step (.step (.step .refl (by exact trivial) reads) (by exact polite) stores) (by exact trivial) works
  have talks : Talks b ⟨l,fs,KernelData b k.phys.frames⟩ i s
      [(⟨userMemory s i,.read s.cpu.regs.ebx s.cpu.regs.ecx⟩,⟨r'.eax,userMemory s' i⟩)] s' :=
    .call .start (by rw [number]; rfl) rfl enters away (by simp) returns
  rw [result,back,userMemory_congr worked,finished,eax] at talks
  exact ⟨s',talks⟩

end

section
variable {b : Setup} {fuel : Nat} {k : Kernel} {fs : FsInstance} (boot : kmain fuel b = some (k,fs)) {l : Linked} {r : Regs}
  (cs : r.cs = KERNEL_CODE_SEGMENT) {line : Line} (typed : Typed line) {fb : Console.Fb} {events : List Event} {s s' : State}
  (run : Transparency.Runs b l fs k r line fb events s) {i : Slot} {said : List (Query × Reply)}
  (talks : Talks b ⟨l,fs,KernelData b k.phys.frames⟩ i s said s')
include boot cs typed run talks

/-- Every call of a process is answered as the contract says. -/
theorem talks_kept : ∀ x ∈ said, Keeps x.1 x.2 := by
  induction talks with
  | start => simp
  | other _ _ _ _ ih => exact ih
  | call before regs kind enters away quiet back ih =>
    obtain ⟨_,first⟩ := talks_run before
    have reached := run_trans run first
    have serving := serving_entered boot cs reached regs kind enters
    have inKernel := reached.step (by exact trivial) enters
    have served := serving_run boot cs inKernel typed away quiet serving
    have kept := serving_returned boot cs (run_trans inKernel away) served back
    intro x member
    rcases List.mem_append.mp member with earlier | last
    · exact ih x earlier
    · rw [List.mem_singleton.mp last]
      exact kept

end

/-- Since its memory was `m`, a process has had this conversation with the kernel. The
    machine has been booted in some way, programs that have been created fit, and pointers
    have led to memory of the caller. -/
inductive Served : Memory → List (Query × Reply) → Prop
  | intro {b : Setup} {fuel : Nat} {k : Kernel} {fs : FsInstance} (boot : kmain fuel b = some (k,fs)) {l : Linked} {r : Regs}
      (cs : r.cs = KERNEL_CODE_SEGMENT) {line : Line} (typed : Typed line) {fb : Console.Fb} {events : List Event} {s s' : State}
      (run : Transparency.Runs b l fs k r line fb events s) {i : Slot} {said : List (Query × Reply)}
      (talks : Talks b ⟨l,fs,KernelData b k.phys.frames⟩ i s said s') : Served (userMemory s i) said

theorem served_keeps {m : Memory} {said : List (Query × Reply)} (served : Served m said) : ∀ x ∈ said, Keeps x.1 x.2 := by
  cases served with
  | intro boot cs typed run talks => exact talks_kept boot cs typed run talks

/-- A program that owns its first byte only, and has no literals. -/
def firstByte : Layout [] (fun a => a = 0#32) := ⟨fun _ => 0#32,by simp⟩

end SoKernel.Contract
