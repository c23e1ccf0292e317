import SoKernel.CallerBuffers
import SoKernel.ProcessListing

/-!
The caller's pages. `syscall_dispatch` does not look at the pages behind the pointer
that it is passed. Which bytes from the pointer on a call will touch is settled when it
is made: by the arguments, the line that has been typed, the process table and the names
of the files (`Uses`). So a call stays within the caller's pages exactly when these
bytes are in them, and nothing in the kernel sees to that.
-/
namespace SoKernel.UserPages
open SoKernel.Words SoKernel.Pages SoKernel.Pfa SoKernel.Paging SoKernel.Fs SoKernel.Process SoKernel.Keyboard
  SoKernel.Kmain SoKernel.Syscalls SoKernel.CallerBuffers SoKernel.ProcessListing
set_option linter.unusedSimpArgs false

/-! ### Comparing names -/

/-- The first bytes of a string are those at an address. -/
def Agrees (m : Memory) (a : Word) (name : List Byte) (n : Nat) : Prop :=
  ∀ j < n, name[j]? = some (m (a+BitVec.ofNat 32 j))

section Names
variable {m : Memory} {fs : FsInstance} {name : List Byte} {a : Word}

theorem agrees_le {n : Nat} (agrees : Agrees m a name n) : n ≤ name.length := by
  by_contra long
  have past := agrees name.length (by omega)
  rw [List.getElem?_eq_none (le_refl _)] at past
  cases past

theorem agrees_cons {c : Byte} {rest : List Byte} {n : Nat} :
    Agrees m a (c :: rest) (n+1) ↔ m a = c ∧ Agrees m (a+1#32) rest n := by
  have next (j : Nat) : a+BitVec.ofNat 32 (j+1) = a+1#32+BitVec.ofNat 32 j := by
    rw [Nat.add_comm,BitVec.ofNat_add,BitVec.add_assoc]
  constructor
  · intro agrees
    constructor
    · have first := agrees 0 (by omega)
      simpa [eq_comm] using first
    · intro j below
      have later := agrees (j+1) (by omega)
      rwa [List.getElem?_cons_succ,next] at later
  · rintro ⟨first,later⟩ j below
    cases j with
    | zero => simp [first]
    | succ j =>
      rw [List.getElem?_cons_succ,next]
      exact later j (by omega)

/-- `strcmp` goes on as long as the strings agree. -/
theorem strcmp_fetches_iff (text : Text name) (n : Nat) : n < strcmp_fetches m a name ↔ Agrees m a name n := by
  induction name generalizing a n with
  | nil =>
    constructor
    · intro first j below
      rw [strcmp_fetches] at first
      omega
    · intro agrees
      have := agrees_le agrees
      rw [List.length_nil] at this
      rw [strcmp_fetches]
      omega
  | cons c rest ih =>
    have nonzero : c ≠ 0#8 := text c List.mem_cons_self
    have later := ih (a := a+1#32) (fun b member => text b (List.mem_cons_of_mem _ member))
    rw [strcmp_fetches]
    cases n with
    | zero =>
      refine iff_of_true ?_ (fun j below => absurd below (Nat.not_lt_zero j))
      split <;> omega
    | succ n =>
      rw [agrees_cons]
      by_cases same : m a = c
      · rw [if_pos ⟨same ▸ nonzero,same⟩,Nat.add_lt_add_iff_right,later]
        exact (and_iff_right same).symm
      · rw [if_neg (fun both => same both.2)]
        exact iff_of_false (by omega) (fun both => same both.1)

/-- A string that `strcmp` finds equal is fetched to its end. -/
theorem agrees_of_strcmp (text : Text name) (equal : strcmp m a name = 0) : Agrees m a name name.length := by
  induction name generalizing a with
  | nil => exact fun j below => absurd below (Nat.not_lt_zero j)
  | cons c rest ih =>
    have nonzero : c ≠ 0#8 := text c List.mem_cons_self
    rw [strcmp] at equal
    split at equal
    · rename_i same
      exact agrees_cons.mpr ⟨same.2,ih (fun b member => text b (List.mem_cons_of_mem _ member)) equal⟩
    · rename_i other
      have same : m a = c := BitVec.eq_of_toNat_eq (by omega)
      exact absurd ⟨same ▸ nonzero,same⟩ other

theorem agrees_mono {n k : Nat} (agrees : Agrees m a name k) (below : n ≤ k) : Agrees m a name n :=
  fun j inside => agrees j (by omega)

/-- The search looks at a byte if the bytes before it are those of some name. -/
theorem fs_find_fetches_iff (text : Text name) (left i n : Nat) :
    n ∈ fs_find_fetches m fs name left i ↔ ∃ k : Nat, i ≤ k ∧ k < i+left ∧ Agrees m (entry_addr fs k) name n := by
  induction left generalizing i with
  | zero =>
    refine iff_of_false List.not_mem_nil ?_
    rintro ⟨k,low,high,_⟩
    omega
  | succ left ih =>
    rw [fs_find_fetches,List.mem_append,List.mem_range,strcmp_fetches_iff text]
    constructor
    · rintro (here | later)
      · exact ⟨i,le_refl _,by omega,here⟩
      · split at later
        · cases later
        · obtain ⟨k,low,high,agrees⟩ := (ih (i+1)).mp later
          exact ⟨k,by omega,by omega,agrees⟩
    · rintro ⟨k,low,high,agrees⟩
      by_cases found : strcmp m (entry_addr fs i) name = 0
      · exact .inl (agrees_mono (agrees_of_strcmp text found) (agrees_le agrees))
      · by_cases here : k = i
        · exact .inl (here ▸ agrees)
        · rw [if_neg found]
          exact .inr ((ih (i+1)).mpr ⟨k,by omega,by omega,agrees⟩)

/-- A search that succeeds has found the name. -/
theorem fs_find_equal (found : ¬ fs_find m fs name < 0) :
    fs.header ≠ 0#32 ∧ ∃ k < (num_files m fs).toNat, strcmp m (entry_addr fs k) name = 0 := by
  by_cases mounted : fs.header = 0#32
  · rw [fs_find,if_pos mounted] at found
    omega
  · refine ⟨mounted,?_⟩
    by_contra missing
    have nowhere : fs_find_from m fs name (num_files m fs).toNat 0 = -1 :=
      fs_find_from_none (fun k _ high equal => missing ⟨k,by omega,equal⟩)
    rw [fs_find,if_neg mounted,nowhere] at found
    omega

end Names

/-- The string that a pointer points to has no zero byte. -/
theorem text_c_string (m : Memory) (s : Word) : Text (c_string m s) := by
  intro c member
  obtain ⟨i,below,rfl⟩ := List.mem_map.mp member
  exact strlen_nonzero (List.mem_range.mp below)

/-- `process_create` looks at a byte of the program's name if there is a slot for the
    process and the bytes before it are those of some file's name. -/
theorem process_create_fetches_iff (x : Access) (process_start_trampoline : Word) (fs : FsInstance) {name : List Byte}
    (text : Text name) (k : Kernel) (n : Nat) :
    n ∈ process_create_fetches (seen x k.phys.mem) fs name k (process_create x process_start_trampoline fs name k) ↔
      free_slot k.procs ≠ none ∧ fs.header ≠ 0#32 ∧
        ∃ i < (num_files (seen x k.phys.mem) fs).toNat, Agrees (seen x k.phys.mem) (entry_addr fs i) name n := by
  rw [process_create_fetches]
  cases slot : free_slot k.procs with
  | none => simp
  | some free =>
    have finds : n ∈ (if fs.header = 0#32 then [] else fs_find_fetches (seen x k.phys.mem) fs name
        (num_files (seen x k.phys.mem) fs).toNat 0) ↔ fs.header ≠ 0#32 ∧
          ∃ i < (num_files (seen x k.phys.mem) fs).toNat, Agrees (seen x k.phys.mem) (entry_addr fs i) name n := by
      split
      · rename_i lost
        exact iff_of_false List.not_mem_nil (fun both => both.1 lost)
      · rename_i mounted
        rw [fs_find_fetches_iff text]
        simp [mounted]
    rw [List.mem_append,finds]
    refine ⟨fun touched => ⟨by simp,?_⟩,fun touched => .inl touched.2⟩
    rcases touched with found | copied
    · exact found
    · -- A process is made of a program that was found, and its name is the whole string.
      split at copied
      · cases copied
      rename_i filled
      have found : ¬ fs_find (seen x k.phys.mem) fs name < 0 := by
        intro lost
        have failed : process_create x process_start_trampoline fs name k = .failed k :=
          (Spawning.process_create_lost process_start_trampoline (fun found => found.2 lost)).1
        rw [failed] at filled
        exact filled rfl
      obtain ⟨mounted,i,entry,equal⟩ := fs_find_equal found
      have short : n ≤ name.length := by
        rcases List.mem_append.mp copied with length | cut
        · rw [List.mem_range] at length
          omega
        · rw [List.mem_range] at cut
          split at cut <;> omega
      exact ⟨mounted,i,entry,agrees_mono (agrees_of_strcmp text equal) short⟩

/-! ### The listing -/

section Listing
variable {f : Word → Word} {m : Memory} {fs : FsInstance} {buf buf_size : Word} {files : Nat}

theorem position_le {i k pos last : Nat} (earlier : i ≤ k) (here : position f m fs buf buf_size i = some pos)
    (later : position f m fs buf buf_size k = some last) : pos ≤ last := by
  induction k generalizing last with
  | zero =>
    obtain rfl : i = 0 := by omega
    rw [here] at later
    cases later
    exact le_refl _
  | succ k ih =>
    by_cases same : i = k+1
    · rw [same,later] at here
      cases here
      exact le_refl _
    · obtain ⟨before,there,next⟩ := Option.bind_eq_some_iff.mp later
      have rises := ih (by omega) there
      split at next
      · cases next
        omega
      · cases next

/-- The names that fit end where the listing does. -/
theorem ends_iff {last : Nat} (ends : Ends f m fs buf buf_size files last) (j : Nat) :
    (∃ i ≤ files, ∃ pos, position f m fs buf buf_size i = some pos ∧ j ≤ pos) ↔ j ≤ last := by
  obtain ⟨k,inside,here,stops⟩ := ends
  constructor
  · rintro ⟨i,within,pos,there,below⟩
    by_cases earlier : i ≤ k
    · exact le_trans below (position_le earlier there here)
    · obtain ⟨next,_,goesOn⟩ := position_before (show k+1 ≤ i by omega) there
      rw [stops (by omega)] at goesOn
      cases goesOn
  · exact fun below => ⟨k,inside,last,here,below⟩

end Listing

/-- A listing stores to the bytes of the names that fit, with their newlines, and to the
    byte behind them. If a name wraps around it stores to every byte there is. -/
def Lists (f : Word → Word) (m : Memory) (fs : FsInstance) (buf buf_size : Word) (j : Nat) : Prop :=
  fs.header ≠ 0#32 ∧
    ((∃ i ≤ (num_files (seen (fun _ => f) m) fs).toNat, ∃ pos, position f m fs buf buf_size i = some pos ∧ j ≤ pos) ∨
      ¬ Roomy f m fs buf buf_size (num_files (seen (fun _ => f) m) fs).toNat ∧ j < 2^32)

theorem fs_list_stored_iff (f : Word → Word) (m : Memory) (fs : FsInstance) (buf buf_size a : Word) :
    a ∈ (fs_list (fun _ => f) fs buf buf_size ⟨m,[],[]⟩).2.stored ↔
      ∃ j, Lists f m fs buf buf_size j ∧ a = buf+BitVec.ofNat 32 j := by
  by_cases mounted : fs.header = 0#32
  · rw [fs_list,if_pos mounted]
    refine iff_of_false List.not_mem_nil ?_
    rintro ⟨j,lists,_⟩
    exact lists.1 mounted
  by_cases roomy : Roomy f m fs buf buf_size (num_files (seen (fun _ => f) m) fs).toNat
  · have stops : ∃ last, Ends f m fs buf buf_size (num_files (seen (fun _ => f) m) fs).toNat last ∧
        ∀ a, a ∈ (fs_list (fun _ => f) fs buf buf_size ⟨m,[],[]⟩).2.stored ↔ ∃ j < last+1, a = buf+BitVec.ofNat 32 j := by
      by_cases positive : 0 < buf_size.toNat
      · obtain ⟨last,ends,_,stored⟩ := fs_list_ends mounted positive roomy
        exact ⟨last,ends,stored⟩
      · -- Without a buffer there is only the terminating zero.
        obtain rfl : buf_size = 0#32 := BitVec.eq_of_toNat_eq (by simpa using positive)
        refine ⟨0,⟨0,Nat.zero_le _,rfl,fun _ => by simp [position]⟩,fun a => ?_⟩
        rw [fs_list_nowhere _ _ mounted]
        simp [Touched.put]
    obtain ⟨last,ends,stored⟩ := stops
    rw [stored]
    refine exists_congr (fun j => and_congr_left (fun _ => ?_))
    rw [Lists,ends_iff ends,Nat.lt_succ_iff]
    exact ⟨fun below => ⟨mounted,.inl below⟩,fun lists => lists.2.resolve_right (fun wraps => wraps.1 roomy)⟩
  · constructor
    · intro _
      refine ⟨(a-buf).toNat,⟨mounted,.inr ⟨roomy,(a-buf).isLt⟩⟩,?_⟩
      rw [BitVec.ofNat_toNat,BitVec.setWidth_eq]
      bv_omega
    · rintro ⟨j,_,rfl⟩
      have wraps : buf+BitVec.ofNat 32 (j % 2^32) ∈ _ := fs_list_wraps mounted roomy (Nat.mod_lt j (show 0 < 2^32 by decide))
      rwa [show BitVec.ofNat 32 (j % 2^32) = BitVec.ofNat 32 j from BitVec.eq_of_toNat_eq (by simp)] at wraps

/-! ### The bytes of a call -/

/-- The offsets from the caller's pointer at which a call touches memory, with a fixed
    translation: so many bytes of the text to write, the bytes of a program's name as far
    as they are those of a file's, the bytes of the line, the entries of the live
    processes, or the listing. -/
def Uses (f : Word → Word) (e : Env) (regs : SyscallRegs) (j : Nat) : Prop :=
  let m := seen (fun _ => f) e.kernel.phys.mem
  if regs.eax = SYS_WRITE then j < regs.ecx.toNat
  else if regs.eax = SYS_SPAWN then
    free_slot e.kernel.procs ≠ none ∧ e.rootfs.header ≠ 0#32 ∧
      ∃ i < (num_files m e.rootfs).toNat, Agrees m (entry_addr e.rootfs i) (c_string m regs.ebx) j
  else if regs.eax = SYS_READ then j < min regs.ecx.toNat e.line.kb_line_len
  else if regs.eax = SYS_GETPROCS then
    j < sizeof_proc_info*min regs.ecx.toInt.toNat (liveSlots e.kernel.procs).length
  else if regs.eax = SYS_LISTFILES then Lists f e.kernel.phys.mem e.rootfs regs.ebx regs.ecx j
  else False

/-- A call touches these offsets from the caller's pointer, and no others. -/
def Touches (o : Outcome) (pointer : Word) (offsets : Nat → Prop) : Prop :=
  ∀ a, a ∈ o.fetched ∨ a ∈ o.stored ↔ ∃ j, offsets j ∧ a = pointer+BitVec.ofNat 32 j

theorem touches_fetch {eax : Word} {e : Env} {m m' : Memory} {pointer : Word} {offsets : List Nat} {used : Nat → Prop}
    (same : ∀ j, j ∈ offsets ↔ used j) :
    Touches (.of eax e { Touched.fetch ⟨m,[],[]⟩ pointer offsets with mem := m' }) pointer used := by
  intro a
  simp only [Outcome.of,Touched.fetch,List.append_nil,List.not_mem_nil,or_false,List.mem_map,same]
  exact exists_congr (fun j => and_congr_right (fun _ => eq_comm))

/-- Stores fetch nothing. -/
theorem touches_stores {x : Access} {eax : Word} {e : Env} {m : Memory} {t : Touched} {pointer : Word} {used : Nat → Prop}
    (puts : Puts x ⟨m,[],[]⟩ t) (stored : ∀ a, a ∈ t.stored ↔ ∃ j, used j ∧ a = pointer+BitVec.ofNat 32 j) :
    Touches (.of eax e t) pointer used := by
  intro a
  change a ∈ t.fetched ∨ a ∈ t.stored ↔ _
  rw [puts_fetched puts,stored]
  exact or_iff_right List.not_mem_nil

theorem touches_nothing {eax pointer : Word} {e : Env} {m : Memory} {used : Nat → Prop} (none : ∀ j, ¬ used j) :
    Touches (.of eax e ⟨m,[],[]⟩) pointer used := by
  refine touches_stores (x := physical) .refl (fun a => iff_of_false List.not_mem_nil ?_)
  rintro ⟨j,here,_⟩
  exact none j here

theorem stored_putAll_iff (x : Access) (m : Memory) (a : Word) (bytes : List Byte) (b : Word) :
    b ∈ (Touched.putAll x ⟨m,[],[]⟩ a bytes).stored ↔ ∃ j < bytes.length, b = a+BitVec.ofNat 32 j := by
  constructor
  · intro member
    rcases mem_putAll member with old | inside
    · cases old
    · exact inside
  · rintro ⟨j,inside,rfl⟩
    exact stored_putAll x _ a bytes inside

/-- What a call touches. -/
theorem syscall_touches (f : Word → Word) (process_start_trampoline : Word) (e : Env) (regs : SyscallRegs) :
    Touches (syscall_dispatch (fun _ => f) process_start_trampoline e regs) regs.ebx (Uses f e regs) := by
  obtain ⟨ecx,ebx,eax⟩ := regs
  apply syscall_dispatch_cases (P := fun o => Touches o ebx (Uses f e ⟨ecx,ebx,eax⟩))
  case write =>
    intro isWrite
    obtain rfl : eax = SYS_WRITE := isWrite
    exact touches_fetch (fun j => List.mem_range)
  case switches =>
    rintro (isExit | isYield)
    · obtain rfl : eax = SYS_EXIT := isExit
      exact touches_nothing (fun j used => used)
    · obtain rfl : eax = SYS_YIELD := isYield
      exact touches_nothing (fun j used => used)
  case spawn =>
    intro isSpawn
    obtain rfl : eax = SYS_SPAWN := isSpawn
    exact touches_fetch (fun j => process_create_fetches_iff _ _ _ (text_c_string _ _) _ j)
  case read =>
    intro isRead
    obtain rfl : eax = SYS_READ := isRead
    refine touches_stores (putAll_puts ..) (fun a => ?_)
    rw [stored_putAll_iff,read_line_length]
    exact Iff.rfl
  case wait =>
    intro isWait
    obtain rfl : eax = SYS_WAIT := isWait
    exact touches_nothing (fun j used => used)
  case getprocs =>
    intro isGetprocs
    obtain rfl : eax = SYS_GETPROCS := isGetprocs
    refine touches_stores (get_info_puts ..) (fun a => ?_)
    rw [process_get_info_eq,stored_putAll_iff,length_infos,List.length_take]
    exact Iff.rfl
  case listfiles =>
    intro isList
    obtain rfl : eax = SYS_LISTFILES := isList
    exact touches_stores (fs_list_puts ..) (fun a => fs_list_stored_iff ..)
  case clear =>
    intro isClear
    obtain rfl : eax = SYS_CLEAR := isClear
    exact touches_nothing (fun j used => used)
  case unknown =>
    intro other
    refine touches_nothing (fun j => ?_)
    simp only [List.forall_mem_cons,List.not_mem_nil,false_implies,implies_true,and_true] at other
    obtain ⟨noWrite,_,_,noSpawn,noRead,_,noGetprocs,noListfiles,_⟩ := other
    rw [Uses,if_neg noWrite,if_neg noSpawn,if_neg noRead,if_neg noGetprocs,if_neg noListfiles]
    exact not_false

/-! ### The pages of the caller -/

/-- A call fetches from and stores to pages of the caller only. -/
def InUserPages (k : Kernel) (o : Outcome) : Prop := ∀ a, a ∈ o.fetched ∨ a ∈ o.stored → UserByte k a

/-- A call stays within the caller's pages exactly when the bytes that it uses are in
    them. -/
theorem syscall_touches_user_pages (process_start_trampoline : Word) (e : Env) (regs : SyscallRegs) :
    InUserPages e.kernel (syscall_dispatch (fun _ => entered e.kernel) process_start_trampoline e regs) ↔
      ∀ j, Uses (entered e.kernel) e regs j → UserByte e.kernel (regs.ebx+BitVec.ofNat 32 j) := by
  have touches := syscall_touches (entered e.kernel) process_start_trampoline e regs
  constructor
  · intro own j used
    exact own _ ((touches _).mpr ⟨j,used,rfl⟩)
  · intro own a touched
    obtain ⟨j,used,rfl⟩ := (touches a).mp touched
    exact own j used

/-- The typed line "a". -/
def typed : Line := ⟨fun _ => 0x61#8,1,true⟩

/-- `hello` reads a line with room for 128 bytes, into its own page. An empty line it can
    read into the kernel image too: there is nothing to store. -/
theorem syscall_touches_user_pages_pc : ∃ frames k, PfaInit.pc.init 3 = some frames ∧
    scheduler_start (process_create physical 0x100010#32 pcFs helloName (pcKernel frames)).kernel = some k ∧
    (let o := syscall_dispatch (fun _ => entered k) 0x100010#32 ⟨k,pcFs,typed,clean⟩ ⟨128#32,0#32,SYS_READ⟩
     o.stored = [0#32] ∧ InUserPages k o) ∧
    InUserPages k (syscall_dispatch (fun _ => entered k) 0x100010#32 ⟨k,pcFs,Keyboard.empty,clean⟩
      ⟨128#32,0x100000#32,SYS_READ⟩) := by
  obtain ⟨frames,k,ended,started,own,_⟩ := hello_running
  refine ⟨frames,k,ended,started,⟨rfl,?_⟩,?_⟩
  · refine (syscall_touches_user_pages 0x100010#32 ⟨k,pcFs,typed,clean⟩ ⟨128#32,0#32,SYS_READ⟩).mpr ?_
    intro j used
    have line : j < 1 := used
    obtain rfl : j = 0 := by omega
    exact own _ (by decide)
  · refine (syscall_touches_user_pages 0x100010#32 ⟨k,pcFs,Keyboard.empty,clean⟩ ⟨128#32,0x100000#32,SYS_READ⟩).mpr ?_
    intro j used
    have line : j < 0 := used
    omega

/-- `hello` reads the line into the kernel image. -/
theorem read_stores_to_kernel : ∃ frames k, PfaInit.pc.init 3 = some frames ∧
    scheduler_start (process_create physical 0x100010#32 pcFs helloName (pcKernel frames)).kernel = some k ∧
    let o := syscall_dispatch (fun _ => entered k) 0x100010#32 ⟨k,pcFs,typed,clean⟩ ⟨1#32,0x100000#32,SYS_READ⟩
    o.stored = [0x100000#32] ∧ ¬ UserByte k 0x100000#32 ∧ o.env.kernel.phys.mem 0x100000#32 = 0x61#8 ∧ ¬ InUserPages k o := by
  obtain ⟨frames,k,ended,started,_,image,_⟩ := hello_running
  have here := image 0x100000#32 (by decide)
  have kernel : ¬ UserByte k 0x100000#32 := by
    rintro ⟨t,translated,user⟩
    rw [here] at translated
    cases translated
    cases user
  have physical : entered k 0x100000#32 = 0x100000#32 := by
    rw [entered,here]
    rfl
  refine ⟨frames,k,ended,started,rfl,kernel,?_,fun own => kernel (own _ (.inr List.mem_cons_self))⟩
  change write8 k.phys.mem (entered k 0x100000#32) 0x61#8 0x100000#32 = 0x61#8
  rw [physical,write8,if_pos rfl]

end SoKernel.UserPages
