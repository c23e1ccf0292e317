import SoKernel.PagedLoading
import SoKernel.Kmain

/-!
What a caller of `process_create` can rely on. When every frame it asked for was
granted, the new directory shows the program and an empty stack, and nothing else
in memory has changed. A request that is not granted makes the call fail, with one
exception: nobody looks whether the table for the user stack was there. And a call
that fails keeps the frames it has taken.
-/
namespace SoKernel.Spawning
open SoKernel.Words SoKernel.Pages SoKernel.Pfa SoKernel.PfaInit SoKernel.Paging SoKernel.PageTables SoKernel.Fs
  SoKernel.Process SoKernel.KernelAccess SoKernel.AddressSpace SoKernel.FrameCount SoKernel.Loading SoKernel.PagedLoading
  SoKernel.Kmain
set_option linter.unusedSimpArgs false

/-- Where the file of the program is, and how long it is, as the kernel's pointers see it. -/
def file_data (x : Access) (fs : FsInstance) (name : List Byte) (k : Kernel) : Word :=
  fs_file_data (seen x k.phys.mem) fs (fs_find (seen x k.phys.mem) fs name)
def file_size (x : Access) (fs : FsInstance) (name : List Byte) (k : Kernel) : Word :=
  fs_file_size (seen x k.phys.mem) fs (fs_find (seen x k.phys.mem) fs name)

/-- The call finds a slot and a program. -/
def Finds (x : Access) (fs : FsInstance) (name : List Byte) (k : Kernel) : Prop :=
  (∃ slot, free_slot k.procs = some slot) ∧ ¬ fs_find (seen x k.phys.mem) fs name < 0

/-- With physical addresses. -/
def program_data (fs : FsInstance) (name : List Byte) (k : Kernel) : Word := file_data physical fs name k
def program_size (fs : FsInstance) (name : List Byte) (k : Kernel) : Word := file_size physical fs name k
def Found (fs : FsInstance) (name : List Byte) (k : Kernel) : Prop := Finds physical fs name k

/-- The kernel's pointers reach the frames `F`, whatever is written there, and the file of the
    program; and the call is handed frames of `F` only. -/
structure Reaches (x : Access) (F : Nat → Prop) (fs : FsInstance) (name : List Byte) (k : Kernel) : Prop where
  frames : Sees x k.phys.mem F
  file : Reads x k.phys.mem F (InFile (file_data x fs name k) (file_size x fs name k))
  handed : Handed F (most_frames (code_pages (file_size x fs name k))) k.phys.frames

/-- Physical addresses reach everything. -/
theorem physical_reaches (fs : FsInstance) (name : List Byte) (k : Kernel) :
    Reaches physical (Free k.phys.frames) fs name k :=
  ⟨physical_sees _ _,fun _ _ _ _ => rfl,handed_free (grows_refl _) _⟩

section
variable {x : Access} {F : Nat → Prop} (trampoline : Word) {fs : FsInstance} {name : List Byte} {k : Kernel}

theorem process_create_lost (lost : ¬ Finds x fs name k) :
    process_create x trampoline fs name k = .failed k ∧ process_create_requests x fs name k = [] := by
  rw [process_create,process_create_requests]
  cases found : free_slot k.procs with
  | none => exact ⟨rfl,rfl⟩
  | some slot =>
    have missing : fs_find (seen x k.phys.mem) fs name < 0 := by
      by_contra here
      exact lost ⟨⟨slot,found⟩,here⟩
    simp only [missing,if_true]
    exact ⟨trivial,trivial⟩

theorem process_create_found (found : Finds x fs name k) : ∃ slot,
    process_create x trampoline fs name k =
        create_image x trampoline slot (file_data x fs name k) (file_size x fs name k) name k ∧
      process_create_requests x fs name k = create_requests x (file_data x fs name k) (file_size x fs name k) k := by
  obtain ⟨⟨slot,found⟩,here⟩ := found
  refine ⟨slot,?_⟩
  simp only [process_create,process_create_requests,found,here,if_false]
  exact ⟨rfl,rfl⟩

/-- How a call ends that finds its program: `create_image_outcome` through pointers. -/
theorem process_create_outcome (found : Finds x fs name k) (reach : Reaches x F fs name k)
    (zero : is_used k.phys.frames 0 = true) :
    let c := process_create x trampoline fs name k
    let requests := process_create_requests x fs name k
    let pages := code_pages (file_size x fs name k)
    (0#32 ∈ requests ∧ c.slot = none ∧ freeCount k.phys.frames < loading_frames pages) ∨
      (0#32 ∈ requests ∧ c.slot ≠ none ∧ freeCount k.phys.frames = loading_frames pages ∧ pages ≤ 0xBFC00 ∧
        ∃ tables map, Represents c.kernel.phys.mem c.user_dir tables map ∧ map 0xBFFFF = none) ∨
      (0#32 ∉ requests ∧ c.slot ≠ none ∧ loading_frames pages ≤ freeCount k.phys.frames ∧
        (freeCount k.phys.frames = loading_frames pages → 0xBFC00 < pages) ∧
        ∃ tables map, Created (file_data x fs name k) (file_size x fs name k) c k tables map) := by
  intro c requests pages
  obtain ⟨slot,call,asked⟩ := process_create_found trampoline found
  obtain ⟨same,sameAsked⟩ := create_image_sees reach.frames zero reach.file reach.handed trampoline slot name
  rw [show c = _ from call.trans same,show requests = _ from asked.trans sameAsked]
  rcases create_image_outcome trampoline slot (file_data x fs name k) (file_size x fs name k) name zero with
    failed | ⟨refused,filled,rest⟩ | ⟨granted,filled,rest⟩
  · exact .inl failed
  · exact .inr (.inl ⟨refused,by simp [filled],rest⟩)
  · exact .inr (.inr ⟨granted,by simp [filled],rest⟩)

/-- If frame 0 is free, it is the first to be handed out, and 0 means that there was none. -/
theorem process_create_zero (found : Finds x fs name k) (free : is_used k.phys.frames 0 = false) :
    let c := process_create x trampoline fs name k
    c.slot = none ∧ process_create_requests x fs name k = [0#32] ∧ is_used c.kernel.phys.frames 0 = true := by
  intro c
  obtain ⟨slot,call,asked⟩ := process_create_found trampoline found
  have first := pfa_alloc_eq (show 0 < MAX_FRAMES by decide) free (by omega)
  have null : pageAddr 0 = 0#32 := rfl
  rw [show c = _ from call,asked]
  simp only [create_image,create_requests,first,null,if_true]
  exact ⟨rfl,trivial,by simp⟩

/-- The result of a call that has not got as far as a slot. -/
theorem result_of_slot {c : Creation} (table : c.Table k) (none : c.slot = none) : c.result = -1 :=
  (table.failed none).1

end

/-! ### Exact loading -/

/-- The address of a byte of a frame. -/
theorem join_offset {a : Word} (aligned : PageAligned a) (virt : Word) :
    (a &&& 0xFFFFF000#32) ||| (virt &&& 0xFFF#32) = a+BitVec.ofNat 32 (virt.toNat % 4096) := by
  have start : a.toNat % 4096 = 0 := aligned
  have page : pageOf (a+BitVec.ofNat 32 (virt.toNat % 4096)) = pageOf a :=
    pageOf_add (show a.toNat % 4096+4096 ≤ 4096 by omega) (Nat.mod_lt _ (by decide))
  have offset : (a+BitVec.ofNat 32 (virt.toNat % 4096)) &&& 0xFFF#32 = virt &&& 0xFFF#32 := by
    apply BitVec.eq_of_toNat_eq
    rw [show (0xFFF#32 : Word) = BitVec.ofNat 32 (2^12-1) by decide,and_low_toNat 12 (by decide),
      and_low_toNat 12 (by decide),BitVec.toNat_add,BitVec.toNat_ofNat]
    omega
  rw [pageAddr_and,← page,← offset,page_or_offset]

/-- A page that is mapped to a frame shows the bytes of the frame to user code. -/
theorem translate_user {m : Memory} {dir : Word} {tables : Nat → Option Word} {map : PageMap}
    (rep : Represents m dir tables map) {virt a : Word} (aligned : PageAligned a)
    (mapped : map (pageOf virt) = some (a,PTE_PRESENT ||| PTE_RW ||| PTE_USER)) :
    translate m dir virt = some ⟨a+BitVec.ofNat 32 (virt.toNat % 4096),true,true⟩ := by
  rw [translate_correct rep,view,mapped]
  simp only [join_offset aligned]
  rfl

/-- The number of pages that the file takes. -/
theorem code_pages_eq {prog_size : Word} (small : prog_size.toNat ≤ 0xFFFFF000) :
    code_pages prog_size = (prog_size.toNat+4095)/4096 := by
  simp only [code_pages,PAGE_SIZE,BitVec.toNat_udiv,BitVec.toNat_sub,BitVec.toNat_add,BitVec.toNat_ofNat,Nat.reducePow,
    Nat.reduceMod]
  omega

section
variable {prog_data prog_size : Word} {c : Creation} {k : Kernel} {tables : Nat → Option Word} {map : PageMap}

/-- Every code page is in a frame of its own. -/
theorem created_code (created : Created prog_data prog_size c k tables map) {v : Nat} (inside : v < code_pages prog_size) :
    ∃ a, c.code_frames[v]? = some a ∧ PageAligned a := by
  rw [← created.length] at inside
  exact ⟨_,List.getElem?_eq_getElem inside,created.codeAligned _ (List.getElem_mem inside)⟩

/-- What the new directory shows at an address of the code. -/
theorem created_byte (created : Created prog_data prog_size c k tables map)
    (apart : ∀ n < prog_size.toNat,
      ¬ Took k.phys.frames c.kernel.phys.frames (pageOf (prog_data+BitVec.ofNat 32 n)))
    (small : prog_size.toNat ≤ 0xBFFFF000) {n : Nat} (inside : n < (prog_size.toNat+4095)/4096*4096) :
    ∃ t, translate c.kernel.phys.mem c.user_dir (BitVec.ofNat 32 n) = some t ∧
      c.kernel.phys.mem t.phys = file_byte k.phys.mem prog_data prog_size n := by
  have value : (BitVec.ofNat 32 n : Word).toNat = n := by
    rw [BitVec.toNat_ofNat]
    omega
  have page : pageOf (BitVec.ofNat 32 n) = n/4096 := by rw [pageOf,value]
  obtain ⟨a,here,aligned⟩ := created_code created (v := n/4096) (by rw [code_pages_eq (by omega)]; omega)
  have mapped : map (pageOf (BitVec.ofNat 32 n)) = some (a,PTE_PRESENT ||| PTE_RW ||| PTE_USER) := by
    rw [page,created.code _ (by omega),here]
    rfl
  refine ⟨_,translate_user created.rep aligned mapped,?_⟩
  have byte := created.filled apart _ a here (n % 4096) (Nat.mod_lt _ (by decide))
  rw [Nat.div_add_mod'] at byte
  rw [value]
  exact byte

/-- What the new directory shows at an address of the stack page. -/
theorem created_stack (created : Created prog_data prog_size c k tables map) {virt : Word} (page : pageOf virt = 0xBFFFF) :
    ∃ t, translate c.kernel.phys.mem c.user_dir virt = some t ∧ t.user = true ∧ c.kernel.phys.mem t.phys = 0#8 :=
  ⟨_,translate_user created.rep created.stackAligned (by rw [page,created.stack]),rfl,
    created.zeros _ (Nat.mod_lt _ (by decide))⟩

end

section
variable {fs : FsInstance} {name : List Byte} {k : Kernel}

/-- What the allocator's answers say about a call that found its program. -/
theorem outcome_of_found (trampoline : Word) (found : Found fs name k)
    (granted : 0#32 ∉ process_create_requests physical fs name k) :
    is_used k.phys.frames 0 = true ∧ (process_create physical trampoline fs name k).slot ≠ none ∧
      ∃ tables map, Created (program_data fs name k) (program_size fs name k)
        (process_create physical trampoline fs name k) k tables map := by
  have zero : is_used k.phys.frames 0 = true := by
    by_contra unused
    refine granted ?_
    rw [(process_create_zero trampoline found (by simpa using unused)).2.1]
    exact List.mem_singleton_self _
  rcases process_create_outcome trampoline found (physical_reaches fs name k) zero with
    ⟨refused,_⟩ | ⟨refused,_⟩ | ⟨_,filled,_,_,created⟩
  · exact absurd refused granted
  · exact absurd refused granted
  · exact ⟨zero,filled,created⟩

/-- A call that is granted every frame returns the next pid. -/
theorem result_of_granted (trampoline : Word) (found : Found fs name k)
    (granted : 0#32 ∉ process_create_requests physical fs name k) :
    (process_create physical trampoline fs name k).result = k.next_pid.toInt := by
  obtain ⟨_,filled,_⟩ := outcome_of_found trampoline found granted
  obtain ⟨slot,isSlot⟩ := Option.ne_none_iff_exists'.mp filled
  exact ((process_create_table physical trampoline fs name k).filled slot isSlot).2.1

/-- When every request for a frame is granted, the new directory shows the file,
    zeros up to the end of its last page and a stack page of zeros; the file itself
    and every frame that was in use are as before. -/
theorem process_create_loads (trampoline : Word) (found : Found fs name k)
    (small : (program_size fs name k).toNat ≤ 0xBFFFF000)
    (granted : 0#32 ∉ process_create_requests physical fs name k)
    (apart : ∀ n < (program_size fs name k).toNat, ¬ Took k.phys.frames
      (process_create physical trampoline fs name k).kernel.phys.frames (pageOf (program_data fs name k+BitVec.ofNat 32 n))) :
    let c := process_create physical trampoline fs name k
    let size := (program_size fs name k).toNat
    (∀ n < size, ∃ t, translate c.kernel.phys.mem c.user_dir (BitVec.ofNat 32 n) = some t ∧
        c.kernel.phys.mem t.phys = k.phys.mem (program_data fs name k+BitVec.ofNat 32 n)) ∧
      (∀ n, size ≤ n → n < (size+4095)/4096*4096 →
        ∃ t, translate c.kernel.phys.mem c.user_dir (BitVec.ofNat 32 n) = some t ∧ c.kernel.phys.mem t.phys = 0#8) ∧
      (∀ virt, pageOf virt = 0xBFFFF →
        ∃ t, translate c.kernel.phys.mem c.user_dir virt = some t ∧ c.kernel.phys.mem t.phys = 0#8) ∧
      (∀ n < size, c.kernel.phys.mem (program_data fs name k+BitVec.ofNat 32 n) =
        k.phys.mem (program_data fs name k+BitVec.ofNat 32 n)) ∧
      ∀ a, is_used k.phys.frames (pageOf a) = true → c.kernel.phys.mem a = k.phys.mem a := by
  intro c size
  obtain ⟨zero,_,tables,map,created⟩ := outcome_of_found trampoline found granted
  have image := process_create_physical zero trampoline fs name
  refine ⟨?_,?_,?_,?_,?_⟩
  · intro n inside
    obtain ⟨t,translated,byte⟩ := created_byte created apart small (n := n) (by omega)
    rw [file_byte,if_pos inside] at byte
    exact ⟨t,translated,byte⟩
  · intro n past inside
    obtain ⟨t,translated,byte⟩ := created_byte created apart small inside
    rw [file_byte,if_neg (by omega)] at byte
    exact ⟨t,translated,byte⟩
  · intro virt page
    obtain ⟨t,translated,_,byte⟩ := created_stack created page
    exact ⟨t,translated,byte⟩
  · exact fun n inside => image.off _ (apart n inside)
  · intro a used
    refine image.off a (fun took => ?_)
    rw [took.1] at used
    cases used

end

/-- With a frame to spare every request is granted. -/
theorem granted_of_room {k : Kernel} {fs : FsInstance} {name : List Byte} (found : Found fs name k)
    (zero : is_used k.phys.frames 0 = true)
    (room : loading_frames (code_pages (program_size fs name k)) < freeCount k.phys.frames) :
    0#32 ∉ process_create_requests physical fs name k := by
  rw [program_size] at room
  rcases process_create_outcome 0#32 found (physical_reaches fs name k) zero with ⟨_,_,few⟩ | ⟨_,_,few,_⟩ | ⟨granted,_⟩
  · omega
  · omega
  · exact granted

/-- The file of `hello` in the memory of the small PC. -/
theorem hello_file {k : Kernel} (memory : k.phys.mem = pc.mem) (idle : k.procs = fun _ => blank) :
    program_data pcFs helloName k = 0x200098#32 ∧ program_size pcFs helloName k = 100#32 ∧
      code_pages (program_size pcFs helloName k) = 1 ∧ Found pcFs helloName k := by
  have find : fs_find (seen physical k.phys.mem) pcFs helloName = 0 := by
    rw [memory]
    exact pc_programs.1
  have data : fs_file_data (seen physical k.phys.mem) pcFs 0 = 0x200098#32 := by
    rw [memory]
    decide +kernel
  have size : fs_file_size (seen physical k.phys.mem) pcFs 0 = 100#32 := by
    rw [memory]
    decide +kernel
  simp only [program_data,program_size,Found,file_data,file_size,Finds,find,data,size,idle]
  exact ⟨trivial,trivial,by decide,⟨0,rfl⟩,by decide⟩

/-- The small PC has more than enough frames for `hello`. -/
theorem hello_room {frames : Frames} (ended : pc.init 3 = some frames) :
    loading_frames (code_pages (program_size pcFs helloName (pcKernel frames))) < freeCount (pcKernel frames).phys.frames := by
  obtain ⟨_,_,pages,_⟩ := hello_file (k := pcKernel frames) rfl rfl
  have run := freeCount_run (pc_free ended).2 (by decide)
  rw [pages,loading_frames]
  omega

/-- The byte of `hello` at address 0 on the small PC, through the new directory. -/
theorem process_create_loads_pc : ∃ frames t, pc.init 3 = some frames ∧
    let c := process_create physical 0x100010#32 pcFs helloName (pcKernel frames)
    translate c.kernel.phys.mem c.user_dir 0#32 = some t ∧ c.kernel.phys.mem t.phys = pc.mem 0x200098#32 := by
  obtain ⟨frames,ended,_⟩ := pc_kmain
  obtain ⟨data,size,_,found⟩ := hello_file (k := pcKernel frames) rfl rfl
  have inside : 0 < (program_size pcFs helloName (pcKernel frames)).toNat := by
    rw [size]
    decide
  obtain ⟨shown,_⟩ := process_create_loads 0x100010#32 found (by rw [size]; decide)
    (granted_of_room found ((pc_free ended).1 0 (by decide)) (hello_room ended)) (by
      -- The initrd was reserved.
      intro n inside took
      rw [size] at inside
      have used : is_used (pcKernel frames).phys.frames (pageOf (0x200098#32+BitVec.ofNat 32 n)) = true := by
        have region : UsedRegion 0x200000#32 0x201484#32 (pageOf (0x200098#32+BitVec.ofNat 32 n)) := by
          simp only [UsedRegion,pageOf,BitVec.toNat_add,BitVec.toNat_ofNat] at inside ⊢
          omega
        simp [pcKernel,pfa_reserve,region]
      rw [← data,took.1] at used
      cases used)
  obtain ⟨t,translated,byte⟩ := shown 0 inside
  rw [data,BitVec.add_zero,show (pcKernel frames).phys.mem = pc.mem from rfl] at byte
  exact ⟨frames,t,ended,translated,byte⟩

/-! ### Failures -/

/-- With fewer frames than it takes to load the program the call fails. -/
theorem result_of_few {x : Access} {F : Nat → Prop} {fs : FsInstance} {name : List Byte} {k : Kernel} (trampoline : Word)
    (found : Finds x fs name k) (reach : Reaches x F fs name k) (zero : is_used k.phys.frames 0 = true)
    (few : freeCount k.phys.frames < loading_frames (code_pages (file_size x fs name k))) :
    (process_create x trampoline fs name k).result = -1 := by
  refine result_of_slot (process_create_table x trampoline fs name k) ?_
  rcases process_create_outcome trampoline found reach zero with ⟨_,none,_⟩ | ⟨_,_,enough,_⟩ | ⟨_,_,enough,_⟩
  · exact none
  · omega
  · omega

/-- User code can reach the page. -/
def UserPage (m : Memory) (dir : Word) (v : Nat) : Prop :=
  ∃ t, translate m dir (pageAddr v) = some t ∧ t.user = true

section
variable {prog_data prog_size : Word} {c : Creation} {k : Kernel} {tables : Nat → Option Word} {map : PageMap}

theorem created_code_page (created : Created prog_data prog_size c k tables map) {v : Nat}
    (inside : v < code_pages prog_size) : UserPage c.kernel.phys.mem c.user_dir v := by
  have page : pageOf (pageAddr v) = v := pageOf_pageAddr (by have := code_pages_le prog_size; omega)
  by_cases isStack : v = 0xBFFFF
  · obtain ⟨t,translated,user,_⟩ := created_stack created (page.trans isStack)
    exact ⟨t,translated,user⟩
  · obtain ⟨a,here,aligned⟩ := created_code created inside
    have mapped : map (pageOf (pageAddr v)) = some (a,PTE_PRESENT ||| PTE_RW ||| PTE_USER) := by
      rw [page,created.code v isStack,here]
      rfl
    exact ⟨_,translate_user created.rep aligned mapped,rfl⟩

end

/-- A page that is not mapped is one of the kernel's. -/
theorem not_user_page {m : Memory} {dir : Word} {tables : Nat → Option Word} {map : PageMap} (rep : Represents m dir tables map)
    {v : Nat} (inside : v < 1048576) (unmapped : map v = none) : ¬ UserPage m dir v := by
  rintro ⟨t,translated,user⟩
  rw [translate_correct rep,view,pageOf_pageAddr inside,unmapped] at translated
  cases translated
  cases user

/-- A call that has filled a slot returns the next pid, which may read as -1. -/
theorem result_of_filled {c : Creation} {k : Kernel} (table : c.Table k) (filled : c.slot ≠ none) :
    (c.result = -1 ↔ k.next_pid = 0xFFFFFFFF#32) ∧ c.kernel.next_pid = k.next_pid+1#32 := by
  obtain ⟨slot,isSlot⟩ := Option.ne_none_iff_exists'.mp filled
  obtain ⟨_,result,next_pid,_⟩ := table.filled slot isSlot
  rw [result,← BitVec.toInt_inj]
  exact ⟨Iff.rfl,next_pid⟩

/-- A call that returns a pid was granted every frame and has mapped the whole program and
    the stack, and a call that was refused a frame returns -1. -/
def Reports (x : Access) (trampoline : Word) (fs : FsInstance) (name : List Byte) (k : Kernel) : Prop :=
  let c := process_create x trampoline fs name k
  let requests := process_create_requests x fs name k
  (c.result ≠ -1 → 0#32 ∉ requests ∧
      (∀ v, v*4096 < (file_size x fs name k).toNat → UserPage c.kernel.phys.mem c.user_dir v) ∧
      UserPage c.kernel.phys.mem c.user_dir 0xBFFFF) ∧
    (0#32 ∈ requests → c.result = -1)

/-- The call gets the frames for the program, but the table for the user stack is the one
    frame that is missing, or the file is so long that its number of pages wraps around to 0. -/
structure Unreported (x : Access) (fs : FsInstance) (name : List Byte) (k : Kernel) : Prop where
  found : Finds x fs name k
  zero : is_used k.phys.frames 0 = true
  pid : k.next_pid ≠ 0xFFFFFFFF#32
  enough : loading_frames (code_pages (file_size x fs name k)) ≤ freeCount k.phys.frames
  missing : 0xFFFFF000 < (file_size x fs name k).toNat ∨
    (freeCount k.phys.frames = loading_frames (code_pages (file_size x fs name k)) ∧
      code_pages (file_size x fs name k) ≤ 0xBFC00)

section
variable {x : Access} {F : Nat → Prop} (trampoline : Word) {fs : FsInstance} {name : List Byte} {k : Kernel}

/-- A call that fails does not leave anything unreported. -/
theorem reports_of_failed (failed : (process_create x trampoline fs name k).result = -1) :
    Reports x trampoline fs name k :=
  ⟨fun pid => absurd failed pid,fun _ => failed⟩

/-- Beyond 0xFFFFF000 bytes no code page is loaded. -/
theorem code_pages_wraps {prog_size : Word} (long : 0xFFFFF000 < prog_size.toNat) : code_pages prog_size = 0 := by
  have bound := prog_size.isLt
  simp only [code_pages,PAGE_SIZE,BitVec.toNat_udiv,BitVec.toNat_sub,BitVec.toNat_add,BitVec.toNat_ofNat,Nat.reducePow,
    Nat.reduceMod]
  omega

/-- However the kernel reaches memory, a call reports what it was refused, except in the one
    case. -/
theorem process_create_reports (reach : Finds x fs name k → Reaches x F fs name k) :
    Reports x trampoline fs name k ↔ ¬ Unreported x fs name k := by
  have table := process_create_table x trampoline fs name k
  by_cases found : Finds x fs name k
  swap
  · refine iff_of_true (reports_of_failed trampoline ?_) (fun lost => found lost.found)
    rw [(process_create_lost trampoline found).1]
    rfl
  by_cases zero : is_used k.phys.frames 0 = true
  swap
  · refine iff_of_true (reports_of_failed trampoline (result_of_slot table ?_)) (fun lost => zero lost.zero)
    exact (process_create_zero trampoline found (by simpa using zero)).1
  by_cases last : k.next_pid = 0xFFFFFFFF#32
  · refine iff_of_true (reports_of_failed trampoline ?_) (fun lost => lost.pid last)
    by_cases filled : (process_create x trampoline fs name k).slot = none
    · exact result_of_slot table filled
    · exact (result_of_filled table filled).1.mpr last
  rcases process_create_outcome trampoline found (reach found) zero with
    ⟨_,none,few⟩ | ⟨refused,filled,exactly,low,_⟩ | ⟨granted,filled,enough,spare,tables,map,created⟩
  · refine iff_of_true (reports_of_failed trampoline (result_of_slot table none)) (fun lost => ?_)
    have enough := lost.enough
    omega
  · refine iff_of_false (fun reports => ?_) (not_not.mpr ⟨found,zero,last,by omega,.inr ⟨exactly,low⟩⟩)
    exact last ((result_of_filled table filled).1.mp (reports.2 refused))
  · by_cases long : 0xFFFFF000 < (file_size x fs name k).toNat
    · refine iff_of_false (fun reports => ?_) (not_not.mpr ⟨found,zero,last,enough,.inl long⟩)
      obtain ⟨_,code,_⟩ := reports.1 (fun failed => last ((result_of_filled table filled).1.mp failed))
      refine not_user_page created.rep (by decide) ?_ (code 0 (by omega))
      have length := created.length
      rw [code_pages_wraps long,List.length_eq_zero_iff] at length
      rw [created.code 0 (by decide),length]
      rfl
    · refine iff_of_true ⟨fun _ => ⟨granted,fun v inside => created_code_page created ?_,?_⟩,
        fun refused => absurd refused granted⟩ ?_
      · rw [code_pages_eq (by omega)]
        omega
      · obtain ⟨t,translated,user,_⟩ := created_stack created (show pageOf (pageAddr 0xBFFFF) = 0xBFFFF by decide)
        exact ⟨t,translated,user⟩
      · rintro ⟨_,_,_,_,tooLong | ⟨exactly,low⟩⟩
        · exact long tooLong
        · have := spare exactly
          omega

end

/-- A process for `hello` on the small PC. -/
theorem process_create_reports_pc : ∃ frames, pc.init 3 = some frames ∧
    let c := process_create physical 0x100010#32 pcFs helloName (pcKernel frames)
    c.result = 1 ∧ UserPage c.kernel.phys.mem c.user_dir 0 ∧ UserPage c.kernel.phys.mem c.user_dir 0xBFFFF := by
  obtain ⟨frames,ended,_⟩ := pc_kmain
  obtain ⟨_,size,_,found⟩ := hello_file (k := pcKernel frames) rfl rfl
  have room := hello_room ended
  have granted := granted_of_room found ((pc_free ended).1 0 (by decide)) room
  have result := result_of_granted 0x100010#32 found granted
  have first : (pcKernel frames).next_pid.toInt = 1 := rfl
  have reported : ¬ Unreported physical pcFs helloName (pcKernel frames) := by
    intro lost
    rcases lost.missing with long | ⟨exactly,_⟩
    · rw [show file_size physical pcFs helloName (pcKernel frames) = 100#32 from size] at long
      exact absurd long (by decide)
    · exact absurd (exactly.symm ▸ room) (Nat.lt_irrefl _)
  obtain ⟨reports,_⟩ := (process_create_reports 0x100010#32 (fun _ => physical_reaches pcFs helloName (pcKernel frames))).mpr
    reported
  obtain ⟨_,code,stack⟩ := reports (by rw [result,first]; decide)
  refine ⟨frames,ended,result.trans first,code 0 ?_,stack⟩
  rw [show file_size physical pcFs helloName (pcKernel frames) = 100#32 from size]
  decide

/-- The memory of the small PC with `n` free frames, from frame 1 on. -/
def tight (n : Nat) : Kernel :=
  let k := pcKernel all_used
  { k with phys := { k.phys with frames := mark_region_free all_used 0x1000#32 (0x1000#32+pageAddr n) } }

theorem tight_used {n : Nat} (few : n < 16) (f : Nat) : is_used (tight n).phys.frames f = false ↔ 1 ≤ f ∧ f < 1+n := by
  have region : FreeRegion 0x1000#32 (0x1000#32+pageAddr n) f ↔ 1 ≤ f ∧ f < 1+n := by
    simp only [FreeRegion,pageAddr,BitVec.toNat_add,BitVec.toNat_ofNat]
    omega
  simp [tight,region]

theorem tight_count {n : Nat} (few : n < 16) : freeCount (tight n).phys.frames = n :=
  freeCount_exact (by simp only [MAX_FRAMES]; omega) (tight_used few)

theorem tight_zero {n : Nat} (few : n < 16) : is_used (tight n).phys.frames 0 = true := by
  by_contra unused
  have free := (tight_used few 0).mp (by simpa using unused)
  omega

/-- With five free frames the call for `hello` gets all it checks for, and returns a
    pid for a process that has no stack. -/
theorem stack_table_unreported :
    let c := process_create physical 0x100010#32 pcFs helloName (tight 5)
    c.result = 1 ∧ 0#32 ∈ process_create_requests physical pcFs helloName (tight 5) ∧
      ¬ UserPage c.kernel.phys.mem c.user_dir 0xBFFFF ∧ ¬ Reports physical 0x100010#32 pcFs helloName (tight 5) := by
  obtain ⟨_,_,pages,found⟩ := hello_file (k := tight 5) rfl rfl
  have table := process_create_table physical 0x100010#32 pcFs helloName (tight 5)
  have count := tight_count (n := 5) (by decide)
  have outcome := process_create_outcome 0x100010#32 found (physical_reaches pcFs helloName (tight 5))
    (tight_zero (n := 5) (by decide))
  simp only [show code_pages (file_size physical pcFs helloName (tight 5)) = 1 from pages,count] at outcome
  rcases outcome with ⟨_,_,few⟩ | ⟨refused,filled,_,_,tables,map,rep,unmapped⟩ | ⟨_,_,_,last,_⟩
  · exact absurd few (by decide)
  · obtain ⟨slot,isSlot⟩ := Option.ne_none_iff_exists'.mp filled
    have result := (table.filled slot isSlot).2.1
    have noStack := not_user_page rep (show 0xBFFFF < 1048576 by decide) unmapped
    refine ⟨result,refused,noStack,fun reports => ?_⟩
    have failed := result.symm.trans (reports.2 refused)
    cases failed
  · exact absurd (last rfl) (by decide)

/-- A call without any free frame leaves the allocator alone. -/
theorem create_image_full {x : Access} {k : Kernel} (full : Full k.phys.frames) (trampoline : Word) (slot : Slot)
    (prog_data prog_size : Word) (name : List Byte) :
    (create_image x trampoline slot prog_data prog_size name k).kernel.phys.frames = k.phys.frames := by
  simp only [create_image,alloc_full full,if_true]

/-- A call that returns -1 has left the allocator and the table as they were. -/
def NoTrace (x : Access) (trampoline : Word) (fs : FsInstance) (name : List Byte) (k : Kernel) : Prop :=
  let c := process_create x trampoline fs name k
  c.result = -1 → c.kernel.phys.frames = k.phys.frames ∧ c.kernel.procs = k.procs ∧ c.kernel.next_pid = k.next_pid

theorem freeCount_zero {s : Frames} : freeCount s = 0 ↔ Full s := by
  have most := usedCount_le s
  rw [full_iff,freeCount]
  omega

/-- However the kernel reaches memory, a call that fails leaves no trace exactly when it has
    not found its program, has no frame to take at all, or has enough of them and does not
    return the pid that reads as -1. -/
theorem failed_create_unchanged {x : Access} {F : Nat → Prop} (trampoline : Word) {fs : FsInstance} {name : List Byte}
    {k : Kernel} (reach : Finds x fs name k → Reaches x F fs name k) :
    NoTrace x trampoline fs name k ↔ (Finds x fs name k → freeCount k.phys.frames = 0 ∨
      (is_used k.phys.frames 0 = true ∧ k.next_pid ≠ 0xFFFFFFFF#32 ∧
        loading_frames (code_pages (file_size x fs name k)) ≤ freeCount k.phys.frames)) := by
  have table := process_create_table x trampoline fs name k
  by_cases found : Finds x fs name k
  swap
  · refine iff_of_true (fun _ => ?_) (fun here => absurd here found)
    rw [(process_create_lost trampoline found).1]
    exact ⟨rfl,rfl,rfl⟩
  by_cases zero : is_used k.phys.frames 0 = true
  swap
  · -- The first frame is lost.
    obtain ⟨none,_,taken⟩ := process_create_zero trampoline found (by simpa using zero)
    refine iff_of_false (fun clean => ?_) (fun holds => ?_)
    · rw [(clean (result_of_slot table none)).1] at taken
      exact zero taken
    · rcases holds found with empty | ⟨used,_⟩
      · exact zero (freeCount_zero.mp empty 0 (by decide))
      · exact zero used
  have outcome := process_create_outcome trampoline found (reach found) zero
  by_cases none : (process_create x trampoline fs name k).slot = none
  · have few : freeCount k.phys.frames < loading_frames (code_pages (file_size x fs name k)) := by
      rcases outcome with ⟨_,_,few⟩ | ⟨_,filled,_⟩ | ⟨_,filled,_⟩
      · exact few
      · exact absurd none filled
      · exact absurd none filled
    obtain ⟨slot,call,_⟩ := process_create_found trampoline found
    constructor
    · -- A call that fails has taken all the frames there were.
      intro clean _
      have full := (create_image_uses x trampoline slot (file_data x fs name k) (file_size x fs name k) name zero).2
      rw [← call,(clean (result_of_slot table none)).1] at full
      exact .inl (freeCount_zero.mpr (full none))
    · intro holds _
      obtain ⟨_,procs,next_pid⟩ := table.failed none
      refine ⟨?_,procs,next_pid⟩
      rcases holds found with empty | ⟨_,_,enough⟩
      · rw [call]
        exact create_image_full (freeCount_zero.mp empty) trampoline slot _ _ name
      · omega
  · have enough : loading_frames (code_pages (file_size x fs name k)) ≤ freeCount k.phys.frames := by
      rcases outcome with ⟨_,failed,_⟩ | ⟨_,_,exactly,_⟩ | ⟨_,_,enough,_⟩
      · exact absurd failed none
      · omega
      · exact enough
    obtain ⟨result,next_pid⟩ := result_of_filled table none
    constructor
    · intro clean _
      refine .inr ⟨zero,fun last => ?_,enough⟩
      have same := (clean (result.mpr last)).2.2
      rw [next_pid,last] at same
      cases same
    · intro holds failed
      rcases holds found with empty | ⟨_,pid,_⟩
      · simp only [loading_frames] at enough
        omega
      · exact absurd (result.mp failed) pid

/-- A call for `hello` on the small PC when no frame is free. -/
theorem failed_create_unchanged_full :
    let c := process_create physical 0x100010#32 pcFs helloName (tight 0)
    c.result = -1 ∧ c.kernel.phys.frames = (tight 0).phys.frames := by
  have count := tight_count (n := 0) (by decide)
  have reach := physical_reaches pcFs helloName (tight 0)
  obtain ⟨_,_,pages,found⟩ := hello_file (k := tight 0) rfl rfl
  have failed := result_of_few 0x100010#32 found reach (tight_zero (by decide))
    (by rw [show code_pages (file_size physical pcFs helloName (tight 0)) = 1 from pages,count]; decide)
  exact ⟨failed,((failed_create_unchanged 0x100010#32 (fun _ => reach)).mpr (fun _ => .inl count) failed).1⟩

theorem full_of_last {s : Frames} {f : Nat} (inside : f < MAX_FRAMES) (free : is_used s f = false) (last : freeCount s = 1) :
    Full (mark_used s f) := by
  simp only [freeCount] at last
  rw [full_iff,usedCount_mark_used inside free]
  omega

/-- A call that has taken the last frame for the kernel stack keeps it. -/
theorem create_image_last {k : Kernel} {f : Nat} (inside : f < MAX_FRAMES) (free : is_used k.phys.frames f = false)
    (least : ∀ g < f, is_used k.phys.frames g = true) (nonzero : pageAddr f ≠ 0#32)
    (full : Full (mark_used k.phys.frames f)) (trampoline : Word) (slot : Slot) (prog_data prog_size : Word)
    (name : List Byte) :
    (create_image physical trampoline slot prog_data prog_size name k).kernel.phys.frames = mark_used k.phys.frames f := by
  simp only [create_image,pfa_alloc_eq inside free least,if_neg nonzero,create_dir,create_frames,alloc_full full,if_true]

/-- With one free frame the call for `hello` takes it for the kernel stack, fails for
    want of a directory, and does not give it back. -/
theorem failed_create_keeps_frame :
    let c := process_create physical 0x100010#32 pcFs helloName (tight 1)
    c.result = -1 ∧ is_used (tight 1).phys.frames 1 = false ∧ is_used c.kernel.phys.frames 1 = true ∧
      ¬ NoTrace physical 0x100010#32 pcFs helloName (tight 1) := by
  have count := tight_count (n := 1) (by decide)
  have free := (tight_used (n := 1) (by decide) 1).mpr (by decide)
  have below : ∀ g < 1, is_used (tight 1).phys.frames g = true := by
    intro g lt
    rw [Nat.lt_one_iff.mp lt]
    exact tight_zero (by decide)
  obtain ⟨_,_,pages,found⟩ := hello_file (k := tight 1) rfl rfl
  obtain ⟨slot,call,_⟩ := process_create_found 0x100010#32 found
  have failed := result_of_few 0x100010#32 found (physical_reaches pcFs helloName (tight 1))
    (tight_zero (by decide))
    (by rw [show code_pages (file_size physical pcFs helloName (tight 1)) = 1 from pages,count]; decide)
  have full := full_of_last (by decide) free count
  have taken : is_used (process_create physical 0x100010#32 pcFs helloName (tight 1)).kernel.phys.frames 1 = true := by
    rw [call,create_image_last (by decide) free below (by decide) full]
    simp
  refine ⟨failed,free,taken,fun clean => ?_⟩
  have same := free.symm.trans ((congrArg (is_used · 1) (clean failed).1).symm.trans taken)
  cases same

end SoKernel.Spawning
