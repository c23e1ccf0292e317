import SoKernel.FrameCount
import SoKernel.PfaInit

/-!
`kmain` up to the point where the first process is created: the allocator is
initialized, the initrd is reserved and mounted, and the process table is empty.
-/
namespace SoKernel.Kmain
open SoKernel.Words SoKernel.Pages SoKernel.Pfa SoKernel.PfaInit SoKernel.Paging SoKernel.PageTables SoKernel.Fs
  SoKernel.Process SoKernel.AddressSpace SoKernel.FrameCount
set_option linter.unusedSimpArgs false

def MULTIBOOT_BOOTLOADER_MAGIC : Word := 0x2BADB002#32
def MULTIBOOT_INFO_MODS : Word := 1#32 <<< 3
def KERNEL_STACK_SIZE : Word := 4096#32

/-- The arguments of `kmain` and the two parts of the kernel image that it points
    the processor to: the boot stack and the directory of `paging.s`, which maps
    every address to itself. -/
structure Setup extends Boot where
  multiboot_magic : Word
  kernel_stack : Word
  page_directory : Word
  aligned : PageAligned page_directory
  identity : ∀ i < 1024, entry mem page_directory i = wideEntry i
  inImage : kernel_physical_start.toNat ≤ page_directory.toNat ∧ page_directory.toNat+4096 ≤ kernel_physical_end.toNat
  imageEnd : kernel_physical_end.toNat ≤ 0xFFFFF000

namespace Setup
variable (b : Setup)

def mods_count : Word := read32 b.mem (b.multiboot_info_addr+20#32)
def mods_addr : Word := read32 b.mem (b.multiboot_info_addr+24#32)
/-- The first module, which is the initrd. -/
def mod_start : Word := read32 b.mem b.mods_addr
def mod_end : Word := read32 b.mem (b.mods_addr+4#32)

end Setup

/-- A slot of the process table before `process_init`. -/
def blank : Proc := ⟨0#32,.dead,0#32,0#32,0#32,0#32,fun _ => 0#8⟩

/-- `kmain` until `process_init` has returned, with the file system it has
    mounted; `none` when it halts before. -/
def kmain (fuel : Nat) (b : Setup) : Option (Kernel × FsInstance) :=
  if b.multiboot_magic ≠ MULTIBOOT_BOOTLOADER_MAGIC then none
  else (b.init fuel).bind (fun frames =>
    if b.mbi.flags &&& MULTIBOOT_INFO_MODS = 0#32 ∨ b.mods_count < 1#32 then none
    else
      let mounted := fs_init b.mem b.mod_start
      if mounted.1 ≠ 0 then none
      else some (process_init
        { phys := ⟨pfa_reserve frames b.mod_start b.mod_end,b.mem⟩
          procs := fun _ => blank
          current := none
          next_pid := 1#32
          esp0 := b.kernel_stack+KERNEL_STACK_SIZE
          cr3 := b.page_directory },mounted.2))

/-- What `kmain` has set up. -/
theorem kmain_started {fuel : Nat} {b : Setup} {k : Kernel} {fs : FsInstance} (boot : kmain fuel b = some (k,fs)) :
    ∃ frames, b.init fuel = some frames ∧ fs = (fs_init b.mem b.mod_start).2 ∧
      k = ⟨⟨pfa_reserve frames b.mod_start b.mod_end,b.mem⟩,fun _ => blank,none,1#32,b.kernel_stack+KERNEL_STACK_SIZE,
        b.page_directory⟩ := by
  rw [kmain] at boot
  split at boot
  · cases boot
  · obtain ⟨frames,ended,rest⟩ := Option.bind_eq_some_iff.mp boot
    split at rest
    · cases rest
    · simp only [] at rest
      split at rest
      · cases rest
      · cases rest
        exact ⟨frames,ended,rfl,rfl⟩

section
variable {fuel : Nat} {b : Setup} {k : Kernel} {fs : FsInstance} (boot : kmain fuel b = some (k,fs))
include boot

theorem kmain_zero : is_used k.phys.frames 0 = true := by
  obtain ⟨frames,ended,_,rfl⟩ := kmain_started boot
  have used : is_used frames 0 = true := by
    by_contra unused
    exact ((init_free_iff ended 0).mp (by simpa using unused)).2 (.inl (by decide))
  simp [pfa_reserve,used]

/-- No frame of the kernel image is free. -/
theorem kmain_image {f : Nat} (shares : Shares f b.kernel_physical_start.toNat b.kernel_physical_end.toNat) :
    is_used k.phys.frames f = true := by
  obtain ⟨frames,ended,_,rfl⟩ := kmain_started boot
  have used : is_used frames f = true := by
    by_contra unused
    exact ((init_free_iff ended f).mp (by simpa using unused)).2 (.inr (.inl (shares_usedRegion b.imageEnd shares)))
  simp [pfa_reserve,used]

/-- No frame of an initrd that ends before the last page is free. -/
theorem kmain_initrd (ends : b.mod_end.toNat ≤ 0xFFFFF000) {f : Nat}
    (shares : Shares f b.mod_start.toNat b.mod_end.toNat) : is_used k.phys.frames f = true := by
  obtain ⟨frames,ended,_,rfl⟩ := kmain_started boot
  simp [pfa_reserve,shares_usedRegion ends shares]

end

/-- The directory of `paging.s` maps every address to itself. -/
theorem boot_directory {b : Setup} {m : Memory} (same : ∀ a, pageOf a = pageOf b.page_directory → m a = b.mem a) :
    Represents m b.page_directory (fun _ => none) (fun _ => none) := by
  refine ⟨b.aligned,fun i inside _ => ⟨?_,fun _ _ => rfl⟩,?_,?_,?_,?_,?_⟩
  · rw [entry_congr b.aligned inside same]
    exact b.identity i inside
  · intro i _ t found; cases found
  · intro i _ j _ t found; cases found
  · intro i _ t found; cases found
  · intro i _ t found; cases found
  · intro v phys flags found; cases found

theorem kmain_directory {fuel : Nat} {b : Setup} {k : Kernel} {fs : FsInstance} (boot : kmain fuel b = some (k,fs)) :
    Represents k.phys.mem b.page_directory (fun _ => none) (fun _ => none) := by
  obtain ⟨frames,_,_,rfl⟩ := kmain_started boot
  exact boot_directory (fun _ _ => rfl)

/-! ### The small PC -/

/-- Words written to other pages do not change a page. -/
theorem foldl_write32_off {p : Nat} (words : List (Word × Word)) (m : Memory)
    (others : ∀ w ∈ words, w.1.toNat % 4 = 0 ∧ pageOf w.1 ≠ p) {a : Word} (inPage : pageOf a = p) :
    words.foldl (fun m write => write32 m write.1 write.2) m a = m a := by
  induction words generalizing m with
  | nil => rfl
  | cons w rest ih =>
    obtain ⟨aligned,other⟩ := others w (by simp)
    rw [List.foldl_cons,ih _ (fun v member => others v (by simp [member]))]
    refine write32_outside (fun inWord => other ?_)
    rw [inWord_aligned aligned] at inWord
    simp only [pageOf] at inPage ⊢
    omega

/-- The boot directory under what a boot loader has written elsewhere. -/
theorem directory_entry (words : List (Word × Word)) (others : ∀ w ∈ words, w.1.toNat % 4 = 0 ∧ pageOf w.1 ≠ 0x104)
    {i : Nat} (inside : i < 1024) :
    entry (words.foldl (fun m write => write32 m write.1 write.2)
      (fun a => if pageOf a = 0x104 then pcDirectory a else 0#8)) 0x104000#32 i = wideEntry i := by
  have aligned : PageAligned 0x104000#32 := by simp [PageAligned]
  have joined : BitVec.ofNat 32 i <<< 22 ||| 0x83#32 = wideEntry i := by
    simp only [wideEntry,PDE_PRESENT,PDE_RW,PDE_PS,BitVec.or_assoc]
    rfl
  rw [entry_congr aligned inside (n := pcDirectory),pcDirectory,
    (fill_page aligned _ (fun i => BitVec.ofNat 32 i <<< 22 ||| 0x83#32)).1 i inside,joined]
  intro a inPage
  have page : pageOf a = 0x104 := inPage.trans (by decide)
  rw [foldl_write32_off words _ others page,if_pos page]

/-- The small PC with the kernel started on it. -/
def pcSetup : Setup where
  toBoot := pc
  multiboot_magic := MULTIBOOT_BOOTLOADER_MAGIC
  kernel_stack := 0x120000#32
  page_directory := 0x104000#32
  aligned := by simp [PageAligned]
  identity := fun _ inside => directory_entry pcWords (by simp [pcWords,pageOf]) inside
  inImage := by decide
  imageEnd := by decide

theorem pc_module : pcSetup.mod_start = 0x200000#32 ∧ pcSetup.mod_end = 0x201484#32 := by decide +kernel

/-- The initrd of the small PC. -/
def pcFs : FsInstance := ⟨0x200000#32,0x200000#32,0x200008#32⟩

/-- The kernel of the small PC, once `kmain` has called `process_init`. -/
def pcKernel (frames : Frames) : Kernel :=
  ⟨⟨pfa_reserve frames 0x200000#32 0x201484#32,pc.mem⟩,fun _ => blank,none,1#32,0x121000#32,0x104000#32⟩

theorem pc_kmain : ∃ frames, pc.init 3 = some frames ∧ kmain 3 pcSetup = some (pcKernel frames,pcFs) := by
  obtain ⟨frames,ended⟩ := pc_init
  refine ⟨frames,ended,?_⟩
  have ended' : pcSetup.init 3 = some frames := ended
  have modules : ¬ (pcSetup.mbi.flags &&& MULTIBOOT_INFO_MODS = 0#32 ∨ pcSetup.mods_count < 1#32) := by decide +kernel
  have mounted : fs_init pcSetup.mem 0x200000#32 = (0,pcFs) := by decide +kernel
  rw [kmain,if_neg (by decide),ended',Option.bind_some,if_neg modules,pc_module.1,pc_module.2,mounted]
  rfl

/-- The first free frames of the small PC. -/
theorem pc_free {frames : Frames} (ended : pc.init 3 = some frames) :
    (∀ f < 1, is_used (pcKernel frames).phys.frames f = true) ∧ FreeRun (pcKernel frames).phys.frames 1 15 := by
  refine ⟨?_,?_⟩
  · intro f below
    rw [show f = 0 by omega]
    simp [pcKernel,pfa_reserve,pc_zero_used ended]
  · intro f low high
    have outside : ¬ UsedRegion 0x200000#32 0x201484#32 f := by
      simp only [UsedRegion,BitVec.toNat_ofNat]
      omega
    simp [pcKernel,pfa_reserve,pc_low_free ended (f := f) (by omega) (by omega),outside]

/-- The C strings "hello" and "shell". -/
def helloName : List Byte := [0x68#8,0x65#8,0x6C#8,0x6C#8,0x6F#8]
def shellName : List Byte := [0x73#8,0x68#8,0x65#8,0x6C#8,0x6C#8]

theorem pc_programs : fs_find pc.mem pcFs helloName = 0 ∧ code_pages (fs_file_size pc.mem pcFs 0) = 1 ∧
    fs_find pc.mem pcFs shellName = 1 ∧ code_pages (fs_file_size pc.mem pcFs 1) = 2 := by decide +kernel

/-! ### The small PC with three programs -/

/-- The words that the boot loader writes on the small PC when it puts its information
    into frame 0x90 and the initrd has the programs `hello`, `shell` and `top` of 100
    bytes each. -/
def trioWords : List (Word × Word) :=
  [(0x90000#32,0x49#32),(0x90008#32,0x7C00#32),(0x90014#32,1#32),(0x90018#32,0x90080#32),
    (0x9002C#32,48#32),(0x90030#32,0x90100#32),
    (0x90080#32,0x200000#32),(0x90084#32,0x20020C#32),
    (0x90100#32,20#32),(0x90104#32,0#32),(0x9010C#32,0x9FC00#32),(0x90114#32,1#32),
    (0x90118#32,20#32),(0x9011C#32,0x100000#32),(0x90124#32,0x1F00000#32),(0x9012C#32,1#32),
    (0x200000#32,0x534F4653#32),(0x200004#32,3#32),
    (0x200008#32,0x6C6C6568#32),(0x20000C#32,0x6F#32),(0x200048#32,224#32),(0x20004C#32,100#32),
    (0x200050#32,0x6C656873#32),(0x200054#32,0x6C#32),(0x200090#32,324#32),(0x200094#32,100#32),
    (0x200098#32,0x706F74#32),(0x2000D8#32,424#32),(0x2000DC#32,100#32)]

def trioMemory : Memory :=
  trioWords.foldl (fun m write => write32 m write.1 write.2) (fun a => if pageOf a = 0x104 then pcDirectory a else 0#8)

def trio : Setup where
  mem := trioMemory
  multiboot_info_addr := 0x90000#32
  kernel_physical_start := 0x100000#32
  kernel_physical_end := 0x140000#32
  multiboot_magic := MULTIBOOT_BOOTLOADER_MAGIC
  kernel_stack := 0x120000#32
  page_directory := 0x104000#32
  aligned := pcSetup.aligned
  identity := fun _ inside => directory_entry trioWords (by simp [trioWords,pageOf]) inside
  inImage := pcSetup.inImage
  imageEnd := pcSetup.imageEnd

def trioKernel (frames : Frames) : Kernel :=
  ⟨⟨pfa_reserve frames 0x200000#32 0x20020C#32,trio.mem⟩,fun _ => blank,none,1#32,0x121000#32,0x104000#32⟩

/-- The C string "top". -/
def topName : List Byte := [0x74#8,0x6F#8,0x70#8]

theorem trio_module : trio.mod_start = 0x200000#32 ∧ trio.mod_end = 0x20020C#32 := by decide +kernel

theorem trio_kmain : ∃ frames, trio.init 3 = some frames ∧ kmain 3 trio = some (trioKernel frames,pcFs) := by
  obtain ⟨frames,ended⟩ : ∃ frames, trio.init 3 = some frames := Option.isSome_iff_exists.mp (by decide +kernel)
  refine ⟨frames,ended,?_⟩
  have modules : ¬ (trio.mbi.flags &&& MULTIBOOT_INFO_MODS = 0#32 ∨ trio.mods_count < 1#32) := by decide +kernel
  have mounted : fs_init trio.mem 0x200000#32 = (0,pcFs) := by decide +kernel
  rw [kmain,if_neg (by decide),ended,Option.bind_some,if_neg modules,trio_module.1,trio_module.2,mounted]
  rfl

theorem trio_programs : num_files trio.mem pcFs = 3#32 ∧
    (fs_find trio.mem pcFs helloName = 0 ∧ fs_find trio.mem pcFs shellName = 1 ∧ fs_find trio.mem pcFs topName = 2) ∧
    ∀ i < 3, fs_file_size trio.mem pcFs (i : Nat) = 100#32 := by decide +kernel

/-- The low frames below the boot information are free. -/
theorem trio_low_free {s : Frames} (ended : trio.init 3 = some s) {f : Nat} (low : 0 < f) (high : f < 0x90) :
    is_used s f = false := by
  have first : multiboot_mmap_entry trio.mem 0x90100#32 = ⟨20#32,0#64,0x9FC00#64,1#32⟩ := by decide +kernel
  have second : multiboot_mmap_entry trio.mem 0x90118#32 = ⟨20#32,0x100000#64,0x1F00000#64,1#32⟩ := by decide +kernel
  have map : trio.mbi.mmap_addr = 0x90100#32 ∧ trio.mbi.mmap_length = 48#32 := by decide +kernel
  have usable : trio.Entry ⟨20#32,0#64,0x9FC00#64,1#32⟩ := by
    refine (two_entries 0x90100#32 0x90118#32 map.1 (by rw [second,map.1,map.2]; decide) (by rw [first]; decide)
      (by rw [second]; decide) _).mpr (.inl first.symm)
  refine (init_free_iff ended f).mpr ⟨.inl ⟨by decide +kernel,_,usable,rfl,by decide,?_⟩,?_⟩
  · simp only [FreeRegion,MmapEntry.clampedEnd]
    simp
    omega
  · simp only [Boot.Reserved,UsedRegion,map.1]
    simp [trio,sizeof_multiboot_info,PAGE_SIZE]
    omega

/-- The second process gets the second slot. -/
theorem trio_second {frames : Frames} {c : Creation} (table : c.Table (trioKernel frames)) (slot : c.slot = some 0) :
    free_slot c.kernel.procs = some 1 := by
  have isFirst : ∀ j : Slot, j < 1 → j = 0 := by decide
  refine free_slot_least ?_ (fun j before => ?_)
  · rw [table_kept table slot (by decide)]
    rfl
  · rw [isFirst j before,(table_new table slot).1]
    decide

/-- The initrd and the boot directory are as at boot, and there are frames for this many
    processes. -/
structure Stocked (k : Kernel) (count : Nat) : Prop where
  same : ∀ a, pageOf a = 0x104 ∨ pageOf a = 0x200 → k.phys.mem a = trio.mem a
  reserved : is_used k.phys.frames 0x104 = true ∧ is_used k.phys.frames 0x200 = true
  room : ∃ first len, 0 < first ∧ first+len ≤ 0x90 ∧ 6*count < len ∧ (∀ f < first, is_used k.phys.frames f = true) ∧
    FreeRun k.phys.frames first len

theorem trio_stocked {frames : Frames} (ended : trio.init 3 = some frames) : Stocked (trioKernel frames) 3 := by
  have booted : kmain 3 trio = some (trioKernel frames,pcFs) := by
    obtain ⟨frames',ended',booted⟩ := trio_kmain
    cases ended.symm.trans ended'
    exact booted
  refine ⟨fun _ _ => rfl,⟨kmain_image booted ⟨0x104000,by decide,by decide,by decide,by decide⟩,?_⟩,1,0x8F,by decide,by decide,
    by decide,?_,?_⟩
  · have inside : UsedRegion 0x200000#32 0x20020C#32 0x200 := by decide
    simp [trioKernel,pfa_reserve,inside]
  · intro f below
    rw [show f = 0 by omega]
    exact kmain_zero booted
  · intro f low high
    have outside : ¬ UsedRegion 0x200000#32 0x20020C#32 f := by
      simp only [UsedRegion,BitVec.toNat_ofNat]
      omega
    have free := trio_low_free ended (show 0 < f by omega) (by omega)
    simp [trioKernel,pfa_reserve,free,outside]

section
variable {k : Kernel} {count : Nat}

theorem stocked_phys {k' : Kernel} (same : k'.phys = k.phys) (stocked : Stocked k count) : Stocked k' count := by
  obtain ⟨bytes,reserved,room⟩ := stocked
  rw [← same] at bytes reserved room
  exact ⟨bytes,reserved,room⟩

theorem stocked_physical (stocked : Stocked k count) (trampoline : Word) (name : List Byte) :
    Image (process_create physical trampoline pcFs name k) k := by
  obtain ⟨_,_,positive,_,_,below,_⟩ := stocked.room
  exact process_create_physical (below 0 positive) trampoline pcFs name

variable {x : Access} (reads : ∀ a, pageOf a = 0x200 → seen x k.phys.mem a = k.phys.mem a) {name : List Byte}
  (known : name ∈ [helloName,shellName,topName])
include reads known

/-- The three programs are found, and have one page each. -/
theorem stocked_program (stocked : Stocked k count) :
    ¬ fs_find (seen x k.phys.mem) pcFs name < 0 ∧ program_pages x pcFs name k = 1 := by
  obtain ⟨files,⟨hello,shell,top⟩,sizes⟩ := trio_programs
  have image : ∀ a, pageOf a = 0x200 → seen x k.phys.mem a = trio.mem a := fun a page =>
    (reads a page).trans (stocked.same a (.inr page))
  have inPage : ∀ i < 3, ∀ j < 72, pageOf (entry_addr pcFs (i : Nat)+BitVec.ofNat 32 j) = 0x200 := by decide +kernel
  have short : name.length ≤ 5 := by
    fin_cases known <;> decide
  have word : ∀ a : Word, a.toNat % 4 = 0 → pageOf a = 0x200 → read32 (seen x k.phys.mem) a = read32 trio.mem a := by
    intro a aligned page
    refine read32_congr (fun b inWord => image b ?_)
    rw [inWord_aligned aligned] at inWord
    simp only [pageOf] at page ⊢
    omega
  have find : fs_find (seen x k.phys.mem) pcFs name = fs_find trio.mem pcFs name := by
    have count : num_files (seen x k.phys.mem) pcFs = num_files trio.mem pcFs :=
      word (pcFs.header+4#32) (by decide) (by decide)
    refine fs_find_congr count (fun i inside j within => image _ ?_)
    rw [count,files] at inside
    exact inPage i inside j (by omega)
  obtain ⟨i,inside,index⟩ : ∃ i < 3, fs_find trio.mem pcFs name = (i : Nat) := by
    fin_cases known
    · exact ⟨0,by decide,hello⟩
    · exact ⟨1,by decide,shell⟩
    · exact ⟨2,by decide,top⟩
  have size : fs_file_size (seen x k.phys.mem) pcFs (i : Nat) = 100#32 := by
    rw [← sizes i inside]
    have aligned : ∀ i < 3, (entry_addr pcFs (i : Nat)+BitVec.ofNat 32 (FS_MAX_NAME+4)).toNat % 4 = 0 := by decide +kernel
    exact word _ (aligned i inside) (inPage i inside _ (by decide))
  rw [program_pages,find,index,size]
  exact ⟨by omega,by decide⟩

/-- Any of them can be created. -/
theorem stocked_create (stocked : Stocked k (count+1)) {trampoline : Word}
    (image : Image (process_create x trampoline pcFs name k) k) {slot : Slot} (found : free_slot k.procs = some slot) :
    (process_create x trampoline pcFs name k).slot = some slot ∧
      Stocked (process_create x trampoline pcFs name k).kernel count := by
  obtain ⟨program,onePage⟩ := stocked_program reads known stocked
  obtain ⟨first,len,positive,inside,long,below,free⟩ := stocked.room
  have most : most_frames (program_pages x pcFs name k) = 6 := by
    rw [onePage]
    decide
  have all : first+len ≤ MAX_FRAMES := le_trans inside (by decide)
  have created := (process_create_succeeds x trampoline pcFs name positive below free all (by omega) found program).1
  obtain ⟨i,slotIs⟩ := Option.ne_none_iff_exists'.mp created
  have here := (process_create_name _ _ _ _ _ slotIs).1
  obtain rfl : slot = i := Option.some_inj.mp (found.symm.trans here)
  obtain ⟨n,_,few,takes⟩ := (process_create_uses x trampoline pcFs name (below 0 positive)).most
  obtain ⟨below',free'⟩ := takes_run takes (by omega) below free
  refine ⟨slotIs,?_,⟨image.grows _ stocked.reserved.1,image.grows _ stocked.reserved.2⟩,first+n,len-n,by omega,by omega,
    by omega,below',free'⟩
  intro a inPage
  rw [image.off a,stocked.same a inPage]
  rintro ⟨wasFree,_⟩
  have used : is_used k.phys.frames (pageOf a) = true := by
    rcases inPage with page | page <;> rw [page]
    · exact stocked.reserved.1
    · exact stocked.reserved.2
  rw [used] at wasFree
  cases wasFree

end

end SoKernel.Kmain
