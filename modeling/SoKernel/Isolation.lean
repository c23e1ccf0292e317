import SoKernel.Worlds
import SoKernel.FrameCount
import SoKernel.Kmain

/-!
Isolation of address spaces. Through the directory of a process user code reaches
only frames that `process_create` got for that process, so never a frame of another
process, of the kernel or of a directory or table. It reaches no frame of the
initrd either, provided that the initrd was really reserved: `pfa_reserve` rounds
an end in the last page of the address space up to 0 and then reserves nothing.
-/
namespace SoKernel.Isolation
open SoKernel.Words SoKernel.Pages SoKernel.Pfa SoKernel.PfaInit SoKernel.Paging SoKernel.PageTables SoKernel.Fs
  SoKernel.Process SoKernel.KernelAccess SoKernel.AddressSpace SoKernel.FrameCount SoKernel.System SoKernel.Worlds
  SoKernel.Kmain
set_option linter.unusedSimpArgs false

/-- User code reaches the frame through the directory that the call built. -/
def Accessible (m : Memory) (c : Creation) (f : Nat) : Prop :=
  c.user_dir ≠ 0#32 ∧ ∃ virt t, translate m c.user_dir virt = some t ∧ t.user = true ∧ pageOf t.phys = f

/-- The frame is a page table that the directory points to. -/
def IsTable (m : Memory) (dir : Word) (f : Nat) : Prop :=
  ∃ i < 1024, entry m dir i &&& PDE_PRESENT ≠ 0#32 ∧ entry m dir i &&& PDE_PS = 0#32 ∧ f = pageOf (entry m dir i)

theorem isTable_owns {m : Memory} {dir : Word} {tables : Nat → Option Word} {map : PageMap}
    (rep : Represents m dir tables map) {f : Nat} (isTable : IsTable m dir f) : Owns dir tables f := by
  obtain ⟨i,inside,_,narrow,rfl⟩ := isTable
  cases found : tables i with
  | none =>
    rw [(rep.wide i inside found).1,(wideEntry_flags i).2.1] at narrow
    cases narrow
  | some t =>
    obtain ⟨user,isEntry,_⟩ := rep.narrow i inside t found
    have page := (tableEntry_flags (rep.placed i inside t found).1 user).2.2.2.2
    refine .inr ⟨i,inside,t,found,?_⟩
    rw [pageAddr_and] at page
    have same := congrArg pageOf page
    rw [pageOf_pageAddr (pageOf_lt _)] at same
    rw [isEntry,same]

theorem run_separate {mach : Machine} {fs : FsInstance} (direct : mach.access = fun _ => physical) {k : Kernel}
    (zero : is_used k.phys.frames 0 = true) (idle : ∀ i, (k.procs i).state = .dead) {w : World}
    (run : Run mach fs (fun _ _ => True) ⟨k,[]⟩ w) : ∃ book, Separate k.phys.frames w book := by
  induction run with
  | refl => exact ⟨[],separate_nil zero idle⟩
  | tail _ step ih =>
    obtain ⟨book,inv⟩ := ih
    obtain ⟨action,_,step⟩ := step
    refine step_separate inv step (fun name _ => ?_)
    rw [World.call,direct]
    exact process_create_physical inv.zero _ fs name

/-- In every run from boot, user code of a process reaches only the frames that
    were got for it: no frame of another process, and none of the kernel image, the
    initrd, a kernel stack, a directory or a table. -/
theorem address_spaces_isolated {b : Setup} {fuel : Nat} {k : Kernel} {fs : FsInstance} (boot : kmain fuel b = some (k,fs))
    (reserved : b.mod_end.toNat ≤ 0xFFFFF000) {mach : Machine} (direct : mach.access = fun _ => physical) {w : World}
    (run : Run mach fs (fun _ _ => True) ⟨k,[]⟩ w) :
    (∀ c ∈ w.log, ∀ f, Accessible w.mem c f → ∃ a ∈ user_frames c, pageOf a = f) ∧
      w.log.Pairwise (fun c c' => ∀ f, ¬ (Accessible w.mem c f ∧ Accessible w.mem c' f)) ∧
      (∀ c ∈ w.log, ∀ f, Accessible w.mem c f →
        ¬ Shares f b.kernel_physical_start.toNat b.kernel_physical_end.toNat ∧
        ¬ Shares f b.mod_start.toNat b.mod_end.toNat ∧
        ∀ c' ∈ w.log, (c'.kernel_stack ≠ 0#32 → f ≠ pageOf c'.kernel_stack) ∧
          (c'.user_dir ≠ 0#32 → f ≠ pageOf c'.user_dir ∧ ¬ IsTable w.mem c'.user_dir f)) ∧
      ∀ i, (w.kernel.procs i).state ≠ .dead → ∃ c ∈ w.log, c.slot = some i ∧ c.user_dir ≠ 0#32 ∧
        (w.kernel.procs i).page_dir_phys = c.user_dir ∧ (w.kernel.procs i).kernel_stack = c.kernel_stack := by
  have idle : ∀ i, (k.procs i).state = .dead := by
    obtain ⟨_,_,_,rfl⟩ := kmain_started boot
    exact fun _ => rfl
  obtain ⟨book,inv⟩ := run_separate direct (kmain_zero boot) idle run
  have reached : ∀ e ∈ book, ∀ f, Accessible w.mem e.1 f → ∃ a ∈ user_frames e.1, pageOf a = f := by
    rintro e member f ⟨nonzero,virt,t,found,user,rfl⟩
    obtain ⟨a,isUser,page⟩ := user_page (inv.describes e member) nonzero found user
    exact ⟨a,isUser,page.symm⟩
  have held : ∀ e ∈ book, ∀ f, Accessible w.mem e.1 f →
      e.2.taken f ∧ ¬ Owns e.1.user_dir e.2.tables f ∧ f ≠ pageOf e.1.kernel_stack := by
    intro e member f accessible
    obtain ⟨a,isUser,rfl⟩ := reached e member f accessible
    obtain ⟨_,space⟩ := (inv.describes e member).dir accessible.1
    exact ⟨space.userTaken a isUser,space.userApart a isUser⟩
  refine ⟨?_,?_,?_,inv.slots⟩
  · intro c logged f accessible
    obtain ⟨g,member⟩ := mem_book inv logged
    exact reached _ member f accessible
  · refine log_pairwise inv (fun e member e' member' disjoint f both => ?_)
    exact disjoint f (held e member f both.1).1 (held e' member' f both.2).1
  · intro c logged f accessible
    obtain ⟨g,member⟩ := mem_book inv logged
    obtain ⟨taken,noTable,notStack⟩ := held _ member f accessible
    have free := (inv.taken _ member f taken).1
    refine ⟨?_,?_,?_⟩
    · intro shares
      rw [kmain_image boot shares] at free
      cases free
    · intro shares
      rw [kmain_initrd boot reserved shares] at free
      cases free
    · intro c' logged'
      obtain ⟨g',member'⟩ := mem_book inv logged'
      have describes := inv.describes _ member'
      refine ⟨?_,?_⟩
      · rintro nonzero rfl
        have same := taken_unique inv member member' taken (describes.stack nonzero).2
        cases same
        exact notStack rfl
      · intro nonzero
        have owned := no_table inv member taken noTable _ member' nonzero
        exact ⟨fun same => owned (.inl same),
          fun isTable => owned (isTable_owns (describes.dir nonzero).2.rep isTable)⟩

/-- The next call takes nothing away. -/
theorem accessible_after {c c' : Creation} {k : Kernel} (image : Image c k) (later : Image c' c.kernel) {f : Nat}
    (accessible : Accessible c.kernel.phys.mem c f) : Accessible c'.kernel.phys.mem c f := by
  obtain ⟨nonzero,virt,t,found,rest⟩ := accessible
  obtain ⟨_,tables,map,space,_⟩ := image.dir nonzero
  have kept : Represents c'.kernel.phys.mem c.user_dir tables map := represents_congr space.rep (fun a owns => later.off a (by
    rintro ⟨free,_⟩
    rw [(space.owned _ owns).2] at free
    cases free))
  refine ⟨nonzero,virt,t,?_,rest⟩
  rw [translate_correct kept,← translate_correct space.rep,found]

/-- A new process reaches its code page. -/
theorem stocked_accessible {k : Kernel} {count : Nat} (stocked : Stocked k (count+1)) {name : List Byte}
    (known : name ∈ [helloName,shellName,topName]) {slot : Slot} (found : free_slot k.procs = some slot) :
    ∃ f, Accessible (process_create physical 0x100010#32 pcFs name k).kernel.phys.mem
      (process_create physical 0x100010#32 pcFs name k) f := by
  obtain ⟨program,onePage⟩ := stocked_program (x := physical) (fun _ _ => rfl) known stocked
  obtain ⟨first,len,positive,inside,long,below,free⟩ := stocked.room
  have most : most_frames (program_pages physical pcFs name k) = 6 := by
    rw [onePage]
    decide
  obtain ⟨_,gotDir,_,t,translated,user,_⟩ := process_create_user_page physical 0x100010#32 pcFs name
    (stocked_physical stocked 0x100010#32 name) positive below free (le_trans inside (by decide)) (by omega) found program (v := 0)
    (by omega) (by decide) (by decide)
  exact ⟨_,gotDir,_,t,translated,user,rfl⟩

/-- `hello` and `shell` are created on the small PC. -/
theorem address_spaces_isolated_pc : ∃ frames w c c' f f', kmain 3 trio = some (trioKernel frames,pcFs) ∧
    Run ⟨fun _ => physical,0x100010#32⟩ pcFs (fun _ _ => True) ⟨trioKernel frames,[]⟩ w ∧ w.log = [c',c] ∧
    Accessible w.mem c f ∧ ¬ Accessible w.mem c' f ∧ Accessible w.mem c' f' ∧ ¬ Accessible w.mem c f' ∧
    ¬ Shares f 0x100000 0x140000 ∧ ¬ Shares f' 0x200000 0x20020C := by
  obtain ⟨frames,ended,boot⟩ := trio_kmain
  have stocked := trio_stocked ended
  have hello : helloName ∈ [helloName,shellName,topName] := by simp
  have shell : shellName ∈ [helloName,shellName,topName] := by simp
  have found : free_slot (trioKernel frames).procs = some 0 := rfl
  obtain ⟨f,reached⟩ := stocked_accessible stocked hello found
  have image := stocked_physical stocked 0x100010#32 helloName
  obtain ⟨slot,left⟩ := stocked_create (x := physical) (fun _ _ => rfl) hello stocked image found
  have table := process_create_table physical 0x100010#32 pcFs helloName (trioKernel frames)
  have run : Run ⟨fun _ => physical,0x100010#32⟩ pcFs (fun _ _ => True) ⟨trioKernel frames,[]⟩ _ :=
    .tail (.single ⟨_,trivial,Step.create _ helloName⟩) ⟨_,trivial,Step.create _ shellName⟩
  simp only [World.call] at run
  generalize process_create physical 0x100010#32 pcFs helloName (trioKernel frames) = c at *
  obtain ⟨f',reached'⟩ := stocked_accessible left shell (trio_second table slot)
  have kept := accessible_after image (stocked_physical left 0x100010#32 shellName) reached
  have ends : trio.mod_end.toNat ≤ 0xFFFFF000 := by
    rw [trio_module.2]
    decide
  obtain ⟨_,disjoint,apart,_⟩ := address_spaces_isolated boot ends rfl run
  have separate := List.rel_of_pairwise_cons disjoint List.mem_cons_self
  have notInitrd := (apart _ List.mem_cons_self _ reached').2.1
  rw [trio_module.1,trio_module.2] at notInitrd
  exact ⟨frames,_,_,_,f,f',boot,run,rfl,kept,fun other => separate f ⟨other,kept⟩,reached',
    fun other => separate f' ⟨reached',other⟩,(apart _ (List.mem_cons_of_mem _ List.mem_cons_self) _ kept).1,notInitrd⟩

/-! ### An initrd in the last page -/

/-- The words that the boot loader writes on a machine with memory at 1 MiB, where
    the kernel and the boot information are, and from 0xFFFF0000 on, where the initrd
    is. It ends at 0xFFFFF800. -/
def highWords : List (Word × Word) :=
  [(0x140000#32,0x48#32),(0x140014#32,1#32),(0x140018#32,0x140080#32),(0x14002C#32,48#32),(0x140030#32,0x141000#32),
    (0x140080#32,0xFFFF0000#32),(0x140084#32,0xFFFFF800#32),
    (0x141000#32,20#32),(0x141004#32,0x100000#32),(0x14100C#32,0x42000#32),(0x141014#32,1#32),
    (0x141018#32,20#32),(0x14101C#32,0xFFFF0000#32),(0x141024#32,0x11000#32),(0x14102C#32,1#32),
    (0xFFFF0000#32,0x534F4653#32),(0xFFFF0004#32,1#32),
    (0xFFFF0008#32,0x6C6C6568#32),(0xFFFF000C#32,0x6F#32),(0xFFFF0048#32,80#32),(0xFFFF004C#32,100#32)]

def highMemory : Memory :=
  highWords.foldl (fun m write => write32 m write.1 write.2) (fun a => if pageOf a = 0x104 then pcDirectory a else 0#8)

def high : Setup where
  mem := highMemory
  multiboot_info_addr := 0x140000#32
  kernel_physical_start := 0x100000#32
  kernel_physical_end := 0x140000#32
  multiboot_magic := MULTIBOOT_BOOTLOADER_MAGIC
  kernel_stack := 0x120000#32
  page_directory := 0x104000#32
  aligned := pcSetup.aligned
  identity := by
    intro i inside
    exact directory_entry highWords (by simp [highWords,pageOf]) inside
  inImage := pcSetup.inImage
  imageEnd := pcSetup.imageEnd

def highFs : FsInstance := ⟨0xFFFF0000#32,0xFFFF0000#32,0xFFFF0008#32⟩

def highKernel (frames : Frames) : Kernel :=
  ⟨⟨pfa_reserve frames 0xFFFF0000#32 0xFFFFF800#32,high.mem⟩,fun _ => blank,none,1#32,0x121000#32,0x104000#32⟩

theorem high_module : high.mod_start = 0xFFFF0000#32 ∧ high.mod_end = 0xFFFFF800#32 := by decide +kernel

theorem high_kmain : ∃ frames, high.init 3 = some frames ∧ kmain 3 high = some (highKernel frames,highFs) := by
  obtain ⟨frames,ended⟩ : ∃ frames, high.init 3 = some frames := Option.isSome_iff_exists.mp (by decide +kernel)
  refine ⟨frames,ended,?_⟩
  have modules : ¬ (high.mbi.flags &&& MULTIBOOT_INFO_MODS = 0#32 ∨ high.mods_count < 1#32) := by decide +kernel
  have mounted : fs_init high.mem 0xFFFF0000#32 = (0,highFs) := by decide +kernel
  rw [kmain,if_neg (by decide),ended,Option.bind_some,if_neg modules,high_module.1,high_module.2,mounted]
  rfl

/-- The only free frames are those of the initrd, whose reservation did nothing. -/
theorem high_free {frames : Frames} (ended : high.init 3 = some frames) :
    (∀ f < 0xFFFF0, is_used (highKernel frames).phys.frames f = true) ∧ FreeRun (highKernel frames).phys.frames 0xFFFF0 15 ∧
      ∀ f, is_used (highKernel frames).phys.frames f = false → 0xFFFF0 ≤ f ∧ f < 0xFFFFF := by
  have first : multiboot_mmap_entry high.mem 0x141000#32 = ⟨20#32,0x100000#64,0x42000#64,1#32⟩ := by decide +kernel
  have second : multiboot_mmap_entry high.mem 0x141018#32 = ⟨20#32,0xFFFF0000#64,0x11000#64,1#32⟩ := by decide +kernel
  have map : high.mbi.mmap_addr = 0x141000#32 ∧ high.mbi.mmap_length = 48#32 := by decide +kernel
  have entries : ∀ entry, high.Entry entry ↔
      entry = ⟨20#32,0x100000#64,0x42000#64,1#32⟩ ∨ entry = ⟨20#32,0xFFFF0000#64,0x11000#64,1#32⟩ := by
    intro entry
    rw [two_entries 0x141000#32 0x141018#32 map.1 (by rw [second,map.1,map.2]; decide) (by rw [first]; decide)
      (by rw [second]; decide),first,second]
  have unreserved : ∀ f, ¬ UsedRegion 0xFFFF0000#32 0xFFFFF800#32 f := by
    rintro f ⟨low,bound⟩
    simp only [BitVec.toNat_ofNat] at low bound
    omega
  have free_iff : ∀ f, is_used (highKernel frames).phys.frames f = false ↔ 0xFFFF0 ≤ f ∧ f < 0xFFFFF := by
    intro f
    rw [show is_used (highKernel frames).phys.frames f = is_used frames f by simp [highKernel,pfa_reserve,unreserved],
      init_free_iff ended]
    have hasMap : high.HasMap := by decide +kernel
    have firstRegion : Frees ⟨20#32,0x100000#64,0x42000#64,1#32⟩ f ↔ 0x100 ≤ f ∧ f < 0x142 := by
      simp [Frees,FreeRegion,MmapEntry.clampedEnd]
    have secondRegion : Frees ⟨20#32,0xFFFF0000#64,0x11000#64,1#32⟩ f ↔ 0xFFFF0 ≤ f ∧ f < 0xFFFFF := by
      simp [Frees,FreeRegion,MmapEntry.clampedEnd]
    have freed : high.Freed f ↔ (0x100 ≤ f ∧ f < 0x142) ∨ (0xFFFF0 ≤ f ∧ f < 0xFFFFF) := by
      simp [Boot.Freed,hasMap,entries,or_and_right,exists_or,firstRegion,secondRegion]
    have reserved : high.Reserved f ↔ f = 0 ∨ (0x100 ≤ f ∧ f < 0x140) ∨ f = 0x140 ∨ f = 0x141 := by
      simp only [Boot.Reserved,UsedRegion,hasMap,true_and,map.1,map.2]
      simp [high,sizeof_multiboot_info,PAGE_SIZE]
      omega
    rw [freed,reserved]
    omega
  refine ⟨?_,fun f low bound => (free_iff f).mpr ⟨low,by omega⟩,fun f => (free_iff f).mp⟩
  intro f below
  by_contra unused
  have := (free_iff f).mp (by simpa using unused)
  omega

/-- There the first process can write to the initrd. -/
theorem initrd_accessible : ∃ frames w c f, kmain 3 high = some (highKernel frames,highFs) ∧
    Run ⟨fun _ => physical,0x100010#32⟩ highFs (fun _ _ => True) ⟨highKernel frames,[]⟩ w ∧ c ∈ w.log ∧
    Accessible w.mem c f ∧ Shares f high.mod_start.toNat high.mod_end.toNat := by
  obtain ⟨frames,ended,boot⟩ := high_kmain
  obtain ⟨below,free,only⟩ := high_free ended
  have program : fs_find high.mem highFs helloName = 0 ∧ code_pages (fs_file_size high.mem highFs 0) = 1 := by
    decide +kernel
  have onePage : program_pages physical highFs helloName (highKernel frames) = 1 := by
    rw [program_pages,show seen physical (highKernel frames).phys.mem = high.mem from rfl,program.1]
    exact program.2
  obtain ⟨_,gotDir,_,t,found,user,wasFree⟩ := process_create_user_page physical 0x100010#32 highFs helloName
    (process_create_physical (below 0 (by decide)) _ _ _) (by decide) below free (by decide)
    (by rw [onePage]; decide) (show free_slot (highKernel frames).procs = some 0 from rfl) (by
      rw [show seen physical (highKernel frames).phys.mem = high.mem from rfl,program.1]
      decide) (v := 0) (by rw [onePage]; decide) (by decide) (by decide)
  obtain ⟨low,bound⟩ := only _ wasFree
  refine ⟨frames,_,_,pageOf t.phys,boot,.single ⟨_,trivial,Step.create _ helloName⟩,List.mem_cons_self,
    ⟨gotDir,_,t,found,user,rfl⟩,?_⟩
  rw [high_module.1,high_module.2]
  refine ⟨pageOf t.phys*4096,?_,?_,le_refl _,by omega⟩
  · simp only [BitVec.toNat_ofNat]
    omega
  · simp only [BitVec.toNat_ofNat]
    omega

end SoKernel.Isolation
