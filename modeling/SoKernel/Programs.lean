import SoKernel.Spawning
import SoKernel.Bystanders
import SoKernel.Mkfs

/-!
From a directory of files to running programs. `mkfs.py` writes an image, a boot loader
puts it into memory, `fs_find` finds a file in it by name, and `process_create` copies the
file under the directory that is loaded. Whatever else happens before the new process runs
for the first time, it then finds exactly its file in memory, from address 0 on, and an
empty stack.
-/
namespace SoKernel.Programs
open SoKernel.Words SoKernel.Pages SoKernel.Pfa SoKernel.PfaInit SoKernel.Paging SoKernel.PageTables SoKernel.Stack SoKernel.Fs
  SoKernel.Process SoKernel.KernelAccess SoKernel.AddressSpace SoKernel.FrameCount SoKernel.Loading SoKernel.Spawning
  SoKernel.Worlds SoKernel.StackReach SoKernel.Kmain SoKernel.Syscalls SoKernel.Processor SoKernel.StackFrames
  SoKernel.KernelThreads SoKernel.KernelStacks SoKernel.ContextSwitch SoKernel.Footprint SoKernel.Bystanders
  SoKernel.PagedLoading
open SoKernel.Mkfs hiding Entry
set_option linter.unusedSimpArgs false

/-- A new process finds this in memory: the file, zeros up to the end of its last page, a
    stack page of zeros, and nothing else. -/
def program (data : List Byte) (virt : Word) : Option Byte :=
  if virt.toNat < (data.length+4095)/4096*4096 then some ((data[virt.toNat]?).getD 0#8)
  else if pageOf virt = 0xBFFFF then some 0#8
  else none

/-- The boot loader has put the image of a directory above the kernel and below the user
    stack. The names of files have no zero byte. -/
structure Installed (b : Setup) (input_dir : List DirEntry) (bytes : List Byte) : Prop where
  built : build_fs input_dir = .ok bytes
  named : ∀ f ∈ regular input_dir, ∀ c ∈ f.name, 0 < c.toNat
  loaded : Words.Holds b.mem b.mod_start bytes
  ends : b.mod_start.toNat+bytes.length = b.mod_end.toNat
  nonzero : b.mod_start ≠ 0#32
  above : pageOf b.kernel_physical_start ≤ pageOf b.mod_start
  below : b.mod_end.toNat ≤ 0xBFFFF000

/-- The bytes of the initrd. -/
def Initrd (b : Setup) (a : Word) : Prop := b.mod_start.toNat ≤ a.toNat ∧ a.toNat < b.mod_end.toNat

/-- The kernel's own data without the initrd, which C code only reads. -/
def OwnData (b : Setup) (start : Frames) (f : Nat) : Prop :=
  KernelData b start f ∧ ¬ Shares f b.mod_start.toNat b.mod_end.toNat

theorem ownData_within {b : Setup} {start : Frames} (f : Nat) (own : OwnData b start f) : KernelData b start f := own.1

theorem initrd_shares {b : Setup} {a : Word} (inside : Initrd b a) :
    Shares (pageOf a) b.mod_start.toNat b.mod_end.toNat := by
  refine ⟨a.toNat,inside.1,inside.2,?_,?_⟩ <;>
    simp only [pageOf] <;> omega

/-! ### Finding a file -/

section
variable {files : List SourceFile} {m n : Memory} {base : Word}

/-- `fs_find` leads to the first file with the name, if there is one. -/
theorem find_first (holds : Words.Holds m base (image files)) (nonzero : base ≠ 0#32) (ok : ∀ f ∈ files, Ascii f.name)
    (few : files.length < 2^31) (small : image_size files < 2^32) {name : List Byte} (text : Text name) :
    (fs_find m (mounted base) name = -1 ∧ files.find? (fun f => cut_name f = name) = none) ∨
      ∃ i f, files[i]? = some f ∧ fs_find m (mounted base) name = (i : Nat) ∧
        files.find? (fun f => cut_name f = name) = some f := by
  cases found : files.find? (fun f => cut_name f = name) with
  | none =>
    have other : ∀ f ∈ files, name ≠ cut_name f := by
      intro f member same
      simpa [same] using List.find?_eq_none.mp found f member
    exact .inl ⟨(image_round_trip holds nonzero ok few small).missing name text other,rfl⟩
  | some f =>
    obtain ⟨isName,n,inside,here,earlier⟩ := List.find?_eq_some_iff_getElem.mp found
    have named : cut_name f = name := by simpa using isName
    have atN : files[n]? = some f := by rw [List.getElem?_eq_getElem inside,here]
    obtain ⟨i,first,atI,same,least,index⟩ := find_image holds nonzero ok few (List.mem_of_getElem? atN)
    rw [named] at same least index
    have place : i = n := by
      rcases Nat.lt_trichotomy i n with before | equal | after
      · obtain ⟨insideI,value⟩ := List.getElem?_eq_some_iff.mp atI
        have notNamed := earlier i before
        simp [value,same] at notNamed
      · exact equal
      · exact absurd named (least n f after atN)
    rw [place] at index
    exact .inr ⟨n,f,atN,index,rfl⟩

end

/-! ### The initrd in memory -/

section
variable {b : Setup} {input_dir : List DirEntry} {bytes : List Byte} (installed : Installed b input_dir bytes)
include installed

/-- The files of the image. -/
theorem installed_image : bytes = image (sorted input_dir) ∧ (∀ f ∈ sorted input_dir, Ascii f.name) ∧
    image_size (sorted input_dir) < 2^32 ∧ (sorted input_dir).length < 2^31 ∧
    image_size (sorted input_dir) = bytes.length := by
  obtain ⟨isImage,_,_,names⟩ := build_fs_inv installed.built
  have length := image_length (sorted input_dir)
  have ends := installed.ends
  have below := installed.below
  rw [← isImage] at length
  refine ⟨isImage,?_,by omega,?_,length.symm⟩
  · intro f member c inName
    exact ⟨installed.named f (mem_sorted.mp member) c inName,names f member c inName⟩
  · simp only [image_size,HEADER_SIZE,ENTRY_SIZE,MAX_NAME] at length
    omega

theorem initrd_byte {n : Nat} (inside : n < bytes.length) : Initrd b (b.mod_start+BitVec.ofNat 32 n) := by
  have ends := installed.ends
  have below := installed.below
  rw [Initrd,BitVec.toNat_add,BitVec.toNat_ofNat]
  omega

/-- A memory that has the bytes of the initrd. -/
theorem holds_initrd {m : Memory} (same : ∀ a, Initrd b a → m a = b.mem a) : Words.Holds m b.mod_start bytes := by
  intro i v here
  obtain ⟨inside,_⟩ := List.getElem?_eq_some_iff.mp here
  rw [same _ (initrd_byte installed inside)]
  exact installed.loaded i v here

theorem mounted_initrd {fuel : Nat} {k : Kernel} {fs : FsInstance} (boot : kmain fuel b = some (k,fs)) :
    fs = mounted b.mod_start := by
  obtain ⟨_,_,rfl,_⟩ := kmain_started boot
  have loaded := installed.loaded
  rw [(installed_image installed).1] at loaded
  rw [init_image loaded]

end

/-! ### Nobody writes to the initrd -/

section
variable {b : Setup} {input_dir : List DirEntry} {bytes : List Byte} (installed : Installed b input_dir bytes) {fuel : Nat}
  {k : Kernel} {fs : FsInstance} (boot : kmain fuel b = some (k,fs))
include installed boot

theorem initrd_used {a : Word} (inside : Initrd b a) : is_used k.phys.frames (pageOf a) = true := by
  have below := installed.below
  exact kmain_initrd boot (by omega) (initrd_shares inside)

theorem step_initrd {l : Linked} {s s' : State} {event : Event} (inv : Inv l b k.phys.frames s)
    (admits : Admits b ⟨l,fs,OwnData b k.phys.frames⟩ s event)
    (step : KernelThreads.Step ⟨l,fs,OwnData b k.phys.frames⟩ s event s') {a : Word} (inside : Initrd b a) :
    s'.cpu.mem a = s.cpu.mem a := by
  have used := initrd_used installed boot inside
  obtain ⟨book,kept⟩ := inv.kept
  by_contra changed
  cases (step_effect (kmain_image boot bootDir_shares) ownData_within inv admits step).writes a changed with
  | data own => exact own.2 (initrd_shares inside)
  | stack i running page =>
    obtain ⟨e,member,taken,_⟩ := stack_target kept.separate (running_alive running) page
    have fresh := taken_fresh kept member taken
    rw [used] at fresh
    cases fresh
  | user i running reached =>
    obtain ⟨virt,t,found,user,page⟩ := reached
    rw [running.cr3] at found
    obtain ⟨e,member,taken,_⟩ := user_target kept.separate (running_alive running) found user
    have fresh := taken_fresh kept member taken
    rw [← page,used] at fresh
    cases fresh
  | fresh free =>
    have still := kept.separate.grows _ used
    change is_used s.cpu.kernel.phys.frames _ = true at still
    rw [free] at still
    cases still

/-- From boot on the initrd is as the boot loader has left it. -/
theorem run_initrd {l : Linked} {r : Regs} (cs : r.cs = KERNEL_CODE_SEGMENT) {line : Keyboard.Line} {fb : Console.Fb}
    {events : List Event} {s : State}
    (run : KernelThreads.Run ⟨l,fs,OwnData b k.phys.frames⟩ (Admits b ⟨l,fs,OwnData b k.phys.frames⟩)
      (Transparency.booted k r line fb) events s) :
    Inv l b k.phys.frames s ∧ ∀ a, Initrd b a → s.cpu.mem a = b.mem a := by
  induction run with
  | refl =>
    refine ⟨Transparency.booted_inv boot cs,fun a _ => ?_⟩
    obtain ⟨_,_,_,rfl⟩ := kmain_started boot
    rfl
  | step _ admits step ih =>
    obtain ⟨inv,same⟩ := ih
    refine ⟨(step_keeps (kmain_image boot bootDir_shares) ownData_within inv admits step).1,fun a inside => ?_⟩
    rw [step_initrd installed boot inv admits step inside,same a inside]

end

/-! ### Creating a process -/

/-- Under a directory that leaves the pages of some bytes to the identity map, and whose own
    frames are outside `F`, pointers reach these bytes. -/
theorem paged_reads {m : Memory} {dir : Word} {tables : Nat → Option Word} {map : PageMap} {F : Nat → Prop}
    {R : Word → Prop} (rep : Represents m dir tables map) (outside : ∀ f, Owns dir tables f → ¬ F f)
    (identity : ∀ a, R a → map (pageOf a) = none) : Reads (paged dir) m F R := by
  intro n off a inR
  have rep' : Represents n dir tables map := represents_congr rep (fun b owns => off b (outside _ owns))
  simp [paged,translate_correct rep',view,identity a inR]

section
variable {b : Setup} {input_dir : List DirEntry} {bytes : List Byte} (installed : Installed b input_dir bytes)
  {start : Frames} {w : World} {book : List (Creation × Ghost)} (inv : Separate start w book) (steady : Steady b w)
  (bootUsed : is_used start (pageOf b.page_directory) = true)
include installed inv steady bootUsed

/-- The kernel reaches the initrd, whichever directory is loaded. -/
theorem steady_reads : Reads (paged w.kernel.cr3) w.mem (fun f => Free w.frames f ∧ f ≠ 0xBFFFF) (Initrd b) := by
  rcases steady.loaded with boot | ⟨c,logged,nonzero,cr3⟩
  · rw [boot]
    refine paged_reads steady.bootDir ?_ (fun _ _ => rfl)
    rintro f owns ⟨free,_⟩
    have used := inv.grows _ bootUsed
    rw [← bootDir_owns owns,free] at used
    cases used
  · rw [cr3]
    obtain ⟨g,member⟩ := mem_book inv logged
    obtain ⟨_,space⟩ := (inv.describes _ member).dir nonzero
    refine paged_reads space.rep ?_ ?_
    · rintro f owns ⟨free,_⟩
      have used := (inv.taken _ member f (space.owned f owns)).2
      rw [free] at used
      cases used
    · rintro a ⟨low,high⟩
      have above := installed.above
      have below := installed.below
      have image := steady.image c logged
      cases mapped : g.map (pageOf a) with
      | none => rfl
      | some target =>
        obtain ⟨phys,flags⟩ := target
        simp only [pageOf] at above image mapped
        rcases (space.mapped _ phys flags mapped).2.2 with code | isStack
        · change _ < c.code_pages at code
          omega
        · omega

/-- So it reads the image. -/
theorem seen_initrd (same : ∀ a, Initrd b a → w.mem a = b.mem a) :
    Words.Holds (seen (paged w.kernel.cr3) w.mem) b.mod_start bytes := by
  refine holds_initrd installed (fun a inside => ?_)
  rw [seen,load8,steady_reads installed inv steady bootUsed w.mem (fun _ _ => rfl) a inside]
  exact same a inside

/-- A program that the kernel finds is a file of the image, with its bytes in the initrd. -/
theorem file_found (same : ∀ a, Initrd b a → w.mem a = b.mem a) {name : List Byte} (text : Text name)
    (finds : Finds (paged w.kernel.cr3) (mounted b.mod_start) name w.kernel) :
    ∃ f, (sorted input_dir).find? (fun f => cut_name f = name) = some f ∧
      (file_size (paged w.kernel.cr3) (mounted b.mod_start) name w.kernel).toNat = f.data.length ∧
      Words.Holds w.mem (file_data (paged w.kernel.cr3) (mounted b.mod_start) name w.kernel) f.data ∧
      ∀ a, InFile (file_data (paged w.kernel.cr3) (mounted b.mod_start) name w.kernel)
        (file_size (paged w.kernel.cr3) (mounted b.mod_start) name w.kernel) a → Initrd b a := by
  obtain ⟨isImage,ok,small,few,size⟩ := installed_image installed
  have seenHolds : Words.Holds (seen (paged w.kernel.cr3) w.kernel.phys.mem) b.mod_start bytes :=
    seen_initrd installed inv steady bootUsed same
  have holds := holds_initrd installed same
  rw [isImage] at seenHolds holds
  rcases find_first seenHolds installed.nonzero ok few small text with ⟨missing,_⟩ | ⟨n,f,here,index,found⟩
  · have present := finds.2
    rw [missing] at present
    exact absurd (by decide) present
  have offsetEnd := data_offset_end here
  rw [file_data,file_size,index,size_image seenHolds here,fs_file_data,offset_image seenHolds here]
  have value : (BitVec.ofNat 32 f.data.length : Word).toNat = f.data.length := by
    rw [BitVec.toNat_ofNat]
    omega
  refine ⟨f,found,value,?_,?_⟩
  · have data := data_image holds here
    rw [fs_file_data,offset_image holds here] at data
    exact data
  · rintro a ⟨j,below,rfl⟩
    rw [value] at below
    change Initrd b (b.mod_start+BitVec.ofNat 32 (data_offset (sorted input_dir) n)+BitVec.ofNat 32 j)
    rw [BitVec.add_assoc,← BitVec.ofNat_add]
    exact initrd_byte installed (by omega)

/-- So the kernel's pointers reach all that a call needs. -/
theorem steady_reaches (same : ∀ a, Initrd b a → w.mem a = b.mem a) {trampoline : Word} {name : List Byte} (text : Text name)
    (fits : Fits b trampoline (mounted b.mod_start) w (.create name))
    (finds : Finds (paged w.kernel.cr3) (mounted b.mod_start) name w.kernel) :
    Reaches (paged w.kernel.cr3) (fun f => Free w.frames f ∧ f ≠ 0xBFFFF) (mounted b.mod_start) name w.kernel := by
  obtain ⟨_,_,_,_,inside⟩ := file_found installed inv steady bootUsed same text finds
  exact ⟨steady_sees inv steady bootUsed,
    fun m off a inFile => steady_reads installed inv steady bootUsed m off a (inside a inFile),fits_handed fits⟩

/-- What a call finds that gets a slot, and what it has left when the table for the user
    stack was not the one frame that was missing. -/
theorem create_finds (same : ∀ a, Initrd b a → w.mem a = b.mem a) {trampoline : Word} {name : List Byte} (text : Text name)
    (fits : Fits b trampoline (mounted b.mod_start) w (.create name)) {c : Creation}
    (called : process_create (paged w.kernel.cr3) trampoline (mounted b.mod_start) name w.kernel = c) (filled : c.slot ≠ none)
    (spare : freeCount w.frames ≠
      loading_frames (program_pages (paged w.kernel.cr3) (mounted b.mod_start) name w.kernel)) :
    ∃ f prog_data prog_size, (sorted input_dir).find? (fun f => cut_name f = name) = some f ∧
      prog_size.toNat = f.data.length ∧ Words.Holds w.mem prog_data f.data ∧
      (∀ a, InFile prog_data prog_size a → Initrd b a) ∧
      ∃ tables map, Created prog_data prog_size c w.kernel tables map := by
  have finds : Finds (paged w.kernel.cr3) (mounted b.mod_start) name w.kernel := by
    by_contra lost
    rw [(process_create_lost trampoline lost).1] at called
    exact filled (by rw [← called]; rfl)
  obtain ⟨f,found,size,holds,inside⟩ := file_found installed inv steady bootUsed same text finds
  refine ⟨f,_,_,found,size,holds,inside,?_⟩
  rcases process_create_outcome trampoline finds (steady_reaches installed inv steady bootUsed same text fits finds)
    inv.zero with ⟨_,none,_⟩ | ⟨_,_,last,_⟩ | ⟨_,_,_,_,created⟩
  · rw [called] at none
    exact absurd none filled
  · exact absurd last spare
  · rw [called] at created
    exact created

end

/-! ### What a new process finds -/

section
variable {c : Creation} {k : Kernel}

/-- A new directory shows the same as long as the frames of the call are left alone. -/
theorem image_reading (image : Image c k) (nonzero : c.user_dir ≠ 0#32) {n : Memory}
    (same : ∀ a, Took k.phys.frames c.kernel.phys.frames (pageOf a) → n a = c.kernel.phys.mem a) :
    reading n c.user_dir = reading c.kernel.phys.mem c.user_dir := by
  obtain ⟨_,tables,map,space,_⟩ := image.dir nonzero
  have rep : Represents n c.user_dir tables map := represents_congr space.rep (fun a owns => same a (space.owned _ owns))
  funext virt
  rw [reading,reading,translate_correct rep,translate_correct space.rep,Option.bind_some,Option.bind_some]
  cases mapped : map (pageOf virt) with
  | none => simp only [view,mapped,Bool.false_eq_true,if_false]
  | some target =>
    obtain ⟨phys,flags⟩ := target
    have page : pageOf (view map virt).phys = pageOf phys := by
      simp only [view,mapped]
      exact pageOf_join phys virt
    rw [same _ (by rw [page]; exact space.userTaken _ (space.mapped _ _ _ mapped).1)]

theorem reading_user {m : Memory} {dir : Word} {tables : Nat → Option Word} {map : PageMap}
    (rep : Represents m dir tables map) {virt a : Word} (aligned : PageAligned a)
    (mapped : map (pageOf virt) = some (a,PTE_PRESENT ||| PTE_RW ||| PTE_USER)) :
    reading m dir virt = some (m (a+BitVec.ofNat 32 (virt.toNat % 4096))) := by
  rw [reading,translate_user rep aligned mapped]
  rfl

/-- The program is there. -/
theorem created_reading {prog_data prog_size : Word} {tables : Nat → Option Word} {map : PageMap} {data : List Byte}
    (created : Created prog_data prog_size c k tables map) (size : prog_size.toNat = data.length)
    (short : data.length ≤ 0xBFFFF000) (holds : Words.Holds k.phys.mem prog_data data)
    (apart : ∀ a, InFile prog_data prog_size a → is_used k.phys.frames (pageOf a) = true) :
    reading c.kernel.phys.mem c.user_dir = program data := by
  have pages : code_pages prog_size = (data.length+4095)/4096 := by rw [code_pages_eq (by omega),size]
  have unread : ∀ n < prog_size.toNat, ¬ Took k.phys.frames c.kernel.phys.frames (pageOf (prog_data+BitVec.ofNat 32 n)) := by
    intro n below took
    have used := apart _ ⟨n,below,rfl⟩
    rw [took.1] at used
    cases used
  funext virt
  by_cases code : virt.toNat < (data.length+4095)/4096*4096
  · obtain ⟨a,here,aligned⟩ := created_code created (v := pageOf virt) (by rw [pages,pageOf]; omega)
    have notStack : pageOf virt ≠ 0xBFFFF := by
      simp only [pageOf]
      omega
    have mapped : map (pageOf virt) = some (a,PTE_PRESENT ||| PTE_RW ||| PTE_USER) := by
      rw [created.code _ notStack,here]
      rfl
    rw [reading_user created.rep aligned mapped,program,if_pos code,
      created.filled unread _ a here (virt.toNat % 4096) (Nat.mod_lt _ (by decide)),pageOf,Nat.div_add_mod',file_byte,size]
    by_cases inside : virt.toNat < data.length
    · rw [if_pos inside,List.getElem?_eq_getElem inside,holds _ _ (List.getElem?_eq_getElem inside)]
      rfl
    · rw [if_neg inside,List.getElem?_eq_none (by omega)]
      rfl
  · rw [program,if_neg code]
    by_cases isStack : pageOf virt = 0xBFFFF
    · rw [if_pos isStack,reading_user created.rep created.stackAligned (by rw [isStack,created.stack]),
        created.zeros _ (Nat.mod_lt _ (by decide))]
    · have unmapped : map (pageOf virt) = none := by
        rw [created.code _ isStack,List.getElem?_eq_none (by rw [created.length,pages,pageOf]; omega)]
        rfl
      rw [if_neg isStack,reading,translate_correct created.rep,Option.bind_some]
      simp only [view,unmapped,Bool.false_eq_true,if_false]

end

/-! ### Until it runs -/

/-- The process has not run yet. -/
structure New (s : State) (i : Slot) : Prop where
  fresh : s.thread i = .fresh
  alive : (s.cpu.kernel.procs i).state ≠ .dead

section
variable {p : Program} {l : Linked} {b : Setup} {start : Frames} {s s' : State} {event : Event} {i j : Slot} {e : Entry}
  {point : Point}

theorem new_elsewhere (fresh : s.thread i = .fresh) (inside : s.In j e point) : i ≠ j := by
  rintro rfl
  rw [inside.2.2] at fresh
  cases fresh

/-- A new process stays new until it starts. -/
theorem step_new (bootUsed : is_used start (pageOf b.page_directory) = true) (within : ∀ f, p.data f → KernelData b start f)
    (inv : Inv p.linked b start s) (new : New s i) (notStarted : ∀ r, event ≠ .started i r)
    (step : KernelThreads.Step p s event s') : New s' i := by
  have fresh := new.fresh
  rcases step_rested bootUsed within inv new.alive step with ⟨alive,rests⟩ | ⟨user,current⟩ | ⟨e,point,inside⟩
  · refine ⟨?_,alive⟩
    rw [fresh] at rests
    generalize after : s'.thread i = t at rests
    cases rests with
    | same => rfl
    | starts r shown => exact absurd shown (notStarted r)
  · rw [(user_stack inv user current).2.1] at fresh
    cases fresh
  · exact absurd rfl (new_elsewhere fresh inside)

theorem new_untouched (inv : Inv p.linked b start s) (new : New s i) (step : KernelThreads.Step p s event s') :
    Untouched i s event := by
  refine ⟨new.alive,fun current => ⟨?_,?_⟩⟩
  · rintro ⟨user,_⟩
    have idle := (user_stack inv user current).2.1
    rw [new.fresh] at idle
    cases idle
  · rintro addresses rfl
    obtain ⟨j,e,point,inside⟩ := stored_inside step
    exact new_elsewhere new.fresh inside (Option.some.inj (current.symm.trans inside.2.1))

/-- Until it starts, a new process keeps what is in its memory. -/
theorem run_new (bootUsed : is_used start (pageOf b.page_directory) = true) (within : ∀ f, p.data f → KernelData b start f)
    (inv : Inv p.linked b start s) (new : New s i) {later : List Event}
    (waits : KernelThreads.Run p (fun t event => Admits b p t event ∧ ∀ r, event ≠ .started i r) s later s') :
    Inv p.linked b start s' ∧ New s' i ∧ userView s' i = userView s i := by
  induction waits with
  | refl => exact ⟨inv,new,rfl⟩
  | step _ both step ih =>
    obtain ⟨invT,newT,same⟩ := ih
    obtain ⟨book,kept⟩ := invT.kept
    have effect := step_effect bootUsed within invT both.1 step
    exact ⟨(step_keeps bootUsed within invT both.1 step).1,step_new bootUsed within invT newT both.2 step,
      (effect_view within kept bootUsed effect (new_untouched invT newT step)).trans same⟩

/-- The step of a call of `process_create`: at most a result is stored on the caller's stack. -/
theorem created_step (inv : Inv p.linked b start s) {name : List Byte} (step : KernelThreads.Step p s (.created name) s') :
    (∀ i, s'.cpu.kernel.procs i = (s.create p name).kernel.procs i) ∧
      (∀ i, (s.create p name).slot = some i → (s.create p name).Table s.cpu.kernel → s'.thread i = .fresh) ∧
      ∀ a, is_used s.cpu.kernel.phys.frames (pageOf a) = false → s'.cpu.mem a = (s.create p name).kernel.phys.mem a := by
  have shows : ¬ (Event.created name = .silent ∨ ∃ j r, Event.created name = .started j r) := by simp
  cases step with
  | launch j _ _ launching current lands => exact absurd (lands_event lands) shows
  | tick j e n error_code inside kind timer _ _ schedules => exact absurd (schedules_event schedules) shows
  | sysExit j e inside kind call _ _ switched => exact absurd (switches_event switched) shows
  | sysYield j e inside kind call _ _ schedules => exact absurd (schedules_event schedules) shows
  | testNotReady j e call inside notReady _ _ schedules => exact absurd (schedules_event schedules) shows
  | bootCreate name boot =>
    refine ⟨fun _ => rfl,fun i slot _ => ?_,fun _ _ => rfl⟩
    change withNew s.thread (s.create p name).slot i = .fresh
    rw [slot]
    exact Function.update_self ..
  | sysSpawn j e name inside kind call named =>
    obtain ⟨book,within⟩ := inside_of inv inside
    refine ⟨fun _ => rfl,fun i slot table => ?_,fun a free => ?_⟩
    · have other : i ≠ j := by
        rintro rfl
        exact running_alive within.running (table.filled i slot).1
      change Function.update (withNew s.thread (s.create p name).slot) j _ i = .fresh
      rw [Function.update_of_ne other,slot]
      exact Function.update_self ..
    · change write32 (s.create p name).kernel.phys.mem (s.regs j+24#32) _ a = _
      have other : pageOf a ≠ pageOf (s.stack j) := by
        intro page
        obtain ⟨e',member,taken,_⟩ := stack_target within.kept.separate (running_alive within.running) page
        have used := (within.kept.separate.taken e' member _ taken).2
        change is_used s.cpu.kernel.phys.frames _ = true at used
        rw [free] at used
        cases used
      rw [regs_pointer within kind,slot_add_24,write_slot_off (inside_aligned within) (by decide) other]

end

/-! ### From the directory to the process -/

section
variable {b : Setup} {input_dir : List DirEntry} {bytes : List Byte} (installed : Installed b input_dir bytes) {fuel : Nat}
  {k : Kernel} {fs : FsInstance} (boot : kmain fuel b = some (k,fs)) {l : Linked}
include installed boot

/-- A new process has its program in memory. -/
theorem created_view {s s' : State} (inv : Inv l b k.phys.frames s) (initrd : ∀ a, Initrd b a → s.cpu.mem a = b.mem a)
    {name : List Byte} (text : Text name) (admits : Admits b ⟨l,fs,OwnData b k.phys.frames⟩ s (.created name))
    (creates : KernelThreads.Step ⟨l,fs,OwnData b k.phys.frames⟩ s (.created name) s') {i : Slot}
    (slot : (s.create ⟨l,fs,OwnData b k.phys.frames⟩ name).slot = some i)
    (spare : freeCount s.cpu.kernel.phys.frames ≠ loading_frames (program_pages s.access fs name s.cpu.kernel)) :
    New s' i ∧ ∃ f, (sorted input_dir).find? (fun f => cut_name f = name) = some f ∧ userView s' i = program f.data := by
  have bootUsed := kmain_image boot bootDir_shares
  have isMounted := mounted_initrd installed boot
  obtain ⟨book,kept⟩ := inv.kept
  have image := create_image bootUsed kept admits
  have table := process_create_table s.access l.process_start_trampoline fs name s.cpu.kernel
  obtain ⟨procs,thread,mem⟩ := created_step (p := ⟨l,fs,OwnData b k.phys.frames⟩) inv creates
  generalize called : s.create ⟨l,fs,OwnData b k.phys.frames⟩ name = c at slot image procs thread mem
  rw [show process_create s.access l.process_start_trampoline fs name s.cpu.kernel = c from called] at table
  obtain ⟨_,_,_,nonzero,_,_,esp,text_,updated⟩ := table.filled i slot
  subst isMounted
  obtain ⟨f,prog_data,prog_size,found,size,holds,inFile,tables,map,created⟩ := create_finds installed kept.separate
    kept.steady bootUsed initrd text admits called (by simp [slot]) spare
  have used : ∀ a, InFile prog_data prog_size a → is_used s.cpu.kernel.phys.frames (pageOf a) = true :=
    fun a inside => kept.separate.grows _ (initrd_used installed boot (inFile a inside))
  have short : f.data.length ≤ 0xBFFFF000 := by
    obtain ⟨n,here⟩ := List.mem_iff_getElem?.mp (List.mem_of_find?_eq_some found)
    have inImage := data_offset_end here
    have whole := (installed_image installed).2.2.2.2
    have ends := installed.ends
    have below := installed.below
    omega
  have dir : (s'.cpu.kernel.procs i).page_dir_phys = c.user_dir ∧ (s'.cpu.kernel.procs i).state = .ready := by
    rw [procs i,updated,Function.update_self]
    exact ⟨rfl,rfl⟩
  refine ⟨⟨thread i slot table,by rw [dir.2]; decide⟩,f,found,?_⟩
  funext virt
  rw [userView,dir.1,image_reading image nonzero (fun a took => mem a took.1),
    created_reading created size short holds used]

end

section
variable {b : Setup} {input_dir : List DirEntry} {bytes : List Byte} (installed : Installed b input_dir bytes) {fuel : Nat}
  {k : Kernel} {fs : FsInstance} (boot : kmain fuel b = some (k,fs)) {l : Linked} {r : Regs} (cs : r.cs = KERNEL_CODE_SEGMENT)
  {line : Keyboard.Line} {fb : Console.Fb} {events : List Event} {s : State}
  (run : KernelThreads.Run ⟨l,fs,OwnData b k.phys.frames⟩ (Admits b ⟨l,fs,OwnData b k.phys.frames⟩)
    (Transparency.booted k r line fb) events s)
  {name : List Byte} (text : Text name) (admits : Admits b ⟨l,fs,OwnData b k.phys.frames⟩ s (.created name)) {s₁ : State}
  (creates : KernelThreads.Step ⟨l,fs,OwnData b k.phys.frames⟩ s (.created name) s₁) {i : Slot}
  (slot : (s.create ⟨l,fs,OwnData b k.phys.frames⟩ name).slot = some i)
  (spare : freeCount s.cpu.kernel.phys.frames ≠ loading_frames (program_pages s.access fs name s.cpu.kernel))
  {later : List Event} {t : State}
  (waits : KernelThreads.Run ⟨l,fs,OwnData b k.phys.frames⟩
    (fun t event => Admits b ⟨l,fs,OwnData b k.phys.frames⟩ t event ∧ ∀ r, event ≠ .started i r) s₁ later t)
  {r' : Regs} {u : State} (starts : KernelThreads.Step ⟨l,fs,OwnData b k.phys.frames⟩ t (.started i r') u)
include installed boot cs run text admits creates slot spare waits starts

theorem started_view : Inv l b k.phys.frames t ∧
    ∃ f, (sorted input_dir).find? (fun f => cut_name f = name) = some f ∧ userView u i = program f.data := by
  have bootUsed := kmain_image boot bootDir_shares
  obtain ⟨inv,initrd⟩ := run_initrd installed boot cs run
  obtain ⟨new,f,found,view⟩ := created_view installed boot inv initrd text admits creates slot spare
  have created := (step_keeps bootUsed ownData_within inv admits creates).1
  obtain ⟨invT,newT,same⟩ := run_new bootUsed ownData_within created new waits
  obtain ⟨book,kept⟩ := invT.kept
  have effect := step_effect bootUsed ownData_within invT (by exact trivial) starts
  have last := effect_view ownData_within kept bootUsed effect (new_untouched invT newT starts)
  exact ⟨invT,f,found,by rw [last,same,view]⟩

end

/-! ### The small PC -/

/-- A directory with the programs of the small PC. -/
def pcDir (hello shell : List Byte) : List DirEntry := [⟨"shell".toList,some shell⟩,⟨"hello".toList,some hello⟩]

def pcFiles (hello shell : List Byte) : List SourceFile := [⟨"hello".toList,hello⟩,⟨"shell".toList,shell⟩]

theorem pc_sorted (hello shell : List Byte) : sorted (pcDir hello shell) = pcFiles hello shell := by
  have before : ['h','e','l','l','o'] < ['s','h','e','l','l'] := by decide
  simp [sorted,regular,pcDir,pcFiles,List.mergeSort,List.MergeSort.Internal.splitInTwo,List.merge,before]

theorem pc_find (hello shell : List Byte) :
    (pcFiles hello shell).find? (fun f => cut_name f = helloName) = some ⟨"hello".toList,hello⟩ :=
  List.find?_cons_of_pos (p := fun f => decide (cut_name f = helloName)) (decide_eq_true rfl)

/-- Past the table there are only zeros. -/
theorem pc_zero {a : Word} (low : 0x200098 ≤ a.toNat) (high : a.toNat < 0x201484) : pcSetup.mem a = 0#8 := by
  have outside : ∀ (words : List (Word × Word)) (m : Memory), (∀ w ∈ words, ¬ InWord w.1 a) →
      words.foldl (fun m write => write32 m write.1 write.2) m a = m a := by
    intro words
    induction words with
    | nil => exact fun _ _ => rfl
    | cons w rest ih =>
      intro m others
      rw [List.foldl_cons,ih _ (fun v member => others v (by simp [member])),write32_outside (others w (by simp))]
  change pcWords.foldl (fun m write => write32 m write.1 write.2) _ a = 0#8
  have below : ∀ w ∈ pcWords, w.1.toNat+4 ≤ 0x200098 := by simp [pcWords]
  rw [outside pcWords _ (fun w member inWord => ?_),if_neg (by simp only [pageOf]; omega)]
  have fits := below w member
  have range := (inWord_range (by omega)).mp inWord
  omega

/-- The two programs on the small PC have 100 and 5000 zero bytes. -/
def zeros (n : Nat) : List Byte := List.replicate n 0#8

theorem zeros_length (n : Nat) : (zeros n).length = n := List.length_replicate

theorem pc_size : image_size (pcFiles (zeros 100) (zeros 5000)) = 5252 := by
  simp only [image_size,pcFiles,write_data,List.flatMap_cons,List.flatMap_nil,List.length_append,padded_length,zeros_length]
  decide

/-- The table as the boot loader has it. -/
theorem pc_table : Words.Holds pcSetup.mem 0x200000#32 (little FS_MAGIC++(little 2#32++
    ((entries_from 152 (pcFiles (zeros 100) (zeros 5000))).flatMap entry_bytes))) := by
  have bytes : ∀ (n : Nat) (table : List Byte), table.length = n →
      (∀ i < n, pcSetup.mem (0x200000#32+BitVec.ofNat 32 i) = table.getD i 0#8) → Words.Holds pcSetup.mem 0x200000#32 table := by
    intro n table length each i v here
    obtain ⟨inside,value⟩ := List.getElem?_eq_some_iff.mp here
    rw [each i (by omega),List.getD_eq_getElem?_getD,here]
    rfl
  have entries : (entries_from 152 (pcFiles (zeros 100) (zeros 5000))) =
      [⟨name_bytes (ascii "hello".toList),152,100⟩,⟨name_bytes (ascii "shell".toList),252,5000⟩] := by
    simp only [entries_from,pcFiles,entry_of,zeros_length,padded_length]
    rfl
  rw [entries]
  refine bytes 152 _ ?_ ?_
  · decide +kernel
  · decide +kernel

theorem pc_holds : Words.Holds pcSetup.mem 0x200000#32 (image (pcFiles (zeros 100) (zeros 5000))) := by
  have whole : image (pcFiles (zeros 100) (zeros 5000)) = (little FS_MAGIC++(little 2#32++
      ((entries_from 152 (pcFiles (zeros 100) (zeros 5000))).flatMap entry_bytes)))++
        write_data (pcFiles (zeros 100) (zeros 5000)) := by
    simp only [image,List.append_assoc]
    rfl
  have length := image_length (pcFiles (zeros 100) (zeros 5000))
  have blank : ∀ v ∈ write_data (pcFiles (zeros 100) (zeros 5000)), v = 0#8 := by
    intro v member
    simp only [write_data,pcFiles,List.flatMap_cons,List.flatMap_nil,padded,zeros,List.mem_append,List.mem_replicate,
      List.not_mem_nil,or_false] at member
    rcases member with (⟨_,zero⟩ | ⟨_,zero⟩) | ⟨_,zero⟩ | ⟨_,zero⟩ <;> exact zero
  have start : (little FS_MAGIC++(little 2#32++
      ((entries_from 152 (pcFiles (zeros 100) (zeros 5000))).flatMap entry_bytes))).length = 152 := by
    rw [List.length_append,List.length_append,little_length,little_length,entries_flatMap_length]
    rfl
  rw [whole,List.length_append,start,pc_size] at length
  rw [whole]
  refine holds_append.mpr ⟨pc_table,fun i v here => ?_⟩
  obtain ⟨inside,_⟩ := List.getElem?_eq_some_iff.mp here
  rw [start,blank v (List.mem_of_getElem? here),BitVec.add_assoc,← BitVec.ofNat_add]
  refine pc_zero ?_ ?_ <;>
    rw [BitVec.toNat_add,BitVec.toNat_ofNat,BitVec.toNat_ofNat] <;> omega

theorem pc_installed : Installed pcSetup (pcDir (zeros 100) (zeros 5000)) (image (pcFiles (zeros 100) (zeros 5000))) := by
  have names : ∀ f ∈ regular (pcDir (zeros 100) (zeros 5000)), Ascii f.name := by
    simp [Ascii,regular,pcDir]
  have size := pc_size
  constructor
  case built =>
    rw [← pc_sorted]
    exact build_fs_ok (by simp [regular,pcDir]) names (by rw [pc_sorted,size]; decide)
  case named => exact fun f member c inName => (names f member c inName).1
  case loaded =>
    rw [pc_module.1]
    exact pc_holds
  case ends =>
    rw [pc_module.1,pc_module.2,image_length,size]
    rfl
  case nonzero =>
    rw [pc_module.1]
    decide
  case above =>
    rw [pc_module.1]
    decide
  case below =>
    rw [pc_module.2]
    decide

/-- `hello` is created on the small PC, and starts. -/
theorem hello_starts (line : Keyboard.Line) (fb : Console.Fb) : ∃ (frames : Frames) (s t u : State) (i : Slot) (r : Regs),
    kmain 3 pcSetup = some (pcKernel frames,pcFs) ∧
    Fits pcSetup 0x100010#32 pcFs ⟨pcKernel frames,[]⟩ (.create helloName) ∧
    KernelThreads.Step ⟨Transparency.pcLinked,pcFs,OwnData pcSetup (pcKernel frames).phys.frames⟩
      (Transparency.booted (pcKernel frames) Transparency.bootRegs line fb) (.created helloName) s ∧
    (process_create (paged (pcKernel frames).cr3) 0x100010#32 pcFs helloName (pcKernel frames)).slot = some i ∧
    freeCount (pcKernel frames).phys.frames ≠
      loading_frames (program_pages (paged (pcKernel frames).cr3) pcFs helloName (pcKernel frames)) ∧
    KernelThreads.Step ⟨Transparency.pcLinked,pcFs,OwnData pcSetup (pcKernel frames).phys.frames⟩ s .silent t ∧
    KernelThreads.Step ⟨Transparency.pcLinked,pcFs,OwnData pcSetup (pcKernel frames).phys.frames⟩ t (.started i r) u ∧
    u.mode = .user ∧ u.cpu.kernel.current = some i ∧ u.line = line := by
  obtain ⟨frames,ended,boot⟩ := pc_kmain
  obtain ⟨fits,filled,_⟩ := hello_fits ended 0x100010#32
  obtain ⟨i,slot⟩ := Option.ne_none_iff_exists'.mp filled
  have room := hello_room ended
  rw [(hello_file (k := pcKernel frames) rfl rfl).2.2.1] at room
  have onePage : program_pages (paged (pcKernel frames).cr3) pcFs helloName (pcKernel frames) = 1 := by
    rw [program_pages,pc_seen,pc_programs.1]
    exact pc_programs.2.1
  obtain ⟨t,r,u,creates,jumps,_,_,starts,user,current,_,sameLine⟩ := Transparency.first_launched (l := Transparency.pcLinked)
    (r := Transparency.bootRegs) line fb ownData_within boot rfl fits rfl slot (by decide) (fun a inStack =>
      ⟨Transparency.boot_stack boot Transparency.image_stack (by decide) inStack,by
        rw [Transparency.boot_page inStack,pc_module.1]
        rintro ⟨byte,low,_,_,high⟩
        simp only [BitVec.toNat_ofNat] at low
        omega⟩)
  exact ⟨frames,_,t,u,i,r,boot,fits,creates,slot,by rw [onePage]; omega,jumps,starts,user,current,sameLine⟩

end SoKernel.Programs
